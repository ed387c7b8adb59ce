import OutlineTypes.Proofs.Lists

/-! Computations that end well. A fatal error is a result that no postcondition admits, so that a
computation succeeds includes that it ends in no fatal error; what it ensures is said of its result only. -/
namespace OutlineTypes

/-- The computation ends in a result with the property `post`, and in no error. -/
def Succeeds (run : Except ε α) (post : α → Prop) : Prop := ∃ result, run = .ok result ∧ post result

@[simp] theorem ok_bind (result : α) (next : α → Except ε β) : (.ok result >>= next) = next result := rfl

theorem exists_ok_of_bind {run : Except ε α} {next : α → Except ε β} {result : β}
    (made : (run >>= next) = .ok result) : ∃ mid, run = .ok mid ∧ next mid = .ok result := by
  cases run with
  | error reason => contradiction
  | ok mid => exact ⟨mid, rfl, made⟩

/-- A fold that comes to its end takes each step where the steps before it have led. -/
theorem exists_step_of_foldlM {step : β → α → Except ε β} {front back : List α} {x : α} {start mid last : β}
    (whole : (front ++ x :: back).foldlM step start = .ok last) (led : front.foldlM step start = .ok mid) :
    ∃ next, step mid x = .ok next := by
  rw [List.foldlM_append, led, ok_bind, List.foldlM_cons] at whole
  obtain ⟨next, taken, _⟩ := exists_ok_of_bind whole
  exact ⟨next, taken⟩

theorem toOption_eq_some_iff {run : Except ε α} {result : α} : run.toOption = some result ↔ run = .ok result := by
  cases run <;> simp [Except.toOption]

namespace Succeeds

theorem ok {post : α → Prop} {result : α} (h : post result) :
    Succeeds (.ok result : Except ε α) post := ⟨result, rfl, h⟩

theorem pure {post : α → Prop} {result : α} (h : post result) :
    Succeeds (Pure.pure result : Except ε α) post := ⟨result, rfl, h⟩

theorem mono {run : Except ε α} {post weaker : α → Prop} (h : Succeeds run post)
    (implies : ∀ result, post result → weaker result) : Succeeds run weaker := by
  obtain ⟨result, eq, holds⟩ := h
  exact ⟨result, eq, implies result holds⟩

/-- The only result has the property. -/
theorem post_of_eq {run : Except ε α} {post : α → Prop} {result : α} (h : Succeeds run post)
    (eq : run = .ok result) : post result := by
  obtain ⟨other, other_eq, holds⟩ := h
  cases other_eq.symm.trans eq
  exact holds

theorem bind {run : Except ε α} {next : α → Except ε β} {mid : α → Prop} {post : β → Prop}
    (first : Succeeds run mid) (second : ∀ result, mid result → Succeeds (next result) post) :
    Succeeds (run >>= next) post := by
  obtain ⟨result, rfl, holds⟩ := first
  exact second result holds

/-- An invariant over what a fold has gone through. -/
theorem foldlM {step : β → α → Except ε β} (inv : List α → β → Prop) {xs : List α} {start : β}
    (initial : inv [] start)
    (advance : ∀ done x rest state, xs = done ++ x :: rest → inv done state →
      Succeeds (step state x) (inv (done ++ [x]))) :
    Succeeds (xs.foldlM step start) (inv xs) := by
  suffices general : ∀ rest done state, xs = done ++ rest → inv done state →
      Succeeds (rest.foldlM step state) (inv xs) from general xs [] start rfl initial
  intro rest
  induction rest with
  | nil =>
    intro done state split holds
    rw [List.append_nil] at split
    exact ok (split ▸ holds)
  | cons x rest ih =>
    intro done state split holds
    rw [List.foldlM_cons]
    refine (advance done x rest state split holds).bind fun next holds => ?_
    exact ih (done ++ [x]) next (by rw [split, List.append_assoc]; rfl) holds

/-- An invariant of the state alone. -/
theorem foldlM_of_forall {step : β → α → Except ε β} (inv : β → Prop) {xs : List α} {start : β}
    (initial : inv start) (advance : ∀ x ∈ xs, ∀ state, inv state → Succeeds (step state x) inv) :
    Succeeds (xs.foldlM step start) inv :=
  foldlM (fun _ => inv) initial fun _ x _ state split holds =>
    advance x (by simp [split]) state holds

theorem mapM {f : α → Except ε β} {post : α → β → Prop} {xs : List α}
    (each : ∀ x ∈ xs, Succeeds (f x) (post x)) :
    Succeeds (xs.mapM f) (List.Forall₂ post xs) := by
  induction xs with
  | nil => exact pure .nil
  | cons x xs ih =>
    rw [List.mapM_cons]
    refine (each x (by simp)).bind fun y first => ?_
    refine (ih fun x member => each x (List.mem_cons_of_mem _ member)).bind fun ys rest => ?_
    exact pure (.cons first rest)

end Succeeds

/-- Whatever the computation ends in has the property; it may end in an error. -/
def Ensures (run : Except ε α) (post : α → Prop) : Prop := ∀ result, run = .ok result → post result

namespace Ensures

theorem ok {post : α → Prop} {result : α} (h : post result) : Ensures (.ok result : Except ε α) post := by
  intro other eq
  cases eq
  exact h

theorem pure {post : α → Prop} {result : α} (h : post result) :
    Ensures (Pure.pure result : Except ε α) post := ok h

theorem error {post : α → Prop} (reason : ε) : Ensures (.error reason) post := by
  intro result eq
  contradiction

/-- Nothing is said of the result. -/
theorem anything (run : Except ε α) : Ensures run fun _ => True := fun _ _ => trivial

theorem mono {run : Except ε α} {post weaker : α → Prop} (h : Ensures run post)
    (implies : ∀ result, post result → weaker result) : Ensures run weaker :=
  fun result eq => implies result (h result eq)

theorem bind {run : Except ε α} {next : α → Except ε β} {mid : α → Prop} {post : β → Prop}
    (first : Ensures run mid) (second : ∀ result, mid result → Ensures (next result) post) :
    Ensures (run >>= next) post := by
  intro result eq
  cases run with
  | error reason => contradiction
  | ok between => exact second between (first between rfl) result eq

theorem and {run : Except ε α} {post other : α → Prop} (h : Ensures run post) (k : Ensures run other) :
    Ensures run fun result => post result ∧ other result :=
  fun result eq => ⟨h result eq, k result eq⟩

/-- An invariant over what a fold has gone through. -/
theorem foldlM {step : β → α → Except ε β} (inv : List α → β → Prop) {xs : List α} {start : β}
    (initial : inv [] start)
    (advance : ∀ done x rest state, xs = done ++ x :: rest → inv done state →
      Ensures (step state x) (inv (done ++ [x]))) :
    Ensures (xs.foldlM step start) (inv xs) := by
  suffices general : ∀ rest done state, xs = done ++ rest → inv done state →
      Ensures (rest.foldlM step state) (inv xs) from general xs [] start rfl initial
  intro rest
  induction rest with
  | nil =>
    intro done state split holds
    rw [List.append_nil] at split
    exact ok (split ▸ holds)
  | cons x rest ih =>
    intro done state split holds
    rw [List.foldlM_cons]
    refine (advance done x rest state split holds).bind fun next holds => ?_
    exact ih (done ++ [x]) next (by rw [split, List.append_assoc]; rfl) holds

/-- An invariant of the state alone. -/
theorem foldlM_of_forall {step : β → α → Except ε β} (inv : β → Prop) {xs : List α} {start : β}
    (initial : inv start) (advance : ∀ x ∈ xs, ∀ state, inv state → Ensures (step state x) inv) :
    Ensures (xs.foldlM step start) inv :=
  foldlM (fun _ => inv) initial fun _ x _ state split holds =>
    advance x (by simp [split]) state holds

end Ensures

theorem Succeeds.ensures {run : Except ε α} {post : α → Prop} (h : Succeeds run post) :
    Ensures run post := fun _ eq => h.post_of_eq eq

theorem Succeeds.and_ensures {run : Except ε α} {post other : α → Prop} (h : Succeeds run post)
    (also : Ensures run other) : Succeeds run fun result => post result ∧ other result := by
  obtain ⟨result, eq, holds⟩ := h
  exact ⟨result, eq, holds, also result eq⟩

/-- Whatever `run` ends in, `other` ends in too. -/
def Refines (run other : Except ε α) : Prop := ∀ result, run = .ok result → other = .ok result

namespace Refines

theorem refl (run : Except ε α) : Refines run run := fun _ => id

theorem bind {run other : Except ε α} {next onward : α → Except ε β} (first : Refines run other)
    (second : ∀ result, Refines (next result) (onward result)) :
    Refines (run >>= next) (other >>= onward) := by
  intro result eq
  cases run with
  | error reason => contradiction
  | ok mid =>
    rw [first mid rfl]
    exact second mid result eq

theorem foldlM {step onward : β → α → Except ε β} {xs : List α} (start : β)
    (each : ∀ state, ∀ x ∈ xs, Refines (step state x) (onward state x)) :
    Refines (xs.foldlM step start) (xs.foldlM onward start) := by
  induction xs generalizing start with
  | nil => exact .refl _
  | cons x xs ih =>
    rw [List.foldlM_cons, List.foldlM_cons]
    exact (each start x List.mem_cons_self).bind fun state =>
      ih state fun state x member => each state x (List.mem_cons_of_mem _ member)

end Refines
end OutlineTypes
