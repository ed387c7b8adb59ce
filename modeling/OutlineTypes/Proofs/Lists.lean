import OutlineTypes.Ordered
import Mathlib.Data.List.Forall2
import Mathlib.Data.List.Nodup
import Mathlib.Data.List.Sort

/-! Lists: keys that tell elements apart, sorting, and where an element comes from. -/
namespace OutlineTypes

section Keys

variable {α κ : Type*} {key : α → κ} {xs : List α}

theorem eq_of_key_eq (unique : (xs.map key).Nodup) {x y : α} (hx : x ∈ xs) (hy : y ∈ xs)
    (same : key x = key y) : x = y := List.inj_on_of_nodup_map unique hx hy same

variable [DecidableEq κ]

theorem find?_key_eq_some_iff (unique : (xs.map key).Nodup) {k : κ} {x : α} :
    xs.find? (key · = k) = some x ↔ x ∈ xs ∧ key x = k := by
  constructor
  · intro found
    exact ⟨List.mem_of_find?_eq_some found, by simpa using List.find?_some found⟩
  · rintro ⟨member, rfl⟩
    have present : (xs.find? (key · = key x)).isSome := by
      rw [List.find?_isSome]
      exact ⟨x, member, by simp⟩
    obtain ⟨y, found⟩ := Option.isSome_iff_exists.mp present
    have same : key y = key x := by simpa using List.find?_some found
    rw [found, eq_of_key_eq unique (List.mem_of_find?_eq_some found) member same]

theorem find?_key_eq_none_iff {k : κ} : xs.find? (key · = k) = none ↔ ∀ x ∈ xs, key x ≠ k := by
  simp

end Keys

/-- Lists are the same where a function tells their elements apart and lists the same for both. -/
theorem eq_of_map_eq {f : α → β} {xs ys : List α} (apart : ∀ x ∈ xs, ∀ y ∈ ys, f x = f y → x = y)
    (same : xs.map f = ys.map f) : xs = ys := by
  have length : xs.length = ys.length := by simpa using congrArg List.length same
  refine List.ext_getElem length fun n here there => ?_
  have entry : (xs.map f)[n]? = (ys.map f)[n]? := congrArg (fun list => list[n]?) same
  rw [List.getElem?_map, List.getElem?_map, List.getElem?_eq_getElem here, List.getElem?_eq_getElem there] at entry
  exact apart _ (List.getElem_mem here) _ (List.getElem_mem there) (Option.some.inj entry)

theorem stableSort_eq_insertionSort (le : α → α → Bool) (xs : List α) :
    stableSort le xs = xs.insertionSort fun a b => le a b := by
  have insert (x : α) (ys : List α) :
      insertSorted le x ys = ys.orderedInsert (fun a b => le a b) x := by
    induction ys with
    | nil => rfl
    | cons y ys ih => simp only [insertSorted, List.orderedInsert, ih]
  induction xs with
  | nil => rfl
  | cons x xs ih =>
    rw [List.insertionSort_cons, ← ih, ← insert]
    rfl

theorem stableSort_eq_self (le : α → α → Bool) {xs : List α} (sorted : xs.Pairwise fun a b => le a b) :
    stableSort le xs = xs := by
  rw [stableSort_eq_insertionSort]
  exact List.Pairwise.insertionSort_eq sorted

theorem pairwise_stableSort (le : α → α → Bool) (total : ∀ a b, le a b ∨ le b a)
    (trans : ∀ a b c, le a b → le b c → le a c) (xs : List α) :
    (stableSort le xs).Pairwise fun a b => le a b := by
  have : Std.Total fun a b => le a b = true := ⟨total⟩
  have : IsTrans α fun a b => le a b = true := ⟨trans⟩
  rw [stableSort_eq_insertionSort]
  exact List.pairwise_insertionSort _ xs

/-- Elements that the order does not separate keep their relation, too. -/
theorem pairwise_stableSort_of_pairwise {R : α → α → Prop} (le : α → α → Bool)
    (total : ∀ a b, le a b ∨ le b a) (trans : ∀ a b c, le a b → le b c → le a c) {xs : List α}
    (related : xs.Pairwise R) : (stableSort le xs).Pairwise fun a b => le a b ∧ (le b a → R a b) := by
  have insert (x : α) (ys : List α) (first : ∀ y ∈ ys, R x y)
      (sorted : ys.Pairwise fun a b => le a b ∧ (le b a → R a b)) :
      (insertSorted le x ys).Pairwise fun a b => le a b ∧ (le b a → R a b) := by
    induction ys with
    | nil => exact List.pairwise_singleton _ _
    | cons y ys ih =>
      obtain ⟨least, rest⟩ := List.pairwise_cons.mp sorted
      rw [List.forall_mem_cons] at first
      unfold insertSorted
      by_cases smaller : le x y
      · simp only [smaller, ↓reduceIte]
        refine List.pairwise_cons.mpr ⟨?_, sorted⟩
        rw [List.forall_mem_cons]
        exact ⟨⟨smaller, fun _ => first.1⟩,
          fun z member => ⟨trans x y z smaller (least z member).1, fun _ => first.2 z member⟩⟩
      · simp only [smaller, Bool.false_eq_true, ↓reduceIte]
        refine List.pairwise_cons.mpr ⟨fun z member => ?_, ih first.2 rest⟩
        rw [(insertSorted_perm le x ys).mem_iff, List.mem_cons] at member
        rcases member with rfl | member
        · exact ⟨(total z y).resolve_left smaller, fun same => absurd same smaller⟩
        · exact least z member
  induction xs with
  | nil => exact .nil
  | cons x xs ih =>
    obtain ⟨first, rest⟩ := List.pairwise_cons.mp related
    exact insert x _ (fun y member => first y ((mem_stableSort le xs y).mp member)) (ih rest)

/-- Lists whose elements look the same in order. -/
theorem forall₂_of_map_eq {R : α → β → Prop} {f : α → γ} {g : β → γ} {xs : List α} {ys : List β}
    (same : xs.map f = ys.map g) (each : ∀ x ∈ xs, ∀ y ∈ ys, f x = g y → R x y) :
    List.Forall₂ R xs ys := by
  induction xs generalizing ys with
  | nil =>
    cases ys with
    | nil => exact .nil
    | cons y ys => simp at same
  | cons x xs ih =>
    cases ys with
    | nil => simp at same
    | cons y ys =>
      obtain ⟨first, rest⟩ := List.cons.inj same
      refine .cons (each x List.mem_cons_self y List.mem_cons_self first) (ih rest fun x before y after => ?_)
      exact each x (List.mem_cons_of_mem _ before) y (List.mem_cons_of_mem _ after)

theorem exists_mem_left_of_forall₂ {R : α → β → Prop} {xs : List α} {ys : List β}
    (h : List.Forall₂ R xs ys) {y : β} (member : y ∈ ys) : ∃ x ∈ xs, R x y := by
  induction h with
  | nil => simp at member
  | cons related _ ih =>
    rcases List.mem_cons.mp member with rfl | member
    · exact ⟨_, List.mem_cons_self, related⟩
    · obtain ⟨x, among, holds⟩ := ih member
      exact ⟨x, List.mem_cons_of_mem _ among, holds⟩

theorem exists_mem_right_of_forall₂ {R : α → β → Prop} {xs : List α} {ys : List β}
    (h : List.Forall₂ R xs ys) {x : α} (member : x ∈ xs) : ∃ y ∈ ys, R x y :=
  exists_mem_left_of_forall₂ h.flip member

theorem exists_getElem?_right {R : α → β → Prop} {xs : List α} {ys : List β} (h : List.Forall₂ R xs ys)
    {index : Nat} {x : α} (found : xs[index]? = some x) : ∃ y, ys[index]? = some y ∧ R x y := by
  induction h generalizing index with
  | nil => simp at found
  | cons related _ ih =>
    cases index with
    | zero =>
      cases found
      exact ⟨_, rfl, related⟩
    | succ index => exact ih found

theorem exists_getElem?_left {R : α → β → Prop} {xs : List α} {ys : List β} (h : List.Forall₂ R xs ys)
    {index : Nat} {y : β} (found : ys[index]? = some y) : ∃ x, xs[index]? = some x ∧ R x y :=
  exists_getElem?_right h.flip found

theorem insertIdx_length_append (front back : List α) (x : α) :
    (front ++ back).insertIdx front.length x = front ++ x :: back := by
  induction front with
  | nil => rfl
  | cons first front ih => simp [ih]

/-- An invariant over what a fold has gone through. -/
theorem foldl_invariant {step : β → α → β} (inv : List α → β → Prop) {xs : List α} {start : β}
    (initial : inv [] start)
    (advance : ∀ done x rest state, xs = done ++ x :: rest → inv done state → inv (done ++ [x]) (step state x)) :
    inv xs (xs.foldl step start) := by
  suffices general : ∀ rest done state, xs = done ++ rest → inv done state → inv xs (rest.foldl step state) from
    general xs [] start rfl initial
  intro rest
  induction rest with
  | nil =>
    intro done state split holds
    rw [List.append_nil] at split
    exact split ▸ holds
  | cons x rest ih =>
    intro done state split holds
    apply ih (done ++ [x])
    · rw [split, List.append_assoc, List.singleton_append]
    · exact advance done x rest state split holds

/-- What stands before an element of a flattened list includes all that came from before its origin. -/
theorem exists_origin_of_flatMap_split {f : α → List β} {xs : List α} {y : β} {done rest : List β}
    (split : xs.flatMap f = done ++ y :: rest) :
    ∃ front x back, xs = front ++ x :: back ∧ y ∈ f x ∧ ∀ z ∈ front.flatMap f, z ∈ done := by
  induction xs generalizing done with
  | nil => simp at split
  | cons x xs ih =>
    rw [List.flatMap_cons] at split
    rcases List.append_eq_append_iff.mp split with ⟨middle, rfl, behind⟩ | ⟨middle, first, behind⟩
    · obtain ⟨front, origin, back, rfl, among, before⟩ := ih behind
      refine ⟨x :: front, origin, back, rfl, among, fun z member => ?_⟩
      rw [List.flatMap_cons] at member
      exact (List.mem_append.mp member).elim (List.mem_append_left _)
        fun later => List.mem_append_right _ (before z later)
    · cases middle with
      | nil =>
        have start : xs.flatMap f = [] ++ y :: rest := by simpa using behind.symm
        obtain ⟨front, origin, back, rfl, among, before⟩ := ih start
        refine ⟨x :: front, origin, back, rfl, among, fun z member => ?_⟩
        rw [List.flatMap_cons] at member
        rcases List.mem_append.mp member with here | later
        · simpa [first] using here
        · exact absurd (before z later) (List.not_mem_nil)
      | cons head middle =>
        obtain ⟨rfl, _⟩ := List.cons.inj behind
        exact ⟨[], x, xs, rfl, by simp [first], by simp⟩

end OutlineTypes
