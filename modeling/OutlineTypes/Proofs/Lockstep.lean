import OutlineTypes.Proofs.Success
import Mathlib.Data.List.Forall2

/-! Computations in lockstep. Two runs that both end well end in related results; steps in lockstep make loops in
lockstep. That they do end well is shown apart, as they may have different bounds. A run that follows another one
also fails where this fails, and with the same error. -/
namespace OutlineTypes

/-- If both computations end in results, `R` relates these. -/
def Lockstep (R : α → β → Prop) (run : Except ε α) (other : Except ε β) : Prop :=
  ∀ x y, run = .ok x → other = .ok y → R x y

namespace Lockstep

variable {R : α → β → Prop} {run : Except ε α} {other : Except ε β}

theorem ok {x : α} {y : β} (related : R x y) : Lockstep R (.ok x : Except ε α) (.ok y) := by
  rintro _ _ ⟨⟩ ⟨⟩
  exact related

theorem pure {x : α} {y : β} (related : R x y) :
    Lockstep R (Pure.pure x : Except ε α) (Pure.pure y) := ok related

theorem error_left (reason : ε) : Lockstep R (.error reason) other := by
  intro _ _ wrong
  contradiction

theorem error_right (reason : ε) : Lockstep R run (.error reason) := by
  intro _ _ _ wrong
  contradiction

/-- What is known of each of the results. -/
theorem of_ensures {P : α → Prop} {Q : β → Prop} (first : Ensures run P) (second : Ensures other Q)
    (related : ∀ x y, P x → Q y → R x y) : Lockstep R run other :=
  fun x y one two => related x y (first x one) (second y two)

theorem mono {S : α → β → Prop} (h : Lockstep R run other) (implies : ∀ x y, R x y → S x y) :
    Lockstep S run other :=
  fun x y one two => implies x y (h x y one two)

theorem bind {S : γ → δ → Prop} {next : α → Except ε γ} {onward : β → Except ε δ}
    (h : Lockstep R run other) (steps : ∀ x y, R x y → Lockstep S (next x) (onward y)) :
    Lockstep S (run >>= next) (other >>= onward) := by
  cases run with
  | error reason => exact error_left reason
  | ok x =>
    cases other with
    | error reason => exact error_right reason
    | ok y => exact steps x y (h x y rfl rfl)

/-- What is known of each of the results besides. -/
theorem and {P : α → Prop} {Q : β → Prop} (h : Lockstep R run other) (first : Ensures run P)
    (second : Ensures other Q) : Lockstep (fun x y => R x y ∧ P x ∧ Q y) run other :=
  fun x y one two => ⟨h x y one two, first x one, second y two⟩

/-- A step that has no counterpart. -/
theorem bind_left {P : γ → Prop} {run : Except ε γ} {next : γ → Except ε α} (first : Ensures run P)
    (steps : ∀ x, P x → Lockstep R (next x) other) : Lockstep R (run >>= next) other := by
  cases run with
  | error reason => exact error_left reason
  | ok x => exact steps x (first x rfl)

theorem mapM {P : γ → δ → Prop} {xs : List γ} {ys : List δ} {f : γ → Except ε α} {g : δ → Except ε β}
    (lists : List.Forall₂ P xs ys) (each : ∀ x y, P x y → Lockstep R (f x) (g y)) :
    Lockstep (List.Forall₂ R) (xs.mapM f) (ys.mapM g) := by
  induction lists with
  | nil => exact pure .nil
  | cons same _ ih =>
    rw [List.mapM_cons, List.mapM_cons]
    exact (each _ _ same).bind fun _ _ first => ih.bind fun _ _ rest => .pure (.cons first rest)

theorem foldlM {P : γ → δ → Prop} {xs : List γ} {ys : List δ} {step : α → γ → Except ε α}
    {onward : β → δ → Except ε β} {start : α} {origin : β} (lists : List.Forall₂ P xs ys)
    (related : R start origin)
    (steps : ∀ state second x y, R state second → P x y → Lockstep R (step state x) (onward second y)) :
    Lockstep R (xs.foldlM step start) (ys.foldlM onward origin) := by
  induction lists generalizing start origin with
  | nil => exact ok related
  | cons same _ ih =>
    rw [List.foldlM_cons, List.foldlM_cons]
    exact (steps _ _ _ _ related same).bind fun _ _ => ih

end Lockstep

/-- Both computations end in the same error, or in results that `R` relates. -/
inductive Follows (R : α → β → Prop) : Except ε α → Except ε β → Prop
  | error (reason : ε) : Follows R (.error reason) (.error reason)
  | ok {x : α} {y : β} (related : R x y) : Follows R (.ok x) (.ok y)

namespace Follows

variable {R : α → β → Prop} {run : Except ε α} {other : Except ε β}

theorem pure {x : α} {y : β} (related : R x y) : Follows R (Pure.pure x : Except ε α) (Pure.pure y) := .ok related

theorem refl (run : Except ε α) : Follows (fun x y => x = y) run run := by
  cases run with
  | error reason => exact .error reason
  | ok x => exact .ok rfl

theorem mono {S : α → β → Prop} (h : Follows R run other) (implies : ∀ x y, R x y → S x y) : Follows S run other := by
  cases h with
  | error reason => exact .error reason
  | ok related => exact .ok (implies _ _ related)

theorem bind {S : γ → δ → Prop} {next : α → Except ε γ} {onward : β → Except ε δ} (h : Follows R run other)
    (steps : ∀ x y, R x y → Follows S (next x) (onward y)) : Follows S (run >>= next) (other >>= onward) := by
  cases h with
  | error reason => exact .error reason
  | ok related => exact steps _ _ related

/-- What is known of the result of the computation that is followed. -/
theorem and {P : β → Prop} (h : Follows R run other) (ensures : Ensures other P) :
    Follows (fun x y => R x y ∧ P y) run other := by
  cases h with
  | error reason => exact .error reason
  | ok related => exact .ok ⟨related, ensures _ rfl⟩

theorem foldlM {xs : List γ} {step : α → γ → Except ε α} {onward : β → γ → Except ε β} {start : α} {origin : β}
    (related : R start origin) (steps : ∀ x y, R x y → ∀ z ∈ xs, Follows R (step x z) (onward y z)) :
    Follows R (xs.foldlM step start) (xs.foldlM onward origin) := by
  induction xs generalizing start origin with
  | nil => exact .ok related
  | cons z xs ih =>
    rw [List.foldlM_cons, List.foldlM_cons]
    refine (steps _ _ related z List.mem_cons_self).bind fun x y related => ih related fun x y related z member => ?_
    exact steps x y related z (List.mem_cons_of_mem _ member)

theorem exists_left {y : β} (h : Follows R run other) (ended : other = .ok y) : ∃ x, run = .ok x ∧ R x y := by
  cases h with
  | error reason => contradiction
  | ok related =>
    cases ended
    exact ⟨_, rfl, related⟩

theorem exists_right {x : α} (h : Follows R run other) (ended : run = .ok x) : ∃ y, other = .ok y ∧ R x y := by
  cases h with
  | error reason => contradiction
  | ok related =>
    cases ended
    exact ⟨_, rfl, related⟩

end Follows

end OutlineTypes
