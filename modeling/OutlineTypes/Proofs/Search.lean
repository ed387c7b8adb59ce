import OutlineTypes.Proofs.Reach
import Mathlib.Data.List.Forall2
import Mathlib.Logic.Relator

/-! Searches side by side. Related successors of related elements make related searches, with whatever bounds, as
long as each bound is enough for the elements that are related at all. -/
namespace OutlineTypes

variable {number : α → Nat} {next : α → List α} {marks : Marks}

section Bounds

variable {among : Finset Nat} (injective : ∀ x y, number x = number y → x = y)
  (inside : ∀ x, number x ∈ among → ∀ y ∈ next x, number y ∈ among)

theorem layersFrom_nil (number : α → Nat) (next : α → List α) (bound : Nat) (marks : Marks) :
    layersFrom number next bound marks [] = [] := by
  cases bound <;> rfl

include injective inside

/-- A bound beyond what is left makes no difference. -/
theorem layersFrom_eq_of_le {layer : List α} (layered : ∀ x ∈ layer, number x ∈ among) {bound more : Nat}
    (enough : (remaining among marks).card ≤ bound) (le : bound ≤ more) :
    layersFrom number next more marks layer = layersFrom number next bound marks layer := by
  induction bound generalizing more marks layer with
  | zero =>
    cases more with
    | zero => rfl
    | succ more =>
      cases layer with
      | nil => rfl
      | cons first rest =>
        have none : (unmarked number marks ((first :: rest).flatMap next)).1 = [] := by
          refine List.eq_nil_iff_forall_not_mem.mpr fun y member => ?_
          obtain ⟨reached, fresh⟩ := mem_of_mem_unmarked number member
          obtain ⟨x, here, step⟩ := List.mem_flatMap.mp reached
          have left := mem_remaining.mpr ⟨inside x (layered x here) y step, fresh⟩
          simp [Finset.card_eq_zero.mp (Nat.le_zero.mp enough)] at left
        simp only [layersFrom, none, layersFrom_nil, List.append_nil]
  | succ bound ih =>
    obtain ⟨more, rfl⟩ := Nat.exists_eq_add_of_le' (Nat.le_trans (Nat.succ_le_succ (Nat.zero_le bound)) le)
    cases layer with
    | nil => rfl
    | cons first rest =>
      simp only [layersFrom]
      congr 1
      have origin : ∀ y ∈ (unmarked number marks ((first :: rest).flatMap next)).1, number y ∈ among := by
        intro y member
        obtain ⟨x, here, step⟩ := List.mem_flatMap.mp (mem_of_mem_unmarked number member).1
        exact inside x (layered x here) y step
      have fewer {y : α} (member : y ∈ (unmarked number marks ((first :: rest).flatMap next)).1) :=
        card_remaining_unmarked injective member (origin y member)
      generalize unmarked number marks ((first :: rest).flatMap next) = result at origin fewer ⊢
      obtain ⟨further, after⟩ := result
      cases further with
      | nil => simp only [layersFrom_nil]
      | cons new others =>
        have := fewer List.mem_cons_self
        exact ih origin (by simp only at this ⊢; omega) (by omega)

omit injective in
theorem depthFirst_eq_of_le {stack : List α} (stacked : ∀ x ∈ stack, number x ∈ among) {bound more : Nat}
    (enough : (remaining among marks).card ≤ bound) (le : bound ≤ more) :
    depthFirst number next more marks stack = depthFirst number next bound marks stack := by
  have kept {x : α} (member : x ∈ stack.dropWhile fun x => marks.contains (number x)) : number x ∈ among :=
    stacked x ((List.dropWhile_sublist _).subset member)
  have head := List.head?_dropWhile_not (fun x => marks.contains (number x)) stack
  induction bound generalizing more marks stack with
  | zero =>
    cases more with
    | zero => rfl
    | succ more =>
      rw [depthFirst, depthFirst]
      cases top : stack.dropWhile fun x => marks.contains (number x) with
      | nil => rfl
      | cons first rest =>
        have fresh : marks.contains (number first) = false := by simpa [top] using head
        have left := mem_remaining.mpr ⟨kept (top ▸ List.mem_cons_self), fresh⟩
        simp [Finset.card_eq_zero.mp (Nat.le_zero.mp enough)] at left
  | succ bound ih =>
    obtain ⟨more, rfl⟩ := Nat.exists_eq_add_of_le' (Nat.le_trans (Nat.succ_le_succ (Nat.zero_le bound)) le)
    rw [depthFirst, depthFirst]
    cases top : stack.dropWhile fun x => marks.contains (number x) with
    | nil => rfl
    | cons first rest =>
      have fresh : marks.contains (number first) = false := by simpa [top] using head
      have here : number first ∈ among := kept (top ▸ List.mem_cons_self)
      have fewer : (remaining among (marks.insert (number first))).card < (remaining among marks).card := by
        refine card_remaining_lt here fresh (by simp) fun n free => ?_
        rw [Marks.contains_insert, Bool.or_eq_false_iff] at free
        exact free.1
      have onward : ∀ x ∈ (next first).reverse ++ rest, number x ∈ among := by
        intro x member
        rcases List.mem_append.mp member with reached | waiting
        · exact inside first here x (List.mem_reverse.mp reached)
        · exact kept (top ▸ List.mem_cons_of_mem _ waiting)
      refine congrArg (first :: ·) (ih onward (by omega) (by omega) (fun member => ?_) ?_)
      · exact onward _ ((List.dropWhile_sublist _).subset member)
      · exact List.head?_dropWhile_not _ _

end Bounds

/-- The bound is enough for the elements with this property. -/
def Suffices (number : α → Nat) (property : α → Prop) (bound : Nat) : Prop :=
  ∃ among : Finset Nat, (∀ x, number x ∈ among ↔ property x) ∧ among.card ≤ bound

section Sufficient

variable {property : α → Prop} {bound more : Nat} (enough : Suffices number property bound)
  (closed : ∀ x, property x → ∀ y ∈ next x, property y) (le : bound ≤ more)

include enough closed le

theorem layersFrom_of_suffices (injective : ∀ x y, number x = number y → x = y) (marks : Marks) {layer : List α}
    (layered : ∀ x ∈ layer, property x) :
    layersFrom number next more marks layer = layersFrom number next bound marks layer := by
  obtain ⟨among, domain, few⟩ := enough
  refine layersFrom_eq_of_le injective (fun x here y step => ?_) (fun x member => (domain x).mpr (layered x member))
    ((Finset.card_filter_le _ _).trans few) le
  exact (domain y).mpr (closed x ((domain x).mp here) y step)

theorem depthFirst_of_suffices (marks : Marks) {stack : List α} (stacked : ∀ x ∈ stack, property x) :
    depthFirst number next more marks stack = depthFirst number next bound marks stack := by
  obtain ⟨among, domain, few⟩ := enough
  refine depthFirst_eq_of_le (fun x here y step => ?_) (fun x member => (domain x).mpr (stacked x member))
    ((Finset.card_filter_le _ _).trans few) le
  exact (domain y).mpr (closed x ((domain x).mp here) y step)

end Sufficient

section Related

variable {R : α → β → Prop} {numberToo : β → Nat} {again : β → List β} {others : Marks}

/-- Related elements are marked on both sides or on neither. -/
def SameMarks (R : α → β → Prop) (number : α → Nat) (numberToo : β → Nat) (marks others : Marks) : Prop :=
  ∀ x y, R x y → others.contains (numberToo y) = marks.contains (number x)

theorem sameMarks_empty (R : α → β → Prop) (number : α → Nat) (numberToo : β → Nat) :
    SameMarks R number numberToo ∅ ∅ := fun _ _ _ => by simp

theorem exists_right {xs : List α} {ys : List β} (lists : List.Forall₂ R xs ys) {x : α} (member : x ∈ xs) :
    ∃ y, R x y := by
  obtain ⟨y, _, related⟩ := exists_mem_right_of_forall₂ lists member
  exact ⟨y, related⟩

theorem exists_left {xs : List α} {ys : List β} (lists : List.Forall₂ R xs ys) {y : β} (member : y ∈ ys) :
    ∃ x, R x y := by
  obtain ⟨x, _, related⟩ := exists_mem_left_of_forall₂ lists member
  exact ⟨x, related⟩

theorem closed_left (steps : ∀ x y, R x y → List.Forall₂ R (next x) (again y)) (x : α) (pair : ∃ y, R x y) :
    ∀ z ∈ next x, ∃ w, R z w := by
  obtain ⟨y, related⟩ := pair
  exact fun z member => exists_right (steps x y related) member

theorem closed_right (steps : ∀ x y, R x y → List.Forall₂ R (next x) (again y)) (y : β) (pair : ∃ x, R x y) :
    ∀ w ∈ again y, ∃ z, R z w := by
  obtain ⟨x, related⟩ := pair
  exact fun w member => exists_left (steps x y related) member

variable (unique : Relator.BiUnique R) (injective : ∀ x y, number x = number y → x = y)
  (injectiveToo : ∀ x y, numberToo x = numberToo y → x = y)

include unique injective injectiveToo

theorem SameMarks.insert (same : SameMarks R number numberToo marks others) {x : α} {y : β} (related : R x y) :
    SameMarks R number numberToo (marks.insert (number x)) (others.insert (numberToo y)) := by
  intro a b pair
  have met : numberToo y = numberToo b ↔ number x = number a :=
    ⟨fun eq => congrArg number (unique.1 related (injectiveToo _ _ eq ▸ pair)),
      fun eq => congrArg numberToo (unique.2 related (injective _ _ eq ▸ pair))⟩
  rw [Marks.contains_insert, Marks.contains_insert, same a b pair, decide_eq_decide.mpr met]

theorem unmarked_related (same : SameMarks R number numberToo marks others) {xs : List α} {ys : List β}
    (lists : List.Forall₂ R xs ys) :
    List.Forall₂ R (unmarked number marks xs).1 (unmarked numberToo others ys).1 ∧
      SameMarks R number numberToo (unmarked number marks xs).2 (unmarked numberToo others ys).2 := by
  induction lists generalizing marks others with
  | nil => exact ⟨.nil, same⟩
  | cons related _ ih =>
    unfold unmarked
    rw [same _ _ related]
    split
    · exact ih same
    · have rest := ih (same.insert unique injective injectiveToo related)
      exact ⟨.cons related rest.1, rest.2⟩

theorem distinct_related {xs : List α} {ys : List β} (lists : List.Forall₂ R xs ys) :
    List.Forall₂ R (distinct number xs) (distinct numberToo ys) :=
  (unmarked_related unique injective injectiveToo (sameMarks_empty R number numberToo) lists).1

variable (steps : ∀ x y, R x y → List.Forall₂ R (next x) (again y))

include steps

theorem layersFrom_related (bound : Nat) (same : SameMarks R number numberToo marks others) {layer : List α}
    {layerToo : List β} (layers : List.Forall₂ R layer layerToo) :
    List.Forall₂ R (layersFrom number next bound marks layer) (layersFrom numberToo again bound others layerToo) := by
  induction bound generalizing marks others layer layerToo with
  | zero => exact layers
  | succ bound ih =>
    cases layers with
    | nil => exact .nil
    | cons related rest =>
      have reached := List.rel_flatMap (.cons related rest) fun x y => steps x y
      have further := unmarked_related unique injective injectiveToo same reached
      exact List.rel_append (.cons related rest) (ih further.2 further.1)

theorem depthFirst_related (bound : Nat) (same : SameMarks R number numberToo marks others) {stack : List α}
    {stackToo : List β} (lists : List.Forall₂ R stack stackToo) :
    List.Forall₂ R (depthFirst number next bound marks stack) (depthFirst numberToo again bound others stackToo) := by
  induction bound generalizing marks others stack stackToo with
  | zero => exact .nil
  | succ bound ih =>
    have left : List.Forall₂ R (stack.dropWhile fun x => marks.contains (number x))
        (stackToo.dropWhile fun y => others.contains (numberToo y)) := by
      induction lists with
      | nil => exact .nil
      | cons related rest ih =>
        rw [List.dropWhile_cons, List.dropWhile_cons, same _ _ related]
        split
        · exact ih
        · exact .cons related rest
    unfold depthFirst
    generalize stack.dropWhile _ = xs at left ⊢
    generalize stackToo.dropWhile _ = ys at left ⊢
    cases left with
    | nil => exact .nil
    | cons related rest =>
      refine .cons related (ih (same.insert unique injective injectiveToo related) ?_)
      exact List.rel_append (List.forall₂_reverse_iff.mpr (steps _ _ related)) rest

variable {bound boundToo : Nat} (enough : Suffices number (fun x => ∃ y, R x y) bound)
  (enoughToo : Suffices numberToo (fun y => ∃ x, R x y) boundToo)

include enough enoughToo

/-- Searches with bounds that suffice are the same as with the larger of them. -/
theorem breadthFirst_related {start : List α} {startToo : List β} (starts : List.Forall₂ R start startToo) :
    List.Forall₂ R (breadthFirst number next bound start) (breadthFirst numberToo again boundToo startToo) := by
  obtain ⟨layers, same⟩ := unmarked_related unique injective injectiveToo (sameMarks_empty R number numberToo) starts
  have left := layersFrom_of_suffices enough (closed_left steps) (Nat.le_max_left bound boundToo) injective
    (unmarked number ∅ start).2 fun x member => exists_right layers member
  have right := layersFrom_of_suffices enoughToo (closed_right steps) (Nat.le_max_right bound boundToo) injectiveToo
    (unmarked numberToo ∅ startToo).2 fun y member => exists_left layers member
  change List.Forall₂ R (layersFrom number next bound _ _) (layersFrom numberToo again boundToo _ _)
  rw [← left, ← right]
  exact layersFrom_related unique injective injectiveToo steps _ same layers

theorem depthFirst_related_of_suffices (same : SameMarks R number numberToo marks others) {stack : List α}
    {stackToo : List β} (lists : List.Forall₂ R stack stackToo) :
    List.Forall₂ R (depthFirst number next bound marks stack)
      (depthFirst numberToo again boundToo others stackToo) := by
  rw [← depthFirst_of_suffices enough (closed_left steps) (Nat.le_max_left bound boundToo) marks
      fun x member => exists_right lists member,
    ← depthFirst_of_suffices enoughToo (closed_right steps) (Nat.le_max_right bound boundToo) others
      fun y member => exists_left lists member]
  exact depthFirst_related unique injective injectiveToo steps _ same lists

end Related

end OutlineTypes
