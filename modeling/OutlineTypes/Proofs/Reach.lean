import OutlineTypes.Proofs.Resolution.Lineage
import Mathlib.Data.Finset.Card
import Mathlib.Data.List.TakeWhile
import Mathlib.Logic.Relation

/-! Reaching. Relations that agree on what is reached reach the same. Both searches are complete: with a bound no
smaller than the count of elements it can meet, a search lists exactly what is reached from the start, depth first
through elements without a mark. -/
namespace OutlineTypes

section Relations

variable {α : Type*} {R S : α → α → Prop} {P : α → Prop} {a b : α}

theorem of_reflTransGen (closed : ∀ a b, P a → R a b → P b) (start : P a) (path : Relation.ReflTransGen R a b) :
    P b := by
  induction path with
  | refl => exact start
  | tail _ step ih => exact closed _ _ ih step

/-- Relations that agree where `P` holds reach the same from there, if one of them keeps `P`. -/
theorem reflTransGen_congr (closed : ∀ a b, P a → R a b → P b) (agree : ∀ a, P a → ∀ b, S a b ↔ R a b)
    (start : P a) : Relation.ReflTransGen S a b ↔ Relation.ReflTransGen R a b := by
  have stays {b : α} := of_reflTransGen (b := b) closed start
  constructor
  · intro path
    induction path with
    | refl => exact .refl
    | tail _ step ih => exact ih.tail ((agree _ (stays ih) _).mp step)
  · intro path
    induction path with
    | refl => exact .refl
    | tail before step ih => exact ih.tail ((agree _ (stays before) _).mpr step)

theorem transGen_congr (closed : ∀ a b, P a → R a b → P b) (agree : ∀ a, P a → ∀ b, S a b ↔ R a b)
    (start : P a) : Relation.TransGen S a b ↔ Relation.TransGen R a b := by
  rw [Relation.TransGen.head'_iff, Relation.TransGen.head'_iff]
  refine exists_congr fun c => ?_
  rw [agree a start]
  exact and_congr_right fun step => reflTransGen_congr closed agree (closed a c start step)

/-- What is reached from an element, other than itself, is reached without coming back to it. -/
theorem exists_reach_avoiding (path : Relation.TransGen R a b) (apart : b ≠ a) :
    ∃ c, R a c ∧ c ≠ a ∧ Relation.ReflTransGen (fun x y => R x y ∧ y ≠ a) c b := by
  induction path with
  | single step => exact ⟨_, step, apart, .refl⟩
  | @tail mid b _ step ih =>
    by_cases back : mid = a
    · exact ⟨b, back ▸ step, apart, .refl⟩
    · obtain ⟨c, first, away, onward⟩ := ih back
      exact ⟨c, first, away, onward.tail ⟨step, apart⟩⟩

end Relations

variable {number : α → Nat} {next : α → List α} {marks : Marks} {layer : List α}

theorem mem_unmarked_iff (injective : ∀ x y, number x = number y → x = y) {xs : List α} {x : α} :
    x ∈ (unmarked number marks xs).1 ↔ x ∈ xs ∧ marks.contains (number x) = false := by
  constructor
  · exact mem_of_mem_unmarked number
  · rintro ⟨member, fresh⟩
    induction xs generalizing marks with
    | nil => contradiction
    | cons first rest ih =>
      rw [unmarked]
      split
      · rename_i marked
        have later : x ∈ rest := by
          rcases List.mem_cons.mp member with rfl | later
          · simp [fresh] at marked
          · exact later
        exact ih later fresh
      · rcases List.mem_cons.mp member with rfl | later
        · exact List.mem_cons_self
        · by_cases same : number first = number x
          · exact injective _ _ same ▸ List.mem_cons_self
          · exact List.mem_cons_of_mem _ (ih later (by simp [fresh, same]))

theorem contains_unmarked_iff (injective : ∀ x y, number x = number y → x = y) {xs : List α} {x : α} :
    (unmarked number marks xs).2.contains (number x) ↔ marks.contains (number x) ∨ x ∈ xs := by
  rw [contains_unmarked, Bool.or_eq_true, List.any_eq_true]
  refine or_congr_right ⟨?_, fun member => ⟨x, member, by simp⟩⟩
  rintro ⟨y, member, same⟩
  exact injective y x (by simpa using same) ▸ member

theorem subset_layersFrom (bound : Nat) (marks : Marks) (layer : List α) :
    layer ⊆ layersFrom number next bound marks layer := by
  cases bound with
  | zero => exact fun _ => id
  | succ bound =>
    cases layer with
    | nil => exact List.nil_subset _
    | cons first rest => exact fun x member => List.mem_append_left _ member

/-- The numbers among these that are not marked. -/
def remaining (among : Finset Nat) (marks : Marks) : Finset Nat :=
  among.filter fun n => marks.contains n = false

theorem mem_remaining {among : Finset Nat} {n : Nat} :
    n ∈ remaining among marks ↔ n ∈ among ∧ marks.contains n = false := Finset.mem_filter

/-- Marking a number uses it up. -/
theorem card_remaining_lt {among : Finset Nat} {more : Marks} {n : Nat} (inside : n ∈ among)
    (fresh : marks.contains n = false) (met : more.contains n)
    (grows : ∀ m, more.contains m = false → marks.contains m = false) :
    (remaining among more).card < (remaining among marks).card := by
  refine Finset.card_lt_card (Finset.ssubset_iff_of_subset ?_ |>.mpr ⟨n, mem_remaining.mpr ⟨inside, fresh⟩, ?_⟩)
  · intro m left
    obtain ⟨here, free⟩ := mem_remaining.mp left
    exact mem_remaining.mpr ⟨here, grows m free⟩
  · intro left
    simp [(mem_remaining.mp left).2] at met

/-- Every layer that is not empty uses up a number. -/
theorem card_remaining_unmarked (injective : ∀ x y, number x = number y → x = y) {among : Finset Nat}
    {xs : List α} {x : α} (listed : x ∈ (unmarked number marks xs).1) (inside : number x ∈ among) :
    (remaining among (unmarked number marks xs).2).card < (remaining among marks).card := by
  obtain ⟨member, fresh⟩ := (mem_unmarked_iff injective).mp listed
  refine card_remaining_lt inside fresh ((contains_unmarked_iff injective).mpr (.inr member)) fun n free => ?_
  rw [contains_unmarked, Bool.or_eq_false_iff] at free
  exact free.1

theorem unmarked_spec (number : α → Nat) (marks : Marks) (xs : List α) (among : Finset Nat)
    (injective : ∀ x y, number x = number y → x = y) :
    (∀ {x}, (unmarked number marks xs).2.contains (number x) ↔ marks.contains (number x) ∨ x ∈ xs) ∧
    (∀ {x}, x ∈ (unmarked number marks xs).1 ↔ x ∈ xs ∧ marks.contains (number x) = false) ∧
    (∀ {x}, x ∈ (unmarked number marks xs).1 → number x ∈ among →
      (remaining among (unmarked number marks xs).2).card < (remaining among marks).card) :=
  ⟨contains_unmarked_iff injective, mem_unmarked_iff injective, card_remaining_unmarked injective⟩

/-- What is marked or listed leads to nothing that is neither. -/
theorem layersFrom_closed (injective : ∀ x y, number x = number y → x = y) (among : Finset Nat)
    (inside : ∀ x, number x ∈ among → ∀ y ∈ next x, number y ∈ among) {bound : Nat}
    (layered : ∀ x ∈ layer, number x ∈ among)
    (behind : ∀ x, marks.contains (number x) → x ∉ layer → ∀ y ∈ next x, marks.contains (number y))
    (enough : (remaining among marks).card ≤ bound) {x : α}
    (listed : marks.contains (number x) ∨ x ∈ layersFrom number next bound marks layer) {y : α}
    (reached : y ∈ next x) :
    marks.contains (number y) ∨ y ∈ layersFrom number next bound marks layer := by
  induction bound generalizing marks layer with
  | zero =>
    left
    by_cases here : x ∈ layer
    · by_contra fresh
      have left := mem_remaining.mpr ⟨inside x (layered x here) y reached, by simpa using fresh⟩
      simp [Finset.card_eq_zero.mp (Nat.le_zero.mp enough)] at left
    · exact behind x (listed.resolve_right here) here y reached
  | succ bound ih =>
    cases layer with
    | nil => exact .inl (behind x (by simpa [layersFrom] using listed) List.not_mem_nil y reached)
    | cons first rest =>
      simp only [layersFrom] at listed ⊢
      generalize first :: rest = layer at *
      obtain ⟨marked, fresh, fewer⟩ := unmarked_spec number marks (layer.flatMap next) among injective
      generalize unmarked number marks (layer.flatMap next) = result at *
      obtain ⟨further, after⟩ := result
      simp only at *
      have origin : ∀ z ∈ further, number z ∈ among := by
        intro z member
        obtain ⟨before, here, step⟩ := List.mem_flatMap.mp (fresh.mp member).1
        exact inside before (layered before here) z step
      have onward : ∀ z, after.contains (number z) → z ∉ further →
          ∀ w ∈ next z, after.contains (number w) := by
        intro z met absent w step
        by_cases here : z ∈ layer
        · exact marked.mpr (.inr (List.mem_flatMap.mpr ⟨z, here, step⟩))
        · refine marked.mpr (.inl (behind z ?_ here w step))
          by_contra free
          exact absent (fresh.mpr ⟨(marked.mp met).resolve_left free, by simpa using free⟩)
      have rest : after.contains (number y) ∨ y ∈ layersFrom number next bound after further := by
        by_cases here : x ∈ layer
        · exact .inl (marked.mpr (.inr (List.mem_flatMap.mpr ⟨x, here, reached⟩)))
        · have known : after.contains (number x) ∨ x ∈ layersFrom number next bound after further := by
            rcases listed with before | listed
            · exact .inl (marked.mpr (.inl before))
            · exact .inr ((List.mem_append.mp listed).resolve_left here)
          cases further with
          | nil =>
            have met : after.contains (number x) := known.resolve_right (by cases bound <;> simp [layersFrom])
            exact .inl (onward x met List.not_mem_nil y reached)
          | cons new others =>
            have := fewer List.mem_cons_self (origin new List.mem_cons_self)
            exact ih origin onward (by omega) known
      rcases rest with met | later
      · by_cases before : marks.contains (number y)
        · exact .inl before
        · have new := fresh.mpr ⟨(marked.mp met).resolve_left before, by simpa using before⟩
          exact .inr (List.mem_append_right _ (subset_layersFrom bound after further new))
      · exact .inr (List.mem_append_right _ later)

theorem mem_breadthFirst_iff (injective : ∀ x y, number x = number y → x = y) (among : Finset Nat)
    (inside : ∀ x, number x ∈ among → ∀ y ∈ next x, number y ∈ among) {start : List α}
    (begins : ∀ x ∈ start, number x ∈ among) {bound : Nat} (enough : among.card ≤ bound) {x : α} :
    x ∈ breadthFirst number next bound start ↔
      ∃ origin ∈ start, Relation.ReflTransGen (fun a b => b ∈ next a) origin x := by
  constructor
  · refine forall_mem_breadthFirst (P := fun x => ∃ origin ∈ start, Relation.ReflTransGen
      (fun a b => b ∈ next a) origin x) ?_ bound ?_ x
    · rintro y ⟨origin, member, path⟩ z step
      exact ⟨origin, member, path.tail step⟩
    · exact fun y member => ⟨y, member, .refl⟩
  · rintro ⟨origin, member, path⟩
    rw [breadthFirst]
    obtain ⟨marked, fresh, _⟩ := unmarked_spec number ∅ start among injective
    have few : (remaining among (unmarked number ∅ start).2).card ≤ bound :=
      (Finset.card_filter_le _ _).trans enough
    generalize unmarked number ∅ start = result at *
    obtain ⟨layer, marks⟩ := result
    simp only [Marks.contains_empty, Bool.false_eq_true, false_or, and_true] at *
    -- Nothing is marked yet but what is listed in the first layer.
    have listed {z : α} (known : marks.contains (number z) ∨ z ∈ layersFrom number next bound marks layer) :
        z ∈ layersFrom number next bound marks layer :=
      known.elim (fun met => subset_layersFrom bound marks layer (fresh.mpr (marked.mp met))) id
    induction path with
    | refl => exact listed (.inl (marked.mpr member))
    | tail _ step ih =>
      refine listed (layersFrom_closed injective among inside (fun z here => begins z (fresh.mp here))
        (fun z met absent => absurd (fresh.mpr (marked.mp met)) absent) few (.inr ih) step)

section DepthFirst

variable {stack : List α}

/-- Everything on the stack is marked or listed, and what is listed leads to nothing that is neither. -/
theorem depthFirst_closed (injective : ∀ x y, number x = number y → x = y) (among : Finset Nat)
    (inside : ∀ x, number x ∈ among → ∀ y ∈ next x, number y ∈ among) {bound : Nat}
    (stacked : ∀ x ∈ stack, number x ∈ among) (enough : (remaining among marks).card ≤ bound) :
    (∀ x ∈ stack, marks.contains (number x) ∨ x ∈ depthFirst number next bound marks stack) ∧
      ∀ x ∈ depthFirst number next bound marks stack, ∀ y ∈ next x,
        marks.contains (number y) ∨ y ∈ depthFirst number next bound marks stack := by
  induction bound generalizing marks stack with
  | zero =>
    refine ⟨fun x member => .inl ?_, by simp [depthFirst]⟩
    by_contra fresh
    have left := mem_remaining.mpr ⟨stacked x member, by simpa using fresh⟩
    simp [Finset.card_eq_zero.mp (Nat.le_zero.mp enough)] at left
  | succ bound ih =>
    have dropped {x : α} (member : x ∈ stack) : marks.contains (number x) ∨
        x ∈ stack.dropWhile fun y => marks.contains (number y) := by
      rw [← List.takeWhile_append_dropWhile (p := fun y => marks.contains (number y)) (l := stack)] at member
      exact (List.mem_append.mp member).imp_left fun early =>
        List.mem_takeWhile_imp (p := fun y => marks.contains (number y)) early
    rw [depthFirst]
    cases top : stack.dropWhile fun x => marks.contains (number x) with
    | nil => exact ⟨fun x member => .inl ((dropped member).resolve_right (by simp [top])), by simp⟩
    | cons first rest =>
      have fresh : marks.contains (number first) = false := by
        have head := List.head?_dropWhile_not (fun x => marks.contains (number x)) stack
        simpa [top] using head
      have kept {x : α} (member : x ∈ first :: rest) : number x ∈ among :=
        stacked x ((List.dropWhile_sublist _).subset (top ▸ member))
      have fewer : (remaining among (marks.insert (number first))).card < (remaining among marks).card := by
        refine card_remaining_lt (kept List.mem_cons_self) fresh (by simp) fun n free => ?_
        rw [Marks.contains_insert, Bool.or_eq_false_iff] at free
        exact free.1
      have onward : ∀ x ∈ (next first).reverse ++ rest, number x ∈ among := by
        intro x member
        rcases List.mem_append.mp member with reached | waiting
        · exact inside first (kept List.mem_cons_self) x (List.mem_reverse.mp reached)
        · exact kept (List.mem_cons_of_mem _ waiting)
      obtain ⟨listed, closed⟩ := ih onward (Nat.le_of_lt_succ (fewer.trans_le enough))
      -- What the deeper search takes for marked is marked here, or it is the element on top.
      have weaken {x : α} (known : (marks.insert (number first)).contains (number x) ∨
          x ∈ depthFirst number next bound (marks.insert (number first)) ((next first).reverse ++ rest)) :
          marks.contains (number x) ∨ x ∈ first :: depthFirst number next bound
            (marks.insert (number first)) ((next first).reverse ++ rest) := by
        rw [Marks.contains_insert, Bool.or_eq_true, decide_eq_true_eq] at known
        rcases known with (before | same) | later
        · exact .inl before
        · exact .inr (injective _ _ same ▸ List.mem_cons_self)
        · exact .inr (List.mem_cons_of_mem _ later)
      refine ⟨fun x member => ?_, fun x member y step => ?_⟩
      · rcases dropped member with before | still
        · exact .inl before
        · rcases List.mem_cons.mp (top ▸ still) with rfl | waiting
          · exact .inr List.mem_cons_self
          · exact weaken (listed x (List.mem_append_right _ waiting))
      · rcases List.mem_cons.mp member with rfl | deeper
        · exact weaken (listed y (List.mem_append_left _ (List.mem_reverse.mpr step)))
        · exact weaken (closed x deeper y step)

theorem mem_depthFirst_of_reached (injective : ∀ x y, number x = number y → x = y) (among : Finset Nat)
    (inside : ∀ x, number x ∈ among → ∀ y ∈ next x, number y ∈ among) {bound : Nat}
    (stacked : ∀ x ∈ stack, number x ∈ among) (enough : among.card ≤ bound) {origin x : α}
    (member : origin ∈ stack) (fresh : marks.contains (number origin) = false)
    (path : Relation.ReflTransGen (fun a b => b ∈ next a ∧ marks.contains (number b) = false) origin x) :
    x ∈ depthFirst number next bound marks stack := by
  obtain ⟨listed, closed⟩ := depthFirst_closed injective among inside stacked
    ((Finset.card_filter_le (p := fun n => marks.contains n = false) among).trans enough)
  clear stacked
  induction path with
  | refl => exact (listed origin member).resolve_left (by simp [fresh])
  | tail _ step ih => exact (closed _ ih _ step.1).resolve_left (by simp [step.2])

end DepthFirst

end OutlineTypes
