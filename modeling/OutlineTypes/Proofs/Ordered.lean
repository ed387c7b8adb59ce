import OutlineTypes.Proofs.Lists

/-! Ordered sets and maps of related elements. A relation that pairs elements one to one is kept by every
way of building a set or a map. -/
namespace OutlineTypes

variable {R : α → β → Prop}

theorem eq_iff_of_biUnique (unique : Relator.BiUnique R) {x y : α} {x' y' : β} (first : R x x')
    (second : R y y') : x' = y' ↔ x = y := by
  constructor
  · rintro rfl
    exact unique.1 first second
  · rintro rfl
    exact unique.2 first second

theorem any_of_forall₂ {p : α → Bool} {q : β → Bool} (alike : ∀ x y, R x y → q y = p x) {xs : List α} {ys : List β}
    (lists : List.Forall₂ R xs ys) : ys.any q = xs.any p := by
  induction lists with
  | nil => rfl
  | cons first _ ih => rw [List.any_cons, List.any_cons, alike _ _ first, ih]

theorem decide_mem_of_biUnique [DecidableEq α] [DecidableEq β] (unique : Relator.BiUnique R)
    {xs : List α} {ys : List β} (lists : List.Forall₂ R xs ys) {x : α} {y : β} (same : R x y) :
    decide (y ∈ ys) = decide (x ∈ xs) := by
  rw [decide_eq_decide]
  exact (List.rel_mem unique same lists).symm

theorem idxOf?_of_biUnique [DecidableEq α] [DecidableEq β] (unique : Relator.BiUnique R) {xs : List α} {ys : List β}
    (lists : List.Forall₂ R xs ys) {x : α} {y : β} (same : R x y) : ys.idxOf? y = xs.idxOf? x := by
  induction lists with
  | nil => rfl
  | cons first _ ih =>
    have met := eq_iff_of_biUnique unique first same
    simp only [List.idxOf?_cons, ih, beq_eq_decide, decide_eq_decide.mpr met]

/-- Lists in order are related one by one if the relation pairs their members and reverses no order. -/
theorem forall₂_of_pairwise (unique : Relator.BiUnique R) {before : α → α → Prop} {sooner : β → β → Prop}
    (strict : ∀ x, ¬before x x) (strictToo : ∀ y, ¬sooner y y)
    (keeps : ∀ x y x' y', R x y → R x' y' → before x x' → ¬sooner y' y) {xs : List α} {ys : List β}
    (sorted : xs.Pairwise before) (sortedToo : ys.Pairwise sooner) (onward : ∀ x ∈ xs, ∃ y ∈ ys, R x y)
    (back : ∀ y ∈ ys, ∃ x ∈ xs, R x y) : List.Forall₂ R xs ys := by
  induction xs generalizing ys with
  | nil =>
    cases ys with
    | nil => exact .nil
    | cons y ys => simpa using back y List.mem_cons_self
  | cons x xs ih =>
    obtain ⟨first, rest⟩ := List.pairwise_cons.mp sorted
    cases ys with
    | nil => simpa using onward x List.mem_cons_self
    | cons y ys =>
      obtain ⟨firstToo, restToo⟩ := List.pairwise_cons.mp sortedToo
      -- Were the heads not related, each would stand in front of what the other is related to.
      have heads : R x y := by
        obtain ⟨twin, listed, same⟩ := onward x List.mem_cons_self
        obtain ⟨origin, listedToo, sameToo⟩ := back y List.mem_cons_self
        rcases List.mem_cons.mp listed with rfl | later
        · exact same
        rcases List.mem_cons.mp listedToo with rfl | laterToo
        · exact sameToo
        exact absurd (firstToo twin later) (keeps x twin origin y same sameToo (first origin laterToo))
      refine .cons heads (ih rest restToo (fun a member => ?_) fun b member => ?_)
      · obtain ⟨b, listed, same⟩ := onward a (List.mem_cons_of_mem _ member)
        rcases List.mem_cons.mp listed with rfl | later
        · exact absurd (first a member) (unique.1 heads same ▸ strict x)
        · exact ⟨b, later, same⟩
      · obtain ⟨a, listed, same⟩ := back b (List.mem_cons_of_mem _ member)
        rcases List.mem_cons.mp listed with rfl | later
        · exact absurd (firstToo b member) (unique.2 heads same ▸ strictToo y)
        · exact ⟨a, later, same⟩

theorem eq_none_or_exists_of_rel {x : Option α} {y : Option β} (h : Option.Rel R x y) :
    (x = none ∧ y = none) ∨ ∃ a b, x = some a ∧ y = some b ∧ R a b := by
  cases h with
  | none => exact .inl ⟨rfl, rfl⟩
  | some related => exact .inr ⟨_, _, rfl, rfl, related⟩

namespace OrderedSet

variable [DecidableEq α] [DecidableEq β]

omit [DecidableEq α] in
theorem isEmpty_eq_false_of_mem {s : OrderedSet α} {x : α} (member : x ∈ s) : s.isEmpty = false := by
  rw [← Bool.not_eq_true, OrderedSet.isEmpty_iff]
  exact fun none => none x member

theorem isEmpty_insert (s : OrderedSet α) (x : α) :
    (s.insert x).isEmpty = false :=
  isEmpty_eq_false_of_mem (mem_insert.mpr (.inr rfl))

omit [DecidableEq α] in
theorem exists_mem_of_isEmpty_eq_false {s : OrderedSet α} (full : s.isEmpty = false) : ∃ x, x ∈ s := by
  rw [← Bool.not_eq_true, OrderedSet.isEmpty_iff, not_forall] at full
  obtain ⟨x, member⟩ := full
  exact ⟨x, not_not.mp member⟩

/-- A new member comes last. -/
theorem pairwise_insert {before : α → α → Prop} {s : OrderedSet α} {x : α}
    (sorted : s.toList.Pairwise before) (last : ∀ y ∈ s, y = x ∨ before y x) :
    (s.insert x).toList.Pairwise before := by
  rw [toList_insert]
  split
  · exact sorted
  · rename_i absent
    refine List.pairwise_append.mpr ⟨sorted, List.pairwise_singleton _ _, fun y member z new => ?_⟩
    rw [List.mem_singleton.mp new]
    exact (last y member).resolve_left fun same => absent (same ▸ member)

/-- A list in order without its repetitions. -/
theorem pairwise_ofList {R : α → α → Prop} {xs : List α}
    (sorted : xs.Pairwise fun x y => x = y ∨ R x y) : (ofList xs).toList.Pairwise R := by
  have general (s : OrderedSet α) (start : s.toList.Pairwise R) (later : ∀ x ∈ s, ∀ y ∈ xs, x = y ∨ R x y) :
      (s.insertAll xs).toList.Pairwise R := by
    induction xs generalizing s with
    | nil => exact start
    | cons x xs ih =>
      obtain ⟨first, rest⟩ := List.pairwise_cons.mp sorted
      refine ih rest (s.insert x) ?_ ?_
      · exact pairwise_insert start fun y member => later y member x List.mem_cons_self
      · intro y member z after
        rcases mem_insert.mp member with before | rfl
        · exact later y before z (List.mem_cons_of_mem _ after)
        · exact first z after
  exact general ∅ .nil (by simp)

/-- What is new comes after the rest, in the order in which it was put in first. -/
theorem toList_insertAll (s : OrderedSet α) (xs : List α) :
    (s.insertAll xs).toList = s.toList ++ (xs.filter (· ∉ s)).eraseDups := by
  induction xs generalizing s with
  | nil => simp [insertAll]
  | cons x xs ih =>
    refine (ih (s.insert x)).trans ?_
    by_cases known : x ∈ s
    · have same : s.insert x = s := ext_toList (by rw [toList_insert, if_pos known])
      rw [same, List.filter_cons_of_neg (by simpa using known)]
    · have others : xs.filter (· ∉ s.insert x) = (xs.filter (· ∉ s)).filter fun y => !y == x := by
        simp only [List.filter_filter, mem_insert, not_or, Bool.decide_and, Bool.and_comm, decide_not, beq_eq_decide]
      rw [toList_insert, if_neg known, others, List.filter_cons_of_pos (by simpa using known), List.eraseDups_cons,
        List.append_assoc, List.singleton_append]

theorem toList_ofList (xs : List α) : (ofList xs).toList = xs.eraseDups := by
  have all := toList_insertAll ∅ xs
  simp only [toList_empty, not_mem_empty, not_false_eq_true, decide_true, List.filter_true, List.nil_append] at all
  exact all

theorem filter_insert (p : α → Bool) (s : OrderedSet α) (x : α) :
    (s.insert x).filter p = if p x then (s.filter p).insert x else s.filter p := by
  apply ext_toList
  rw [toList_filter, toList_insert]
  by_cases kept : p x <;> by_cases here : x ∈ s <;>
    simp [kept, here, toList_insert, mem_filter, List.filter_append]

/-- What is left of what was put in. -/
theorem filter_insertAll (p : α → Bool) (s : OrderedSet α) (xs : List α) :
    (s.insertAll xs).filter p = (s.filter p).insertAll (xs.filter p) := by
  induction xs generalizing s with
  | nil => rfl
  | cons x xs ih =>
    refine (ih (s.insert x)).trans ?_
    rw [filter_insert, List.filter_cons]
    split <;> rfl

section Image

variable {f : α → β} {s : OrderedSet α}

/-- The images of the members under a function that separates them, in the same order. -/
def image (f : α → β) (injective : Function.Injective f) (s : OrderedSet α) : OrderedSet β :=
  ⟨s.toList.map f, s.nodup.map injective⟩

omit [DecidableEq α] [DecidableEq β] in
@[simp] theorem toList_image (injective : Function.Injective f) :
    (s.image f injective).toList = s.toList.map f := rfl

theorem image_insert (injective : Function.Injective f) (x : α) :
    (s.insert x).image f injective = (s.image f injective).insert (f x) := by
  have same : f x ∈ s.image f injective ↔ x ∈ s := by simp [mem_def, injective.eq_iff]
  apply ext_toList
  rw [toList_image, toList_insert, toList_insert]
  simp only [same]
  split <;> simp

theorem image_insertAll (injective : Function.Injective f) (xs : List α) :
    (s.insertAll xs).image f injective = (s.image f injective).insertAll (xs.map f) := by
  induction xs generalizing s with
  | nil => rfl
  | cons x xs ih => exact (ih (s := s.insert x)).trans (by rw [image_insert]; rfl)

theorem image_ofList (injective : Function.Injective f) (xs : List α) :
    (ofList xs).image f injective = ofList (xs.map f) := image_insertAll injective xs

theorem image_erase (injective : Function.Injective f) (x : α) :
    (s.erase x).image f injective = (s.image f injective).erase (f x) :=
  ext_toList (List.map_erase injective s.toList)

end Image

/-- The sets have related elements in the same order. -/
def Rel (R : α → β → Prop) (s : OrderedSet α) (t : OrderedSet β) : Prop :=
  List.Forall₂ R s.toList t.toList

omit [DecidableEq α] [DecidableEq β] in
theorem isEmpty_of_rel {s : OrderedSet α} {t : OrderedSet β} (sets : Rel R s t) : t.isEmpty = s.isEmpty := by
  unfold isEmpty
  unfold Rel at sets
  generalize s.toList = xs at sets ⊢
  generalize t.toList = ys at sets ⊢
  cases sets <;> rfl

theorem rel_insert (unique : Relator.BiUnique R) {s : OrderedSet α} {t : OrderedSet β} (sets : Rel R s t)
    {x : α} {y : β} (same : R x y) : Rel R (s.insert x) (t.insert y) := by
  rw [Rel, toList_insert, toList_insert]
  by_cases member : x ∈ s
  · have again : y ∈ t := (List.rel_mem unique same sets).mp member
    simp only [member, again, ↓reduceIte]
    exact sets
  · have absent : y ∉ t := fun h => member ((List.rel_mem unique same sets).mpr h)
    simp only [member, absent, ↓reduceIte]
    exact List.rel_append sets (.cons same .nil)

theorem rel_insertAll (unique : Relator.BiUnique R) {s : OrderedSet α} {t : OrderedSet β} (sets : Rel R s t)
    {xs : List α} {ys : List β} (lists : List.Forall₂ R xs ys) :
    Rel R (s.insertAll xs) (t.insertAll ys) := by
  induction lists generalizing s t with
  | nil => exact sets
  | cons same _ ih => exact ih (rel_insert unique sets same)

theorem rel_ofList (unique : Relator.BiUnique R) {xs : List α} {ys : List β}
    (lists : List.Forall₂ R xs ys) : Rel R (ofList xs) (ofList ys) := by
  have empty : Rel R (∅ : OrderedSet α) (∅ : OrderedSet β) := .nil
  exact rel_insertAll unique empty lists

end OrderedSet

namespace OrderedMap

theorem find?_eq_some_iff [DecidableEq κ] (m : OrderedMap κ α) {key : κ} {value : α} :
    m.find? key = some value ↔ (key, value) ∈ m.entries := by
  simp only [find?, Option.map_eq_some_iff]
  constructor
  · rintro ⟨entry, met, rfl⟩
    obtain ⟨member, rfl⟩ := (find?_key_eq_some_iff m.nodup).mp met
    exact member
  · intro member
    exact ⟨(key, value), (find?_key_eq_some_iff m.nodup).mpr ⟨member, rfl⟩, rfl⟩

theorem mem_values_iff [DecidableEq κ] (m : OrderedMap κ α) (value : α) :
    value ∈ m.values ↔ ∃ key, m.find? key = some value := by
  simp only [values, find?, List.mem_map]
  constructor
  · rintro ⟨entry, member, rfl⟩
    exact ⟨entry.1, by rw [(find?_key_eq_some_iff m.nodup).mpr ⟨member, rfl⟩]; rfl⟩
  · rintro ⟨key, found⟩
    obtain ⟨entry, met, rfl⟩ := Option.map_eq_some_iff.mp found
    exact ⟨entry, List.mem_of_find?_eq_some met, rfl⟩

theorem entries_insert_of_fresh [DecidableEq κ] {m : OrderedMap κ γ} {key : κ} (fresh : m.find? key = none)
    (value : γ) : (m.insert key value).entries = m.entries ++ [(key, value)] := by
  obtain ⟨entries, nodup⟩ := m
  simp only [insert, find?, Option.map_eq_none_iff] at fresh ⊢
  clear nodup
  induction entries with
  | nil => rfl
  | cons entry rest ih =>
    rw [List.find?_eq_none, List.forall_mem_cons, ← List.find?_eq_none] at fresh
    rw [put, if_neg (by simpa using fresh.1), ih fresh.2]
    rfl

/-- A key that is bound again keeps its position. -/
theorem entries_insert [DecidableEq κ] {m : OrderedMap κ γ} {key : κ} {old : γ} (bound : m.find? key = some old)
    (value : γ) : (m.insert key value).entries =
      m.entries.map fun entry => if entry.1 = key then (key, value) else entry := by
  obtain ⟨entries, nodup⟩ := m
  simp only [insert, find?] at bound ⊢
  induction entries with
  | nil => contradiction
  | cons entry rest ih =>
    obtain ⟨fresh, distinct⟩ := List.nodup_cons.mp nodup
    by_cases here : entry.1 = key
    · have others : rest.map (fun entry => if entry.1 = key then (key, value) else entry) = rest := by
        refine (List.map_congr_left fun other member => if_neg fun same => fresh ?_).trans (List.map_id _)
        exact List.mem_map.mpr ⟨other, member, same.trans here.symm⟩
      simp only [put, here, ↓reduceIte, List.map_cons, others]
    · rw [List.find?_cons_of_neg (by simpa using here)] at bound
      simp only [put, here, ↓reduceIte, List.map_cons, ih distinct bound]

variable {S : γ → δ → Prop} {m : OrderedMap α γ} {n : OrderedMap β δ}

/-- The maps have related keys with related values, in the same order. -/
def Rel (R : α → β → Prop) (S : γ → δ → Prop) (m : OrderedMap α γ) (n : OrderedMap β δ) : Prop :=
  List.Forall₂ (fun entry again => R entry.1 again.1 ∧ S entry.2 again.2) m.entries n.entries

theorem rel_filter {p : α → γ → Bool} {q : β → δ → Bool} (maps : Rel R S m n)
    (agree : ∀ x y, R x y → ∀ value other, S value other → q y other = p x value) :
    Rel R S (m.filter p) (n.filter q) := by
  refine List.rel_filter (fun entry again same => ?_) maps
  simp only [agree entry.1 again.1 same.1 entry.2 again.2 same.2]

variable [DecidableEq α] [DecidableEq β]

theorem rel_insert (unique : Relator.BiUnique R) (maps : Rel R S m n) {x : α} {y : β} (same : R x y)
    {value : γ} {other : δ} (values : S value other) : Rel R S (m.insert x value) (n.insert y other) := by
  unfold Rel insert at *
  simp only
  generalize m.entries = xs at maps ⊢
  generalize n.entries = ys at maps ⊢
  induction maps with
  | nil => exact .cons ⟨same, values⟩ .nil
  | cons first rest ih =>
    have keys := eq_iff_of_biUnique unique first.1 same
    simp only [put, keys]
    split
    · exact .cons ⟨same, values⟩ rest
    · exact .cons first ih

end OrderedMap
end OutlineTypes
