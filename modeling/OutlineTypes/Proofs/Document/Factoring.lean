import OutlineTypes.Proofs.Document.Placement
import Mathlib.Algebra.BigOperators.Ring.List
import Mathlib.Algebra.Ring.Nat

/-! Factoring. A declaration has a spine for each choice of one declaration in every line around it, in the order in
which the choices are counted up, with the outermost line as the highest digit. The paths around the paths of a line
are the paths of the line around it. -/
namespace OutlineTypes

section Choices

variable {lists : List (List α)}

theorem length_choices (lists : List (List α)) : (choices lists).length = (lists.map List.length).prod := by
  induction lists with
  | nil => rfl
  | cons first rest ih =>
    have each : first.map (fun x => ((choices rest).map (x :: ·)).length) =
        List.replicate first.length (choices rest).length := by
      simp [List.map_const']
    rw [choices, List.length_flatMap, each, List.sum_replicate_nat, ih, List.map_cons, List.prod_cons]

theorem choices_map (f : α → β) (lists : List (List α)) :
    choices (lists.map (List.map f)) = (choices lists).map (List.map f) := by
  induction lists with
  | nil => rfl
  | cons first rest ih =>
    simp only [List.map_cons, choices, ih, List.flatMap_map, List.map_flatMap, List.map_map, Function.comp_def]

/-- One more list at the end is one more element at the end of a choice. -/
theorem mem_choices_concat {last : List α} {choice : List α} :
    choice ∈ choices (lists ++ [last]) ↔ ∃ above ∈ choices lists, ∃ x ∈ last, choice = above ++ [x] := by
  have turned : choice ∈ choices (lists ++ [last]) ↔
      List.Forall₂ (fun x list => x ∈ list) choice.reverse (last :: lists.reverse) := by
    rw [mem_choices, ← List.forall₂_reverse_iff, List.reverse_append]
    rfl
  rw [turned, List.forall₂_cons_right_iff]
  constructor
  · rintro ⟨x, ribs, among, chosen, reversed⟩
    refine ⟨ribs.reverse, ?_, x, among, by rw [← List.reverse_cons, ← reversed, List.reverse_reverse]⟩
    rw [mem_choices, ← List.forall₂_reverse_iff, List.reverse_reverse]
    exact chosen
  · rintro ⟨above, chosen, x, among, rfl⟩
    rw [mem_choices, ← List.forall₂_reverse_iff] at chosen
    exact ⟨x, above.reverse, among, chosen, by simp⟩

/-- Choices from lists that are numbered upward are counted up. -/
theorem pairwise_choices {numbered : List (List (α × Nat))}
    (upward : ∀ list ∈ numbered, list.Pairwise fun x y => x.2 < y.2) :
    (choices numbered).Pairwise fun choice other => choice.map Prod.snd < other.map Prod.snd := by
  induction numbered with
  | nil => exact List.pairwise_singleton _ _
  | cons first rest ih =>
    rw [List.forall_mem_cons] at upward
    rw [choices, List.pairwise_flatMap]
    constructor
    · intro x _
      rw [List.pairwise_map]
      exact (ih upward.2).imp fun less => List.Lex.cons less
    · refine upward.1.imp fun {x y} less choice left other right => ?_
      obtain ⟨_, _, rfl⟩ := List.mem_map.mp left
      obtain ⟨_, _, rfl⟩ := List.mem_map.mp right
      exact List.Lex.rel less

end Choices

namespace Document

variable {document : Document} {index parent : Nat} {span : Span}

/-- What the lines around a line declare, outermost first. -/
def declaredAround (document : Document) (index : Nat) : List (List Span) :=
  (document.ancestors index).reverse.map document.declarationsAt

theorem mem_factor_iff {spine : Spine} : spine ∈ document.factor index span ↔
    ∃ above ∈ choices (document.declaredAround index), spine = ⟨document.id, above, span⟩ := by
  simp only [factor, declaredAround, List.mem_map, eq_comm]

theorem declaredAround_of_parent? (inside : document.parent? index = some parent) :
    document.declaredAround index = document.declaredAround parent ++ [document.declarationsAt parent] := by
  have around : document.ancestors index = parent :: document.ancestors parent := Outline.ancestors_eq_cons inside
  rw [declaredAround, around, List.reverse_cons, List.map_append]
  rfl

/-- The spines of a declaration, in order, with the paths of them. -/
structure Factored (document : Document) (index : Nat) (span : Span) (spines : List Spine) : Prop where
  /-- Each spine comes from a choice of numbered declarations, and these are all choices there are. -/
  product : ∃ picks : List (List (Span × Nat)),
    spines = picks.map (fun pick => ⟨document.id, pick.map Prod.fst, span⟩) ∧
      (picks.map (List.map Prod.snd)).Pairwise (· < ·) ∧
      ∀ pick, pick ∈ picks ↔ List.Forall₂ (fun (entry : Span × Nat) declared => declared[entry.2]? = some entry.1) pick
        (document.declaredAround index)
  tip : ∀ spine ∈ spines, spine.vertebrae.getLast? = some span
  count : spines.length = ((document.ancestors index).map fun line => (document.declarationsAt line).length).prod
  none : spines = [] ↔ ∃ line ∈ document.ancestors index, document.declarationsAt line = []
  depth : ∀ spine ∈ spines, spine.path.length = document.depth index + 1
  /-- The paths around are those of the line around. -/
  containers : ∀ parent, document.parent? index = some parent → ∀ outer,
    (∃ spine ∈ spines, spine.path.container? = some outer) ↔
      ∃ around ∈ document.declarationsAt parent, ∃ spine ∈ document.factor parent around, spine.path = outer

theorem length_of_mem_choices {above : List Span} (chosen : above ∈ choices (document.declaredAround index)) :
    above.length = document.depth index := by
  rw [(mem_choices.mp chosen).length_eq, declaredAround, List.length_map, List.length_reverse, depth]

theorem factor_product (document : Document) (index : Nat) (span : Span) : ∃ picks : List (List (Span × Nat)),
    document.factor index span = picks.map (fun pick => ⟨document.id, pick.map Prod.fst, span⟩) ∧
      (picks.map (List.map Prod.snd)).Pairwise (· < ·) ∧
      ∀ pick, pick ∈ picks ↔ List.Forall₂ (fun (entry : Span × Nat) declared => declared[entry.2]? = some entry.1) pick
        (document.declaredAround index) := by
  let numbered := (document.declaredAround index).map fun declared => declared.zipIdx
  have plain : numbered.map (List.map Prod.fst) = document.declaredAround index := by
    simp [numbered, Function.comp_def]
  refine ⟨choices numbered, ?_, ?_, fun pick => ?_⟩
  · rw [factor, ← declaredAround, ← plain, choices_map, List.map_map]
    rfl
  · rw [List.pairwise_map]
    apply pairwise_choices
    intro list member
    obtain ⟨declared, _, rfl⟩ := List.mem_map.mp member
    rw [← List.pairwise_map (f := Prod.snd) (R := (· < ·)), List.zipIdx_map_snd]
    exact List.pairwise_lt_range'
  · rw [mem_choices, List.forall₂_map_right_iff]
    simp only [List.mem_zipIdx_iff_getElem?]

theorem exists_container_iff (inside : document.parent? index = some parent) {outer : TypePath} :
    (∃ spine ∈ document.factor index span, spine.path.container? = some outer) ↔
      ∃ around ∈ document.declarationsAt parent, ∃ spine ∈ document.factor parent around, spine.path = outer := by
  simp only [mem_factor_iff, declaredAround_of_parent? inside]
  constructor
  · rintro ⟨_, ⟨_, whole, rfl⟩, container⟩
    obtain ⟨above, chosen, around, declared, rfl⟩ := mem_choices_concat.mp whole
    rw [Spine.path_concat, Option.some.injEq] at container
    exact ⟨around, declared, _, ⟨above, chosen, rfl⟩, container⟩
  · rintro ⟨around, declared, _, ⟨above, chosen, rfl⟩, rfl⟩
    refine ⟨_, ⟨above ++ [around], ?_, rfl⟩, Spine.path_concat _ above around span⟩
    exact mem_choices_concat.mpr ⟨above, chosen, around, declared, rfl⟩

/-- A declaration is factored into the product of what the lines around it declare. -/
theorem factor_factored (document : Document) (index : Nat) (span : Span) :
    document.Factored index span (document.factor index span) := by
  have counted : (document.factor index span).length =
      ((document.ancestors index).map fun line => (document.declarationsAt line).length).prod := by
    rw [factor, List.length_map, length_choices, List.map_map, List.map_reverse, List.prod_reverse]
    rfl
  constructor
  · exact factor_product document index span
  · intro spine member
    obtain ⟨above, _, rfl⟩ := mem_factor_iff.mp member
    exact List.getLast?_concat
  · exact counted
  · rw [← List.length_eq_zero_iff, counted, List.prod_eq_zero_iff, List.mem_map]
    simp only [List.length_eq_zero_iff]
  · intro spine member
    obtain ⟨above, chosen, rfl⟩ := mem_factor_iff.mp member
    simp [TypePath.length, Spine.names_path, length_of_mem_choices chosen]
  · exact fun parent inside outer => exists_container_iff inside

/-- Two lines of two names each around a name give it four spines. -/
theorem fan_factored : ∃ document span, document = ofText ⟨0⟩ 4 "A, B\n\tC, D\n\t\tE" ∧
    document.declarationsAt 2 = [span] ∧ document.parent? 2 = some 1 ∧
    document.Factored 2 span (document.factor 2 span) ∧
    (document.factor 2 span).map (fun spine => spine.path.text) = ["A/C/E", "A/D/E", "B/C/E", "B/D/E"] ∧
    ∀ outer, (∃ spine ∈ document.factor 2 span, spine.path.container? = some outer) ↔
      ∃ around ∈ document.declarationsAt 1, ∃ spine ∈ document.factor 1 around, spine.path = outer := by
  let document := ofText ⟨0⟩ 4 "A, B\n\tC, D\n\t\tE"
  have evaluated : (document.declarationsAt 2).map (fun span =>
      (document.factor 2 span).map fun spine => spine.path.text) = [["A/C/E", "A/D/E", "B/C/E", "B/D/E"]] := by
    decide +kernel
  obtain ⟨span, declared, texts⟩ := List.map_eq_singleton_iff.mp evaluated
  have inside : document.parent? 2 = some 1 := by decide +kernel
  have factored := factor_factored document 2 span
  exact ⟨document, span, rfl, declared, inside, factored, texts, factored.containers 1 inside⟩

end Document
end OutlineTypes
