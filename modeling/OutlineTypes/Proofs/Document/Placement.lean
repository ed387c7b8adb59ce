import OutlineTypes.Document
import OutlineTypes.Proofs.Document.Nesting
import Mathlib.Data.List.Forall2

/-! Where declarations stand. What a line declares depends on the line and the lines around it alone, and
the path around a declaration is declared by the line around its line. -/
namespace OutlineTypes

theorem mem_choices {lists : List (List α)} {choice : List α} :
    choice ∈ choices lists ↔ List.Forall₂ (fun x list => x ∈ list) choice lists := by
  induction lists generalizing choice with
  | nil => simp [choices]
  | cons first lists ih =>
    simp only [choices, List.mem_flatMap, List.mem_map, ih, List.forall₂_cons_right_iff]
    constructor
    · rintro ⟨x, among, rest, chosen, rfl⟩
      exact ⟨x, rest, among, chosen, rfl⟩
    · rintro ⟨x, rest, among, chosen, rfl⟩
      exact ⟨x, among, rest, chosen, rfl⟩

namespace Spine

theorem names_path (id : DocumentId) (above : List Span) (tip : Span) :
    (Spine.mk id above tip).path.names = above.map Span.subject ++ [tip.subject] := by
  simp [path, vertebrae]

theorem path_nil (id : DocumentId) (tip : Span) :
    (Spine.mk id [] tip).path.container? = none := by
  simp [TypePath.container?, TypePath.isRoot, TypePath.length, names_path]

/-- One more vertebra above the tip is the tip of the path around it. -/
theorem path_concat (id : DocumentId) (above : List Span) (last tip : Span) :
    (Spine.mk id (above ++ [last]) tip).path.container? = some (Spine.mk id above last).path := by
  rw [← TypePath.container?_child _ tip.subject]
  congr 1
  refine TypePath.ext_names rfl ?_
  simp [names_path]

end Spine

namespace Document

/-- The placement of a line that stands inside the lines of `around`, nearest first. -/
def Stands (id : DocumentId) (around : List Statement) (placement : Placement) : Prop :=
  placement.span ∈ placement.statement.declarations ∧
    ∃ ribs, List.Forall₂ (fun span line => span ∈ line.declarations) ribs around ∧
      placement.path = (Spine.mk id ribs.reverse placement.span).path

/-- The statement of the placement has this annotation with this subject. -/
def Placement.Carries (placement : Placement) (subject : Name) (source : SpanId) : Prop :=
  ∃ gloss ∈ placement.statement.annotations, gloss.subject = subject ∧ gloss.id = source

variable {document : Document}

theorem map_declarationsAt_ancestors (index : Nat) :
    (document.ancestors index).map document.declarationsAt =
      (Outline.chain document.statements index).map Statement.declarations := by
  let declared (line : Option Statement) : List Span := line.elim [] Statement.declarations
  have positions : (document.ancestors index).map document.declarationsAt =
      ((Outline.ancestors document.statements index).map fun i => document.statements[i]?).map
        declared := by
    rw [List.map_map]
    refine List.map_congr_left fun i _ => ?_
    simp only [Function.comp, declared, declarationsAt, get?]
    cases document.statements[i]? <;> rfl
  rw [positions, Outline.map_get_ancestors, List.map_map]
  rfl

theorem mem_placements_iff_factor {index : Nat} {placement : Placement} :
    placement ∈ document.placements index ↔ document.get? index = some placement.statement ∧
      placement.statement.noop = false ∧ placement.span ∈ placement.statement.declarations ∧
      ∃ spine ∈ document.factor index placement.span, spine.path = placement.path := by
  unfold placements
  cases found : document.get? index with
  | none => simp
  | some line =>
    by_cases noop : line.noop = true
    · simp only [noop, ↓reduceIte, List.not_mem_nil, Option.some.injEq, false_iff]
      rintro ⟨rfl, takesPart, _⟩
      simp [noop] at takesPart
    · simp only [noop, Bool.false_eq_true, ↓reduceIte, List.mem_flatMap, List.mem_map,
        Option.some.injEq]
      constructor
      · rintro ⟨span, declared, spine, among, rfl⟩
        exact ⟨rfl, by simpa using noop, declared, spine, among, rfl⟩
      · rintro ⟨rfl, _, declared, spine, among, path⟩
        exact ⟨placement.span, declared, spine, among, by rw [path]⟩

theorem mem_placements_iff {index : Nat} {placement : Placement} :
    placement ∈ document.placements index ↔
      document.get? index = some placement.statement ∧ placement.statement.noop = false ∧
        Stands document.id (Outline.chain document.statements index) placement := by
  have around (ribs : List Span) :
      ribs.reverse ∈ choices ((document.ancestors index).reverse.map document.declarationsAt) ↔
        List.Forall₂ (fun span line => span ∈ line.declarations) ribs
          (Outline.chain document.statements index) := by
    rw [mem_choices, List.map_reverse, List.forall₂_reverse_iff, map_declarationsAt_ancestors,
      List.forall₂_map_right_iff]
  rw [mem_placements_iff_factor]
  refine and_congr_right fun _ => and_congr_right fun _ => and_congr_right fun _ => ?_
  simp only [factor, List.mem_map]
  constructor
  · rintro ⟨_, ⟨above, chosen, rfl⟩, path⟩
    refine ⟨above.reverse, ?_, by rw [List.reverse_reverse, path]⟩
    rw [← around, List.reverse_reverse]
    exact chosen
  · rintro ⟨ribs, chosen, path⟩
    exact ⟨_, ⟨ribs.reverse, (around ribs).mpr chosen, rfl⟩, path.symm⟩

theorem document_of_mem_placements {index : Nat} {placement : Placement}
    (member : placement ∈ document.placements index) : placement.path.document = document.id := by
  obtain ⟨_, _, _, ribs, _, path⟩ := mem_placements_iff.mp member
  rw [path]
  rfl

theorem exists_placement_iff_located {region : List Nat} {inside : List Statement → Prop}
    (regional : ∀ index, index < document.length →
      (index ∈ region ↔ inside (Outline.chain document.statements index)))
    {placement : Placement} :
    (∃ index, index ∉ region ∧ placement ∈ document.placements index) ↔
      ∃ around, ¬inside around ∧ Outline.Located document.statements placement.statement around ∧
        Stands document.id around placement := by
  constructor
  · rintro ⟨index, outside, member⟩
    obtain ⟨found, noop, stands⟩ := mem_placements_iff.mp member
    have bound : index < document.length := (List.getElem?_eq_some_iff.mp found).1
    refine ⟨_, fun h => outside ((regional index bound).mpr h), ?_, stands⟩
    exact Outline.located_iff_chain.mpr ⟨index, found, noop, rfl⟩
  · rintro ⟨around, outside, located, stands⟩
    obtain ⟨index, found, noop, rfl⟩ := Outline.located_iff_chain.mp located
    have bound : index < document.length := (List.getElem?_eq_some_iff.mp found).1
    exact ⟨index, fun h => outside ((regional index bound).mp h),
      mem_placements_iff.mpr ⟨found, noop, stands⟩⟩

/-- The path around a declaration is a path of the line around its line. -/
theorem exists_placement_of_container? {index : Nat} {placement : Placement} {outer : TypePath}
    (member : placement ∈ document.placements index) (inside : placement.path.container? = some outer) :
    ∃ parent, document.parent? index = some parent ∧
      ∃ around ∈ document.placements parent, around.path = outer := by
  obtain ⟨found, noop, declared, ribs, chosen, path⟩ := mem_placements_iff.mp member
  rw [path] at inside
  cases chain : Outline.chain document.statements index with
  | nil =>
    rw [chain, List.forall₂_nil_right_iff] at chosen
    rw [chosen, List.reverse_nil, Spine.path_nil] at inside
    contradiction
  | cons line rest =>
    rw [chain, List.forall₂_cons_right_iff] at chosen
    obtain ⟨rib, ribs, declaredAround, chosen, rfl⟩ := chosen
    rw [List.reverse_cons, Spine.path_concat, Option.some.injEq] at inside
    obtain ⟨parent, above, here, rfl⟩ := Outline.exists_parent_of_chain chain
    have takesPart : line.noop = false := (Outline.noop_of_mem_chain (chain ▸ List.mem_cons_self)).2
    exact ⟨parent, above, ⟨line, rib, outer⟩,
      mem_placements_iff.mpr ⟨here, takesPart, declaredAround, ribs, chosen, inside.symm⟩, rfl⟩

end Document
end OutlineTypes
