import OutlineTypes.Proofs.Document.Plan

/-! Alignment. The parents that a plan names stand for one region before the edits and one after them. What
stays is in both or in neither, what comes or goes is in the one region or the other, and what is outside
stands inside the same lines as before. -/
namespace OutlineTypes

open Outline

namespace Document

variable {document : Document} {edits : List Edit} {plan : EditPlan}

/-- The statements that contain the line at `index`, nearest first. -/
def around (document : Document) (index : Nat) : List (Option StatementId) :=
  (document.ancestors index).map fun outer => (document.get? outer).map Statement.id

/-- The regions `before` and `after` are what the parents stand for in `old` and in `new`, and they cover the
same part of both. -/
structure Aligned (old new : Document) (parents : List StatementId) (before after : List Nat) : Prop where
  oldRegion : old.region parents = .ok before
  newRegion : new.region parents = .ok after
  named : ∀ id ∈ parents, (old.position? id).isSome ∧ (new.position? id).isSome
  stays : ∀ i j line now, old.get? i = some line → new.get? j = some now → now.id = line.id →
    (i ∈ before ↔ j ∈ after)
  goes : ∀ i line, old.get? i = some line → line.noop = false → new.position? line.id = none → i ∈ before
  comes : ∀ j line, new.get? j = some line → line.noop = false → old.position? line.id = none → j ∈ after
  outside : ∀ i j line now, old.get? i = some line → new.get? j = some now → now.id = line.id →
    line.noop = false → i ∉ before → new.around j = old.around i

theorem around_eq_map_chain (document : Document) (index : Nat) :
    document.around index = (chain document.statements index).map fun line => some line.id := by
  have positions := congrArg (List.map (Option.map Statement.id)) (map_get_ancestors document.statements index)
  simpa [around, ancestors, get?, List.map_map, Function.comp_def] using positions

theorem position?_eq_none_iff {id : StatementId} :
    document.position? id = none ↔ ∀ line ∈ document.statements, line.id ≠ id := by
  simp [position?, List.findIdx?_eq_none_iff]

/-- A line outside a region named by some parents has no parent around it. -/
theorem not_regional_iff {parents : List StatementId} {around : List Statement} (some : parents ≠ []) :
    ¬Regional parents around ↔ ∀ outer ∈ around, outer.id ∉ parents := by
  simp [Regional, some]

theorem regional_chain_of_noop {parents : List StatementId} (some : parents ≠ []) {index : Nat}
    {line : Statement} (found : document.get? index = .some line) (noop : line.noop = true) :
    ¬Regional parents (chain document.statements index) := by
  rw [get?] at found
  simp [chain, found, noop, not_regional_iff some]

/-- A line that an edit keeps is the same line. -/
theorem Sound.plan_keeps_line (sound : document.Sound) (planned : (document.plan edits).1 = .ok plan)
    {line now : Statement} (before : line ∈ document.statements) (after : now ∈ plan.statements)
    (same : now.id = line.id) : now = line := by
  obtain ⟨seen, tracks⟩ := Draft.tracks_applyAll (Draft.tracks_ofDocument sound) edits
  unfold Document.plan at planned
  generalize (Draft.ofDocument document).applyAll edits = result at tracks planned
  obtain ⟨draft, _ | reason⟩ := result
  · cases planned
    exact eq_of_key_eq tracks.distinct (tracks.now now after) (tracks.before line before) same
  · contradiction

section Placing

variable {old new : Document} {parents : List StatementId} {i j : Nat} {line : Statement}

/-- The line at `j`, after the change, stands where the one at `i` stood if no parent is around that. -/
theorem chain_eq_of_agrees (sound : new.Sound) (agrees : Agrees (· ∈ parents) old.statements new.statements)
    (here : old.get? i = some line) (there : new.get? j = some line) (takesPart : line.noop = false)
    (clear : ∀ outer ∈ chain old.statements i, outer.id ∉ parents) :
    chain new.statements j = chain old.statements i := by
  have located : Located old.statements line (chain old.statements i) :=
    located_iff_chain.mpr ⟨i, here, takesPart, rfl⟩
  obtain ⟨index, found, _, same⟩ := located_iff_chain.mp ((agrees line _ clear).mp located)
  obtain rfl := sound.index_unique there found rfl
  exact same

/-- What has no place in `new` stood inside a parent. -/
theorem regional_of_absent (some : parents ≠ []) (agrees : Agrees (· ∈ parents) old.statements new.statements)
    (here : old.get? i = .some line) (takesPart : line.noop = false) (absent : new.position? line.id = none) :
    Regional parents (chain old.statements i) := by
  by_contra apart
  rw [not_regional_iff some] at apart
  have located : Located old.statements line (chain old.statements i) :=
    located_iff_chain.mpr ⟨i, here, takesPart, rfl⟩
  obtain ⟨index, found, _⟩ := located_iff_chain.mp ((agrees line _ apart).mp located)
  exact position?_eq_none_iff.mp absent line (List.mem_of_getElem? found) rfl

theorem regional_iff_of_agrees (some : parents ≠ []) (oldSound : old.Sound) (newSound : new.Sound)
    (agrees : Agrees (· ∈ parents) old.statements new.statements) (here : old.get? i = .some line)
    (there : new.get? j = .some line) :
    Regional parents (chain old.statements i) ↔ Regional parents (chain new.statements j) := by
  cases takesPart : line.noop with
  | true =>
    exact iff_of_false (regional_chain_of_noop some here takesPart) (regional_chain_of_noop some there takesPart)
  | false =>
    refine not_iff_not.mp ?_
    rw [not_regional_iff some, not_regional_iff some]
    constructor
    · intro clear
      rwa [chain_eq_of_agrees newSound agrees here there takesPart clear]
    · intro clear
      rwa [chain_eq_of_agrees oldSound agrees.symm there here takesPart clear]

end Placing

/-- A plan that names parents names a region of the document before its edits and one of the document after
them, and the two are aligned. -/
theorem plan_names_aligned_regions (sound : document.Sound) (planned : (document.plan edits).1 = .ok plan)
    (named : plan.parents ≠ []) : ∃ before after,
      Aligned document ((document.plan edits).2.replace plan.statements) plan.parents before after := by
  have keeps := @Sound.plan_keeps_line document edits plan sound planned
  have spec := (sound.plan_spec edits).2 plan planned
  generalize changedAs : (document.plan edits).2.replace plan.statements = changed at spec
  have lines : changed.statements = plan.statements := by rw [← changedAs, statements_replace]
  rw [← lines] at keeps
  have agrees := spec.agrees.resolve_left named
  obtain ⟨before, old, inOld⟩ := sound.region_succeeds spec.old
  obtain ⟨after, new, inNew⟩ := spec.sound.region_succeeds spec.new
  refine ⟨before, after, old, new, fun id among => ?_, ?_, ?_, ?_, ?_⟩
  · obtain ⟨line, member, rfl, _⟩ := spec.old id among
    obtain ⟨now, present, same, _⟩ := spec.new _ among
    simp only [Option.isSome_iff_ne_none, ne_eq, position?_eq_none_iff, not_forall, not_not]
    exact ⟨⟨line, member, rfl⟩, now, present, same⟩
  · intro i j line now here there same
    obtain rfl := keeps (List.mem_of_getElem? here) (List.mem_of_getElem? there) same
    rw [inOld i (List.getElem?_eq_some_iff.mp here).1, inNew j (List.getElem?_eq_some_iff.mp there).1]
    exact regional_iff_of_agrees named sound spec.sound agrees here there
  · intro i line here takesPart absent
    rw [inOld i (List.getElem?_eq_some_iff.mp here).1]
    exact regional_of_absent named agrees here takesPart absent
  · intro j line there takesPart absent
    rw [inNew j (List.getElem?_eq_some_iff.mp there).1]
    exact regional_of_absent named agrees.symm there takesPart absent
  · intro i j line now here there same takesPart apart
    obtain rfl := keeps (List.mem_of_getElem? here) (List.mem_of_getElem? there) same
    rw [inOld i (List.getElem?_eq_some_iff.mp here).1, not_regional_iff named] at apart
    rw [around_eq_map_chain, around_eq_map_chain,
      chain_eq_of_agrees spec.sound agrees here there takesPart apart]

/-- A level of nesting goes, and a line comes at the end of the level. -/
theorem lifted_line_aligned : ∃ plan, let document := ofText ⟨0⟩ 4 "A\n\tB\n\t\tC : A\nD"
    let changed := (document.plan [.delete 1 1, .insert 2 "\tE : D"]).2.replace plan.statements
    (document.plan [.delete 1 1, .insert 2 "\tE : D"]).1 = .ok plan ∧ plan.parents = [⟨⟨0⟩, 0⟩] ∧
      Aligned document changed plan.parents [1, 2] [1, 2] ∧ changed.text = "A\n\t\tC : A\n\tE : D\nD" := by
  let document := ofText ⟨0⟩ 4 "A\n\tB\n\t\tC : A\nD"
  let edits : List Edit := [.delete 1 1, .insert 2 "\tE : D"]
  have evaluated : ((document.plan edits).1.toOption.map fun plan =>
      let changed := (document.plan edits).2.replace plan.statements
      (plan.parents, document.region plan.parents, changed.region plan.parents, changed.text)) =
        some ([⟨⟨0⟩, 0⟩], .ok [1, 2], .ok [1, 2], "A\n\t\tC : A\n\tE : D\nD") := by
    decide +kernel
  cases planned : (document.plan edits).1 with
  | error reason => simp [planned, Except.toOption] at evaluated
  | ok plan =>
    simp only [planned, Except.toOption, Option.map_some, Option.some.injEq, Prod.mk.injEq] at evaluated
    obtain ⟨parents, old, new, text⟩ := evaluated
    obtain ⟨before, after, aligned⟩ := plan_names_aligned_regions (sound_ofText ⟨0⟩ 4 _) planned
      (by rw [parents]; simp)
    cases aligned.oldRegion.symm.trans old
    cases aligned.newRegion.symm.trans new
    exact ⟨plan, planned, parents, aligned, text⟩

end Document

end OutlineTypes
