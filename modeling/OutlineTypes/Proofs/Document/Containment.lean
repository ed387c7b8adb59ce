import OutlineTypes.Proofs.Document.Nesting
import Mathlib.Data.List.Range

/-! Containment. Looking up from every line and looking down from every line finds one tree. The lines around a line
are indented less and less, and what is nested in a line is a block of lines under it, so the blocks of two lines are
apart or one holds the other. -/
namespace OutlineTypes

namespace Outline

variable {lines : List Statement} {index outer inner : Nat}

section Upward

/-- The ancestors of an ancestor are what comes after it. -/
theorem ancestors_split (member : outer ∈ ancestors lines index) :
    ∃ front, ancestors lines index = front ++ outer :: ancestors lines outer := by
  induction index using Nat.strong_induction_on with
  | _ index ih =>
    cases found : ancestors lines index with
    | nil => simp [found] at member
    | cons parent rest =>
      have inside : parent? lines index = some parent := by rw [parent?, found, List.head?_cons]
      obtain rfl : rest = ancestors lines parent := (List.cons.inj (found.symm.trans (ancestors_eq_cons inside))).2
      rw [found] at member
      rcases List.mem_cons.mp member with rfl | further
      · exact ⟨[], rfl⟩
      · obtain ⟨front, split⟩ := ih parent (parent?_lt inside) further
        exact ⟨parent :: front, congrArg (parent :: ·) split⟩

theorem pairwise_ancestors (lines : List Statement) (index : Nat) :
    (index :: ancestors lines index).Pairwise (· > ·) := by
  induction index using Nat.strong_induction_on with
  | _ index ih =>
    apply List.pairwise_cons.mpr
    refine ⟨fun outer member => lt_of_mem_ancestors member, ?_⟩
    cases found : ancestors lines index with
    | nil => exact .nil
    | cons parent rest =>
      have inside : parent? lines index = some parent := by rw [parent?, found, List.head?_cons]
      rw [ancestors_eq_cons inside] at found
      rw [← found]
      exact ih parent (parent?_lt inside)

theorem ancestors_trans (first : inner ∈ ancestors lines index) (second : outer ∈ ancestors lines inner) :
    outer ∈ ancestors lines index := by
  obtain ⟨front, split⟩ := ancestors_split first
  rw [split]
  exact List.mem_append_right _ (List.mem_cons_of_mem _ second)

/-- Of two lines around a line the upper one is around the lower one. -/
theorem ancestors_linear (first : inner ∈ ancestors lines index) (second : outer ∈ ancestors lines index)
    (above : outer < inner) : outer ∈ ancestors lines inner := by
  obtain ⟨front, split⟩ := ancestors_split first
  have downward := (List.pairwise_cons.mp (pairwise_ancestors lines index)).2
  rw [split] at downward second
  rcases List.mem_append.mp second with nearer | further
  · have below : inner < outer := (List.pairwise_append.mp downward).2.2 outer nearer inner List.mem_cons_self
    omega
  · rcases List.mem_cons.mp further with rfl | beyond
    · omega
    · exact beyond

theorem indent_of_mem_enclosers {indent : Nat} {above : List Statement} :
    ∀ line ∈ enclosers indent above, line.indent < indent := by
  induction above generalizing indent with
  | nil => simp [enclosers]
  | cons line above ih =>
    intro other member
    unfold enclosers at member
    split at member
    · rename_i encloses
      have low : line.indent < indent := by simp_all
      rcases List.mem_cons.mp member with rfl | further
      · exact low
      · exact (ih other further).trans low
    · exact ih other member

/-- Each line around is indented less than those inside it. -/
theorem pairwise_enclosers (indent : Nat) (above : List Statement) :
    (enclosers indent above).Pairwise fun line outer => outer.indent < line.indent := by
  induction above generalizing indent with
  | nil => exact .nil
  | cons line above ih =>
    unfold enclosers
    split
    · exact List.pairwise_cons.mpr ⟨indent_of_mem_enclosers, ih line.indent⟩
    · exact ih indent

theorem pairwise_chain {line : Statement} (found : lines[index]? = some line) :
    (line :: chain lines index).Pairwise fun line outer => outer.indent < line.indent := by
  simp only [chain, found]
  split
  · exact List.pairwise_singleton _ _
  · exact List.pairwise_cons.mpr ⟨indent_of_mem_enclosers, pairwise_enclosers _ _⟩

end Upward

section Downward

/-- The line takes part in the hierarchy. -/
def counts (lines : List Statement) (index : Nat) : Bool := lines[index]?.any (!·.noop)

/-- A scan down goes over a block of lines and lists those that take part. -/
theorem exists_block (limit : Nat) {start : Nat} {rest : List Statement} (split : lines.drop start = rest) :
    ∃ count, (((rest.zipIdx start).takeWhile fun (other, _) => other.noop || limit < other.indent).filter
        fun (other, _) => !other.noop).map Prod.snd = (List.range' start count).filter (counts lines) := by
  induction rest generalizing start with
  | nil => exact ⟨0, rfl⟩
  | cons line rest ih =>
    rw [List.zipIdx_cons, List.takeWhile_cons]
    by_cases inside : (line.noop || decide (limit < line.indent)) = true
    · have here : lines[start]? = some line := by rw [← List.head?_drop, split, List.head?_cons]
      have below : lines.drop (start + 1) = rest := by
        rw [← List.drop_drop, split]
        rfl
      obtain ⟨count, block⟩ := ih below
      refine ⟨count + 1, ?_⟩
      rw [if_pos inside, List.range'_succ, List.filter_cons, List.filter_cons, ← block, counts, here, Option.any_some]
      by_cases noop : line.noop = true <;> simp [noop]
    · exact ⟨0, by simp [inside]⟩

/-- What is nested in a line is all that takes part in a block right below it. -/
theorem descendants_block (lines : List Statement) (index : Nat) :
    ∃ count, descendants lines index = (List.range' (index + 1) count).filter (counts lines) := by
  have below : lines.zipIdx.drop (index + 1) = (lines.drop (index + 1)).zipIdx (index + 1) := by
    apply List.ext_getElem?
    intro place
    simp [List.getElem?_drop, List.getElem?_zipIdx]
  unfold descendants
  split
  · exact ⟨0, rfl⟩
  · rw [below]
    exact exists_block _ rfl

theorem pairwise_descendants (lines : List Statement) (index : Nat) : (descendants lines index).Pairwise (· < ·) := by
  obtain ⟨count, block⟩ := descendants_block lines index
  rw [block]
  exact List.Pairwise.filter _ List.pairwise_lt_range'

/-- What is nested in two lines is nested in one of them, or nothing is nested in both. -/
theorem descendants_laminar (lower : ∀ line, lines[inner]? = some line → line.noop = false)
    (upper : ∀ line, lines[outer]? = some line → line.noop = false) (above : outer < inner) :
    descendants lines inner ⊆ descendants lines outer ∨
      List.Disjoint (descendants lines outer) (descendants lines inner) := by
  by_cases around : outer ∈ ancestors lines inner
  · left
    intro index member
    rw [mem_descendants_iff lower] at member
    exact (mem_descendants_iff upper).mpr (ancestors_trans member around)
  · right
    intro index first second
    rw [mem_descendants_iff upper] at first
    rw [mem_descendants_iff lower] at second
    exact around (ancestors_linear second first above)

end Downward

end Outline

namespace Document

variable {document : Document}

/-- The hierarchy of the lines of a document. -/
structure Nested (document : Document) : Prop where
  dual : ∀ outer line, document.get? outer = some line → line.noop = false →
    ∀ index, index ∈ document.descendants outer ↔ outer ∈ document.ancestors index
  upward : ∀ index, (index :: document.ancestors index).Pairwise (· > ·)
  /-- The lines around a line, with the line itself. -/
  outdented : ∀ index line, document.get? index = some line → ∃ around : List Statement,
    (document.ancestors index).map document.get? = around.map some ∧ (∀ outer ∈ around, outer.noop = false) ∧
      (line :: around).Pairwise fun inner outer => outer.indent < inner.indent
  outside : ∀ index line, document.get? index = some line → line.noop = true → document.ancestors index = []
  downward : ∀ index, (document.descendants index).Pairwise (· < ·)
  block : ∀ index, ∃ count, document.descendants index =
    (List.range' (index + 1) count).filter fun below => (document.get? below).any (!·.noop)
  laminar : ∀ index line other again, document.get? index = some line → line.noop = false →
    document.get? other = some again → again.noop = false →
      document.descendants index ⊆ document.descendants other ∨
        document.descendants other ⊆ document.descendants index ∨
        List.Disjoint (document.descendants index) (document.descendants other)

theorem noop_of_get? {index : Nat} {line : Statement} (found : document.get? index = some line)
    (takesPart : line.noop = false) : ∀ other, document.statements[index]? = some other → other.noop = false := by
  intro other there
  cases found.symm.trans there
  exact takesPart

theorem laminar {index other : Nat} {line again : Statement} (found : document.get? index = some line)
    (takesPart : line.noop = false) (there : document.get? other = some again) (takesPartToo : again.noop = false) :
    document.descendants index ⊆ document.descendants other ∨
      document.descendants other ⊆ document.descendants index ∨
      List.Disjoint (document.descendants index) (document.descendants other) := by
  have here := noop_of_get? found takesPart
  have beside := noop_of_get? there takesPartToo
  rcases Nat.lt_trichotomy index other with above | rfl | below
  · exact .inr (Outline.descendants_laminar beside here above)
  · exact .inl (List.Subset.refl _)
  · exact (Outline.descendants_laminar here beside below).imp_right fun apart =>
      .inr fun _ first second => apart second first

/-- Looking up and looking down find one hierarchy. -/
theorem hierarchy_nested (document : Document) : document.Nested where
  dual _ _ found takesPart _ := Outline.mem_descendants_iff (noop_of_get? found takesPart)
  upward := Outline.pairwise_ancestors document.statements
  outdented index _ found := ⟨_, Outline.map_get_ancestors document.statements index,
    fun _ member => (Outline.noop_of_mem_chain member).2, Outline.pairwise_chain found⟩
  outside index line found noop := by
    have here : document.statements[index]? = some line := found
    simp [ancestors, Outline.ancestors, here, noop]
  downward := Outline.pairwise_descendants document.statements
  block := Outline.descendants_block document.statements
  laminar _ _ _ _ := laminar

/-- A blank line is passed over both ways. -/
theorem blank_line_unnested : ∃ document line, document = ofText ⟨0⟩ 4 "A\n\tB\n\n\t\tC\n\tD\nE" ∧ document.Nested ∧
    document.get? 1 = some line ∧ line.noop = false ∧ document.ancestors 3 = [1, 0] ∧ document.ancestors 2 = [] ∧
    document.descendants 0 = [1, 3, 4] ∧ ∀ index, index ∈ document.descendants 1 ↔ 1 ∈ document.ancestors index := by
  let document := ofText ⟨0⟩ 4 "A\n\tB\n\n\t\tC\n\tD\nE"
  have nested := hierarchy_nested document
  obtain ⟨line, found, takesPart⟩ : ∃ line, document.get? 1 = some line ∧ line.noop = false := by
    have evaluated : (document.get? 1).map Statement.noop = some false := by decide +kernel
    exact Option.map_eq_some_iff.mp evaluated
  exact ⟨document, line, rfl, nested, found, takesPart, by decide +kernel, by decide +kernel, by decide +kernel,
    nested.dual 1 line found takesPart⟩

end Document
end OutlineTypes
