import OutlineTypes.Graph
import OutlineTypes.Proofs.Document.Content
import OutlineTypes.Proofs.Ordered

/-! The order of a document. Including a region goes through the declarations of each path, and through the
annotations of each node, in the order in which they stand in the document. -/
namespace OutlineTypes

namespace Document

/-- The one span stands in front of the other: on an earlier line, or further left on its side of one
line. -/
def isBefore (document : Document) (first second : SpanId) : Bool :=
  match document.position? first.statement, document.position? second.statement with
  | some here, some there => here < there || here = there && first.position < second.position
  | _, _ => false

variable {document : Document}

theorem isBefore_iff {first second : SpanId} : document.isBefore first second ↔
    ∃ here there, document.position? first.statement = some here ∧
      document.position? second.statement = some there ∧
      (here < there ∨ here = there ∧ first.position < second.position) := by
  unfold isBefore
  cases document.position? first.statement <;> cases document.position? second.statement <;> simp

theorem not_isBefore_self (span : SpanId) : ¬document.isBefore span span := by
  rw [isBefore_iff]
  rintro ⟨here, there, found, again, order⟩
  cases found.symm.trans again
  omega

theorem not_isBefore_of_isBefore {first second : SpanId} (before : document.isBefore first second) :
    ¬document.isBefore second first := by
  rw [isBefore_iff] at before ⊢
  rintro ⟨here, there, found, foundToo, order⟩
  obtain ⟨start, stop, again, againToo, orderToo⟩ := before
  cases found.symm.trans againToo
  cases foundToo.symm.trans again
  omega

section Lines

/-- Lines in order of depth, each depth in order of position. -/
theorem pairwise_byDepth {region : List Nat} (sorted : region.Pairwise (· < ·)) :
    (document.byDepth region).Pairwise fun i j => document.depth i = document.depth j → i < j := by
  have placed : ((region.filter fun index => (document.get? index).any fun line => !line.noop).map fun index =>
      (document.depth index, index)).Pairwise fun a b => a.2 < b.2 := by
    rw [List.pairwise_map]
    exact sorted.filter _
  have stable := pairwise_stableSort_of_pairwise (fun a b : Nat × Nat => a.1 ≤ b.1)
    (fun a b => by simpa using Nat.le_total a.1 b.1)
    (fun a b c first second => by simp only [decide_eq_true_eq] at *; omega) placed
  unfold byDepth
  rw [List.pairwise_map]
  refine stable.imp_of_mem fun {a b} here there order same => order.2 ?_
  have depth {place : Nat × Nat} (member : place ∈ stableSort (fun a b => decide (a.1 ≤ b.1)) ((region.filter fun index =>
      (document.get? index).any fun line => !line.noop).map fun index => (document.depth index, index))) :
      place.1 = document.depth place.2 := by
    rw [mem_stableSort] at member
    obtain ⟨index, _, rfl⟩ := List.mem_map.mp member
    rfl
  rw [depth here, depth there]
  simp [same]

theorem length_of_mem_placements {index : Nat} {placement : Placement}
    (member : placement ∈ document.placements index) :
    placement.path.length = document.depth index + 1 := by
  obtain ⟨_, _, _, ribs, chosen, path⟩ := mem_placements_iff.mp member
  rw [path, TypePath.length, Spine.names_path, depth, ancestors, Outline.length_ancestors, ← chosen.length_eq]
  simp

/-- Within a line the spans on one side stand in order. -/
theorem Sound.pairwise_side (sound : document.Sound) {index : Nat} {line : Statement}
    (found : document.get? index = some line) (side : Side) :
    (line.side side).Pairwise fun first second => document.isBefore first.id second.id := by
  have member := List.mem_of_getElem? found
  have here := sound.position?_eq_some_iff.mpr ⟨line, found, rfl⟩
  have ids : ((line.side side).map Span.id).Pairwise fun first second => document.isBefore first second := by
    rw [sound.ids_side member, List.pairwise_map]
    refine List.pairwise_lt_range.imp fun less => ?_
    exact isBefore_iff.mpr ⟨index, index, here, here, .inr ⟨rfl, less⟩⟩
  exact List.pairwise_map.mp ids

/-- The declarations of one path are placed in order. -/
theorem Sound.pairwise_placements (sound : document.Sound) {region : List Nat} (sorted : region.Pairwise (· < ·)) :
    ((document.byDepth region).flatMap document.placements).Pairwise fun first second =>
      first.path = second.path →
        first.span.id = second.span.id ∨ document.isBefore first.span.id second.span.id := by
  rw [List.pairwise_flatMap]
  constructor
  · intro index _
    unfold placements
    cases found : document.get? index with
    | none => exact .nil
    | some line =>
      simp only
      split
      · exact .nil
      · rw [List.pairwise_flatMap]
        refine ⟨fun span _ => ?_, (sound.pairwise_side found .declared).imp fun before one first two second _ => .inr ?_⟩
        · rw [List.pairwise_map]
          exact List.pairwise_of_forall fun _ _ _ => .inl rfl
        · obtain ⟨_, _, rfl⟩ := List.mem_map.mp first
          obtain ⟨_, _, rfl⟩ := List.mem_map.mp second
          exact before
  · refine (pairwise_byDepth sorted).imp fun {i j} order first one second two same => .inr ?_
    have depth : document.depth i = document.depth j := by
      have here := length_of_mem_placements one
      have there := length_of_mem_placements two
      rw [same] at here
      omega
    obtain ⟨found, _, declared, _⟩ := mem_placements_iff.mp one
    obtain ⟨foundToo, _, declaredToo, _⟩ := mem_placements_iff.mp two
    have owner := sound.statement_of_declared (List.mem_of_getElem? found) declared
    have ownerToo := sound.statement_of_declared (List.mem_of_getElem? foundToo) declaredToo
    refine isBefore_iff.mpr ⟨i, j, ?_, ?_, .inl (order depth)⟩
    · exact sound.position?_eq_some_iff.mpr ⟨_, found, owner.symm⟩
    · exact sound.position?_eq_some_iff.mpr ⟨_, foundToo, ownerToo.symm⟩

/-- The annotations of declarations in order are in order. -/
theorem Sound.pairwise_annotationsOf (sound : document.Sound) {declarations : List SpanId}
    (sorted : declarations.Pairwise fun first second => document.isBefore first second) :
    (document.annotationsOf declarations).Pairwise fun first second => document.isBefore first.id second.id := by
  have statements : (OrderedSet.ofList (declarations.map SpanId.statement)).toList.Pairwise fun first second =>
      ∃ here there, document.position? first = some here ∧ document.position? second = some there ∧
        here < there := by
    apply OrderedSet.pairwise_ofList
    rw [List.pairwise_map]
    refine sorted.imp fun {first second} before => ?_
    obtain ⟨here, there, found, foundToo, less | ⟨rfl, _⟩⟩ := isBefore_iff.mp before
    · exact .inr ⟨here, there, found, foundToo, less⟩
    · exact .inl (sound.eq_of_position? found foundToo)
  unfold annotationsOf
  rw [List.pairwise_flatMap]
  constructor
  · intro id _
    cases found : document.statement? id with
    | none => exact .nil
    | some line =>
      obtain ⟨member, rfl⟩ := sound.get?_of_statement?.mp found
      obtain ⟨index, present⟩ := List.mem_iff_getElem?.mp member
      exact sound.pairwise_side present .annotated
  · refine statements.imp fun {first second} order one here two there => ?_
    obtain ⟨i, j, found, foundToo, less⟩ := order
    have statement {id : StatementId} {line : Statement} {gloss : Span}
        (present : document.statement? id = some line) (among : gloss ∈ line.annotations) :
        gloss.id.statement = id := by
      obtain ⟨member, rfl⟩ := sound.get?_of_statement?.mp present
      exact sound.statement_of_annotated member among
    split at here
    · rename_i line present
      split at there
      · rename_i other presentToo
        rw [isBefore_iff, statement present here, statement presentToo there]
        exact ⟨i, j, found, foundToo, .inl less⟩
      · contradiction
    · contradiction

end Lines

end Document
end OutlineTypes
