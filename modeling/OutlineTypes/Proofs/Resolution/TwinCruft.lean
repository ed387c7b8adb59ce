import OutlineTypes.Proofs.Cruft
import OutlineTypes.Proofs.Resolution.TwinScenes

/-! Twin cruft and twin faults. In twin scenes the same things are condemned for the same reasons, and the
faults reported are about the same lines, in the same order. -/
namespace OutlineTypes

open OutlineTypes.Graph

variable {pairs : Pairing} {first second : Scene}

/-- The targets are twins. -/
inductive TwinTargets (pairs : Pairing) (first second : Scene) : CruftTarget → CruftTarget → Prop where
  | node {id again : NodeId} (same : TwinIds pairs first.graph second.graph id again) :
    TwinTargets pairs first second (.node id) (.node again)
  | edge {id again : EdgeId} (same : TwinEdgeIds pairs first.graph second.graph id again) :
    TwinTargets pairs first second (.edge id) (.edge again)
  | span {id again : SpanId} (same : pairs.SamePlace id again) :
    TwinTargets pairs first second (.span id) (.span again)

theorem TwinScenes.biUnique_twinTargets (scenes : TwinScenes pairs first second) :
    Relator.BiUnique (TwinTargets pairs first second) := by
  constructor
  · rintro _ _ _ (same | same | same) (again | again | again)
    · rw [scenes.paired.biUnique_twinIds.1 same again]
    · rw [scenes.paired.biUnique_twinEdgeIds.1 same again]
    · rw [scenes.paired.biUnique_samePlace.1 same again]
  · rintro _ _ _ (same | same | same) (again | again | again)
    · rw [scenes.paired.biUnique_twinIds.2 same again]
    · rw [scenes.paired.biUnique_twinEdgeIds.2 same again]
    · rw [scenes.paired.biUnique_samePlace.2 same again]

/-- The spans behind twin targets stand in the same places in the same order. -/
theorem TwinScenes.spansBehind (scenes : TwinScenes pairs first second) {target again : CruftTarget}
    (same : TwinTargets pairs first second target again) :
    List.Forall₂ pairs.SamePlace (Cruft.spansBehind first.graph target)
      (Cruft.spansBehind second.graph again) := by
  cases same with
  | node same =>
    obtain ⟨node, twin, found, present, twins⟩ := scenes.node? same
    simp only [Cruft.spansBehind, found, present, Option.toList_some, List.flatMap_singleton]
    exact scenes.order.declarations node twin twins
  | edge same =>
    obtain ⟨edge, twin, twins, rfl, rfl⟩ := same
    have found := scenes.paired.left.settled.edge?_eq_some_iff.mpr ⟨twins.here, rfl⟩
    have present := scenes.paired.right.settled.edge?_eq_some_iff.mpr ⟨twins.there, rfl⟩
    simp only [Cruft.spansBehind, found, present, Option.toList_some, List.flatMap_singleton]
    exact scenes.order.sources edge twin twins
  | span same => exact .cons same .nil

/-- The same things are cruft, for whatever reason. -/
def TwinCruft (pairs : Pairing) (first second : Scene) (cruft twin : Cruft) : Prop :=
  ∀ target again, TwinTargets pairs first second target again → twin.has again = cruft.has target

namespace TwinCruft

variable {cruft twin : Cruft}

theorem mark (scenes : TwinScenes pairs first second) (twins : TwinCruft pairs first second cruft twin)
    {target again : CruftTarget} (same : TwinTargets pairs first second target again)
    (kind other : FaultKind) :
    TwinCruft pairs first second (cruft.mark target kind) (twin.mark again other) := by
  intro place there pair
  have met := eq_iff_of_biUnique scenes.biUnique_twinTargets same pair
  rw [Cruft.has_mark, Cruft.has_mark, twins place there pair, decide_eq_decide.mpr met]

end TwinCruft

/-- The faults say the same of the same line. -/
structure TwinFaults (pairs : Pairing) (fault twin : Fault) : Prop where
  kind : twin.kind = fault.kind
  line : twin.line = fault.line
  message : twin.message = fault.message
  statement : pairs.SameLine fault.statement twin.statement
  span : Option.Rel pairs.SamePlace fault.span twin.span

/-- The faults of a log that are located in documents of the pairing. -/
def Graph.Pairing.faults (pairs : Pairing) (log : FaultLog) : List Fault :=
  log.faults.filter fun fault => pairs.Covers fault.statement.document

/-- A fault in another document. -/
theorem Graph.Pairing.faults_note_elsewhere (log : FaultLog) {fault : Option Fault}
    (elsewhere : ∀ noted, fault = some noted → ¬pairs.Covers noted.statement.document) :
    pairs.faults (log.note fault) = pairs.faults log := by
  cases fault with
  | none => rfl
  | some fault =>
    have apart := elsewhere fault rfl
    simp only [Graph.Pairing.faults, FaultLog.note, FaultLog.report]
    split
    · rfl
    · simp [apart]

/-- The logs have twin faults in the same order. -/
def TwinLogs (pairs : Pairing) (log twin : FaultLog) : Prop :=
  List.Forall₂ (TwinFaults pairs) (pairs.faults log) twin.faults

theorem option_eq_iff_of_biUnique {R : α → β → Prop} (unique : Relator.BiUnique R) {x y : Option α}
    {x' y' : Option β} (first : Option.Rel R x x') (second : Option.Rel R y y') : y' = x' ↔ y = x := by
  cases first <;> cases second
  · rename_i one _ _ two
    rw [Option.some.injEq, Option.some.injEq]
    exact ⟨fun same => unique.1 two (same ▸ one), fun same => unique.2 two (same ▸ one)⟩
  · simp
  · simp
  · simp

/-- Twin cruft with twin logs. -/
structure TwinStates (pairs : Pairing) (first second : Scene) (state twin : Cruft × FaultLog) : Prop where
  cruft : TwinCruft pairs first second state.1 twin.1
  log : TwinLogs pairs state.2 twin.2

namespace TwinScenes

variable (scenes : TwinScenes pairs first second)
include scenes

theorem place_eq_iff {fault twin other again : Fault} (twins : TwinFaults pairs fault twin)
    (others : TwinFaults pairs other again) : again.place = twin.place ↔ other.place = fault.place := by
  have lines := scenes.paired.biUnique_sameLine
  simp only [Fault.place, Prod.mk.injEq, twins.kind, others.kind]
  refine and_congr Iff.rfl (and_congr ?_ ?_)
  · exact eq_iff_of_biUnique lines others.statement twins.statement
  · exact option_eq_iff_of_biUnique scenes.paired.biUnique_samePlace twins.span others.span

theorem covers {id again : StatementId} (same : pairs.SameLine id again) : pairs.Covers id.document := by
  obtain ⟨pair, member, index, here, _⟩ := same
  exact ⟨pair, member, (scenes.paired.owner_left member here).symm⟩

theorem holds_eq {log twin : FaultLog} (logs : TwinLogs pairs log twin) {fault again : Fault}
    (twins : TwinFaults pairs fault again) : twin.holds again.place = log.holds fault.place := by
  have own : log.holds fault.place = (pairs.faults log).any (·.place = fault.place) := by
    rw [FaultLog.holds, Graph.Pairing.faults, List.any_filter]
    congr 1
    funext other
    by_cases here : other.place = fault.place
    · have statement : other.statement = fault.statement := congrArg (·.2.1) here
      simp [here, statement, scenes.covers twins.statement]
    · simp [here]
  unfold TwinLogs at logs
  rw [own]
  unfold FaultLog.holds
  generalize pairs.faults log = faults at logs ⊢
  generalize twin.faults = others at logs ⊢
  induction logs with
  | nil => rfl
  | cons same _ ih => rw [List.any_cons, List.any_cons, ih, decide_eq_decide.mpr (scenes.place_eq_iff twins same)]

theorem note {log twin : FaultLog} (logs : TwinLogs pairs log twin) {fault again : Option Fault}
    (twins : Option.Rel (TwinFaults pairs) fault again) : TwinLogs pairs (log.note fault) (twin.note again) := by
  cases twins with
  | none => exact logs
  | some twins =>
    have held := scenes.holds_eq logs twins
    unfold TwinLogs Graph.Pairing.faults at *
    simp only [FaultLog.note, FaultLog.report, held]
    split
    · exact logs
    · rw [List.filter_append, List.filter_singleton, decide_eq_true (scenes.covers twins.statement)]
      exact List.rel_append logs (.cons twins .nil)

/-- The same line, as each of the documents has it. -/
theorem exists_lines {id again : StatementId} (same : pairs.SameLine id again) :
    ∃ document twin index line other, first.documents.find? id.document = some document ∧
      second.documents.find? again.document = some twin ∧
      document.position? id = some index ∧ twin.position? again = some index ∧
      document.get? index = some line ∧ twin.get? index = some other ∧
      line.id = id ∧ other.id = again ∧ line.Like other := by
  obtain ⟨pair, member, index, here, there⟩ := same
  have left := scenes.paired.left.sound _ (List.mem_map_of_mem member)
  have right := scenes.paired.right.sound _ (List.mem_map_of_mem member)
  have owner := scenes.paired.owner_left member here
  have ownerToo := scenes.paired.owner_right member there
  obtain ⟨line, found, rfl⟩ := left.position?_eq_some_iff.mp here
  obtain ⟨other, foundToo, rfl⟩ := right.position?_eq_some_iff.mp there
  obtain ⟨again, present, like⟩ := (scenes.paired.like pair member).exists_first foundToo
  cases found.symm.trans present
  refine ⟨pair.1, pair.2, index, line, other, ?_, ?_, here, there, found, foundToo, rfl, rfl, like⟩
  · rw [owner, scenes.findLeft pair member (List.ne_nil_of_mem (List.mem_of_getElem? found))]
  · rw [ownerToo, scenes.findRight pair member (List.ne_nil_of_mem (List.mem_of_getElem? foundToo))]

theorem atStatement? (kind : FaultKind) {id again : StatementId} (same : pairs.SameLine id again) :
    Option.Rel (TwinFaults pairs)
      ((first.documents.find? id.document).bind (Fault.atStatement? kind · id))
      ((second.documents.find? again.document).bind (Fault.atStatement? kind · again)) := by
  obtain ⟨document, twin, index, line, other, found, foundToo, here, there, present, presentToo, _, _, like⟩ :=
    scenes.exists_lines same
  have subjects : (other.declarations.head?.map Span.subject).getD "" =
      (line.declarations.head?.map Span.subject).getD "" := by
    have alike := like.subjects .declared
    simp only [Statement.side] at alike
    rw [← List.head?_map, ← List.head?_map, alike]
  simp only [found, foundToo, Option.bind_some, Fault.atStatement?, here, there, present, presentToo,
    Option.bind_eq_bind, Option.pure_def, subjects]
  exact .some ⟨rfl, rfl, rfl, same, .none⟩

theorem atSpan? (kind : FaultKind) {id again : SpanId} (same : pairs.SamePlace id again) :
    Option.Rel (TwinFaults pairs)
      ((first.documents.find? id.statement.document).bind (Fault.atSpan? kind · id))
      ((second.documents.find? again.statement.document).bind (Fault.atSpan? kind · again)) := by
  obtain ⟨lines, side, position⟩ := Pairing.samePlace_iff.mp same
  obtain ⟨document, twin, index, line, other, found, foundToo, here, there, present, presentToo, name,
    nameToo, like⟩ := scenes.exists_lines lines
  have alike := congrArg (·[id.position]?) (like.subjects id.side)
  simp only [List.getElem?_map] at alike
  simp only [found, foundToo, Option.bind_some, Fault.atSpan?, here, there, present, presentToo,
    Option.bind_eq_bind, Option.pure_def, Statement.span?, name, nameToo, ↓reduceIte, side, position]
  generalize (line.side id.side)[id.position]? = span at alike ⊢
  generalize (other.side id.side)[id.position]? = twinSpan at alike ⊢
  cases span with
  | none =>
    rw [Option.map_none, Option.map_eq_none_iff] at alike
    rw [alike]
    exact .none
  | some span =>
    rw [Option.map_some, Option.map_eq_some_iff] at alike
    obtain ⟨spanToo, rfl, subject⟩ := alike
    refine .some ⟨rfl, rfl, ?_, ?_, .some same⟩
    · simp only [subject]
    · exact lines

/-- Marking a span and reporting it. -/
theorem addSpan (kind : FaultKind) {state twin : Cruft × FaultLog} (twins : TwinStates pairs first second state twin)
    {id again : SpanId} (same : pairs.SamePlace id again) :
    TwinStates pairs first second (Cruft.addSpan kind first.documents state id)
      (Cruft.addSpan kind second.documents twin again) := by
  have both := twins.cruft _ _ (.span same)
  by_cases marked : state.1.has (.span id)
  · simp only [Cruft.addSpan, Cruft.hasSpan, both, marked, ↓reduceIte]
    exact twins
  · simp only [Cruft.addSpan, Cruft.hasSpan, both, marked, Bool.false_eq_true, ↓reduceIte]
    exact ⟨twins.cruft.mark scenes (.span same) kind kind, scenes.note twins.log (scenes.atSpan? kind same)⟩

theorem addSpans (kind : FaultKind) {state twin : Cruft × FaultLog}
    (twins : TwinStates pairs first second state twin) {ids others : List SpanId}
    (same : List.Forall₂ pairs.SamePlace ids others) :
    TwinStates pairs first second (ids.foldl (Cruft.addSpan kind first.documents) state)
      (others.foldl (Cruft.addSpan kind second.documents) twin) := by
  induction same generalizing state twin with
  | nil => exact twins
  | cons same _ ih => exact ih (scenes.addSpan kind twins same)

theorem add (kind : FaultKind) {state twin : Cruft × FaultLog} (twins : TwinStates pairs first second state twin)
    {target again : CruftTarget} (same : TwinTargets pairs first second target again) :
    TwinStates pairs first second (Cruft.add target kind first.graph first.documents state)
      (Cruft.add again kind second.graph second.documents twin) := by
  have both := twins.cruft _ _ same
  have spans := scenes.spansBehind same
  by_cases marked : state.1.has target
  · simp only [Cruft.add, both, marked, ↓reduceIte]
    exact twins
  · simp only [Cruft.add, both, marked, Bool.false_eq_true, ↓reduceIte]
    apply scenes.addSpans kind _ spans
    cases same with
    | node same => exact ⟨twins.cruft.mark scenes (.node same) kind kind, twins.log⟩
    | edge same => exact ⟨twins.cruft.mark scenes (.edge same) kind kind, twins.log⟩
    | span same => exact twins

end TwinScenes

end OutlineTypes
