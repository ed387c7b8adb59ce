import OutlineTypes.Proofs.Faults
import OutlineTypes.Proofs.Resolution.Steps
import OutlineTypes.Proofs.Resolution.TwinSessions

/-! What is done in other documents. It leaves what the twin of a session holds as it was, whatever it does to the
rest of the session. -/
namespace OutlineTypes

open OutlineTypes.Graph

variable {pairs : Pairing} {first second : Scene}

section Marks

variable {target : CruftTarget}

theorem TwinScenes.span_elsewhere (scenes : TwinScenes pairs first second) {id : SpanId}
    (elsewhere : ¬pairs.Covers id.statement.document) (again : CruftTarget) :
    ¬TwinTargets pairs first second (.span id) again := by
  intro twins
  cases twins with
  | span same => exact elsewhere (scenes.covers (Pairing.samePlace_iff.mp same).1)

theorem TwinScenes.edge_elsewhere (scenes : TwinScenes pairs first second) {id : EdgeId}
    (elsewhere : id ∉ pairs.edges first.graph) (again : CruftTarget) :
    ¬TwinTargets pairs first second (.edge id) again := by
  intro twins
  cases twins with
  | edge same => exact elsewhere (scenes.mem_edges same)

theorem TwinCruft.mark_elsewhere {cruft twin : Cruft} (twins : TwinCruft pairs first second cruft twin)
    (elsewhere : ∀ again, ¬TwinTargets pairs first second target again) (kind : FaultKind) :
    TwinCruft pairs first second (cruft.mark target kind) twin := by
  intro place there same
  have apart : target ≠ place := by
    rintro rfl
    exact elsewhere there same
  rw [Cruft.has_mark, decide_eq_false apart, Bool.or_false, twins place there same]

namespace TwinStates

variable {state twin : Cruft × FaultLog}

theorem addSpan_elsewhere (scenes : TwinScenes pairs first second) (kind : FaultKind)
    (twins : TwinStates pairs first second state twin) {id : SpanId} (elsewhere : ¬pairs.Covers id.statement.document) :
    TwinStates pairs first second (Cruft.addSpan kind first.documents state id) twin := by
  unfold Cruft.addSpan
  simp only
  split
  · exact twins
  · refine ⟨twins.cruft.mark_elsewhere (scenes.span_elsewhere elsewhere) kind, ?_⟩
    unfold TwinLogs
    rw [Graph.Pairing.faults_note_elsewhere]
    · exact twins.log
    · intro fault located
      have statement : fault.statement = id.statement := congrArg (·.2.1) (Cruft.place_of_located located)
      rwa [statement]

theorem addSpans_elsewhere (scenes : TwinScenes pairs first second) (kind : FaultKind)
    (twins : TwinStates pairs first second state twin) {ids : List SpanId}
    (elsewhere : ∀ id ∈ ids, ¬pairs.Covers id.statement.document) :
    TwinStates pairs first second (ids.foldl (Cruft.addSpan kind first.documents) state) twin := by
  induction ids generalizing state with
  | nil => exact twins
  | cons id ids ih =>
    rw [List.forall_mem_cons] at elsewhere
    exact ih (twins.addSpan_elsewhere scenes kind elsewhere.1) elsewhere.2

theorem add_elsewhere (scenes : TwinScenes pairs first second) (kind : FaultKind)
    (twins : TwinStates pairs first second state twin) {edge : EdgeId} (elsewhere : edge ∉ pairs.edges first.graph) :
    TwinStates pairs first second (Cruft.add (.edge edge) kind first.graph first.documents state) twin := by
  have sources : ∀ id ∈ Cruft.spansBehind first.graph (.edge edge), ¬pairs.Covers id.statement.document := by
    intro id behind
    obtain ⟨found, present, member⟩ := List.mem_flatMap.mp behind
    obtain ⟨listed, rfl⟩ := scenes.paired.left.settled.edge?_eq_some_iff.mp (Option.mem_toList.mp present)
    exact scenes.apart.sources found listed elsewhere id member
  unfold Cruft.add
  simp only
  split
  · exact twins
  · have marked : TwinStates pairs first second (state.1.mark (.edge edge) kind, state.2) twin :=
      ⟨twins.cruft.mark_elsewhere (scenes.edge_elsewhere elsewhere) kind, twins.log⟩
    exact marked.addSpans_elsewhere scenes kind sources

end TwinStates

end Marks

namespace TwinHoldings

variable {session next twin : Session} {document : DocumentId}

theorem condemn_elsewhere (scenes : TwinScenes pairs first second)
    (twins : TwinHoldings pairs first second session twin) {edge : EdgeId} (elsewhere : edge ∉ pairs.edges first.graph) (kind : FaultKind) :
    TwinHoldings pairs first second (session.condemn first (.edge edge) kind) twin := by
  have states : TwinStates pairs first second (session.cruft, session.faults) (twin.cruft, twin.faults) :=
    ⟨twins.cruft, twins.faults⟩
  have added := states.add_elsewhere scenes kind elsewhere
  exact { twins with cruft := added.cruft, faults := added.log }

/-- Where the parallels of paired documents are the same, so are their numbers. -/
theorem of_parallels (twins : TwinHoldings pairs first second session twin)
    (numbers : ∀ id parallel, next.parallel? id = some parallel → parallel.id = id)
    (parallels : pairs.parallels next = pairs.parallels session) (cruft : next.cruft = session.cruft)
    (faults : next.faults = session.faults) (prepared : next.prepared = session.prepared) :
    TwinHoldings pairs first second next twin := by
  have ids : pairs.ids next = pairs.ids session := congrArg (List.map Parallel.id) parallels
  exact ⟨numbers, parallels ▸ ids ▸ twins.parallels, cruft ▸ twins.cruft, faults ▸ twins.faults,
    twins.prepared.trans prepared.symm⟩

theorem accuse_elsewhere (scenes : TwinScenes pairs first second)
    (twins : TwinHoldings pairs first second session twin) {node : Node} (member : node ∈ first.graph.nodes)
    (elsewhere : ¬pairs.Covers node.path.document) (message : String) :
    TwinHoldings pairs first second (session.accuse first node message) twin := by
  have silent (faults : List (Option Fault)) (log : FaultLog)
      (apart : ∀ noted, some noted ∈ faults → ¬pairs.Covers noted.statement.document) :
      pairs.faults (faults.foldl FaultLog.note log) = pairs.faults log := by
    induction faults generalizing log with
    | nil => rfl
    | cons fault faults ih =>
      rw [List.foldl_cons, ih _ fun noted among => apart noted (List.mem_cons_of_mem _ among)]
      exact Graph.Pairing.faults_note_elsewhere log fun noted same => apart noted (same ▸ List.mem_cons_self)
  refine { twins with faults := ?_ }
  unfold TwinLogs Session.accuse
  rw [silent]
  · exact twins.faults
  · intro noted listed
    obtain ⟨id, among, said⟩ := List.mem_map.mp listed
    obtain ⟨bare, located, rfl⟩ := Option.map_eq_some_iff.mp said
    obtain ⟨_, _, at_⟩ := Option.bind_eq_some_iff.mp located
    obtain ⟨span, declared, rfl⟩ := List.mem_map.mp (OrderedSet.mem_ofList.mp among)
    have statement : bare.statement = span.statement := congrArg (·.2.1) (Fault.place_of_atStatement? at_)
    simp only [statement]
    exact scenes.apart.declarations node member elsewhere span declared

/-- A step in another document. -/
theorem step (scenes : TwinScenes pairs first second) (twins : TwinHoldings pairs first second session twin)
    (elsewhere : ¬pairs.Covers document) (step : Session.Step first document session next) :
    TwinHoldings pairs first second next twin := by
  have numbers : ∀ id parallel, next.parallel? id = some parallel → parallel.id = id := by
    intro id parallel found
    rcases step.origin found with before | ⟨_, _, fresh | ⟨earlier, before, same⟩⟩
    · exact twins.numbers id parallel before
    · exact fresh
    · exact same ▸ twins.numbers id earlier before
  have framed := scenes.paired.left.settled.toFramed
  cases step with
  | insert ours done =>
    have parallels := (Session.parallels_insert done).2
    unfold Session.insert at done
    split at done
    · contradiction
    · cases done
      refine twins.of_parallels numbers ?_ rfl rfl rfl
      simp [Graph.Pairing.parallels, ours, elsewhere]
  | modify held number path stays =>
    refine twins.of_parallels numbers ?_ rfl rfl rfl
    rename_i id change
    rw [Graph.Pairing.parallels, TwinSessions.modify_parallels twins.numbers]
    refine filter_map_of_fixed (fun parallel _ => ?_) fun parallel member covered => if_neg ?_
    · split
      · rw [path]
      · rfl
    · rintro rfl
      obtain ⟨other, found, rfl⟩ := held
      obtain ⟨number, there⟩ := Session.exists_of_mem member
      rw [twins.numbers number parallel there, there, Option.some.injEq] at found
      exact elsewhere (found ▸ of_decide_eq_true covered)
  | condemn listed kind =>
    obtain ⟨among, node, member, leaves⟩ := Graph.mem_edgesIn.mp listed
    obtain ⟨present, ours⟩ := Graph.mem_nodesIn.mp member
    refine twins.condemn_elsewhere scenes (fun inside => elsewhere ?_) kind
    exact ours ▸ (framed.mem_pairing_edges_iff among present leaves).mp inside
  | accuse listed message =>
    obtain ⟨member, ours⟩ := Graph.mem_nodesIn.mp listed
    exact twins.accuse_elsewhere scenes member (ours ▸ elsewhere) message
  | account => exact { twins with }

theorem steps (scenes : TwinScenes pairs first second) (twins : TwinHoldings pairs first second session twin)
    (elsewhere : ¬pairs.Covers document) (steps : Session.Steps first document session next) :
    TwinHoldings pairs first second next twin := by
  induction steps with
  | refl => exact twins
  | tail _ step ih => exact ih.step scenes elsewhere step

end TwinHoldings

end OutlineTypes
