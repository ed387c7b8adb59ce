import OutlineTypes.Proofs.Resolution.Citations
import OutlineTypes.Proofs.Resolution.Growth
import OutlineTypes.Proofs.Resolution.TwinCycles
import OutlineTypes.Proofs.Resolution.TwinPreparation
import OutlineTypes.Proofs.Workspace.Currency

/-! Drills in a new session. Those of documents that are not there come to nothing, and where the scenes of two
workspaces are twins the drills of paired documents end in twin sessions, whatever is drilled in between. -/
namespace OutlineTypes

namespace Session

variable {scene : Scene} {session : Session} {path : TypePath}

/-- Only what lies in a document with nodes is ever found. -/
theorem AtRest.exists_node (rest : session.AtRest scene) {id : ParallelId} (cached : session.lookup? path = some id) :
    ∃ node ∈ scene.graph.nodes, node.path.document = path.document := by
  obtain ⟨top, front⟩ := rest.lookup?_upTo cached (Nat.le_refl 1) path.length_pos
  obtain ⟨parallel, found, same⟩ := rest.sane.lookup?_eq_some front
  have explicit := rest.orderly.roots top parallel found (same ▸ container?_upTo_one path)
  obtain ⟨resolved, stands⟩ := Option.isSome_iff_exists.mp explicit
  obtain ⟨node, member, _, at_⟩ := rest.sane.explicit top parallel found resolved stands
  exact ⟨node, member, by rw [at_, same, TypePath.document_upTo]⟩

/-- The drill of a path of a document without nodes. -/
theorem AtRest.drill_absent (rest : session.AtRest scene) (acyclic : session.Acyclic)
    (absent : ∀ node ∈ scene.graph.nodes, node.path.document ≠ path.document) :
    session.drill scene path = .ok (none, session) := by
  refine rest.drill_of_answers acyclic (.root ?_ ?_)
  · refine Option.eq_none_iff_forall_ne_some.mpr fun id cached => ?_
    obtain ⟨node, member, same⟩ := rest.exists_node cached
    exact absent node member same
  · refine Option.eq_none_iff_forall_ne_some.mpr fun id sound => ?_
    obtain ⟨node, member, _, at_⟩ := exists_node_of_soundNode? sound
    exact absent node member (at_ ▸ rfl)

/-- Drills of documents without nodes make no difference. -/
theorem Outgrows.drills_filter {start : Session} (outgrows : Outgrows scene start session)
    (coherent : scene.graph.Coherent) {keep : TypePath → Bool} (absent : ∀ path, keep path = false →
      ∀ node ∈ scene.graph.nodes, node.path.document ≠ path.document) (paths : List TypePath) :
    paths.foldlM (fun session path => return (← session.drill scene path).2) session =
      (paths.filter keep).foldlM (fun session path => return (← session.drill scene path).2) session := by
  induction paths generalizing session with
  | nil => rfl
  | cons path paths ih =>
    cases kept : keep path with
    | false =>
      have drilled := outgrows.rest.drill_absent outgrows.acyclic (absent path kept)
      rw [List.filter_cons_of_neg (by simp [kept]), List.foldlM_cons, drilled]
      exact ih outgrows
    | true =>
      rw [List.filter_cons_of_pos kept, List.foldlM_cons, List.foldlM_cons]
      have grows := outgrows.drill_ensures coherent path
      cases drilled : session.drill scene path with
      | error reason => rfl
      | ok result => exact ih (grows result drilled)

end Session

/-- Twin sessions that drills go on from. -/
theorem TwinSessions.drills {pairs : Graph.Pairing} {first second : Scene} (scenes : TwinScenes pairs first second)
    {start origin session twin : Session} (twins : TwinSessions pairs first second session twin)
    (outgrows : Session.Outgrows first start session) (outgrowsToo : Session.Outgrows second origin twin)
    {paths others : List TypePath}
    (same : List.Forall₂ pairs.SamePath (paths.filter fun path => pairs.Covers path.document) others) :
    Lockstep (TwinSessions pairs first second)
      (paths.foldlM (fun session path => return (← session.drill first path).2) session)
      (others.foldlM (fun session path => return (← session.drill second path).2) twin) := by
  have coherent := scenes.paired.left.settled.toCoherent
  induction paths generalizing session twin others with
  | nil =>
    cases same
    exact .ok twins
  | cons path paths ih =>
    rw [List.foldlM_cons]
    simp only [bind_assoc, pure_bind]
    have grows := outgrows.drill_ensures coherent path
    by_cases covered : pairs.Covers path.document
    · rw [List.filter_cons_of_pos (by simpa using covered)] at same
      cases same with
      | cons alike same =>
        rename_i other _
        rw [List.foldlM_cons]
        simp only [bind_assoc, pure_bind]
        have growsToo := outgrowsToo.drill_ensures scenes.paired.right.settled.toCoherent other
        refine ((twins.drill scenes outgrows.rest alike).and grows growsToo).bind fun result opposite h => ?_
        exact ih h.1.sessions.toTwinSessions h.2.1 h.2.2 same
    · rw [List.filter_cons_of_neg (by simpa using covered)] at same
      have elsewhere := twins.drill_elsewhere scenes outgrows.rest outgrowsToo.rest outgrowsToo.acyclic covered
      exact .bind_left (elsewhere.and grows) fun result h => ih h.1 h.2 outgrowsToo same

namespace Workspace

variable {workspace other : Workspace} {paths others : List TypePath}

/-- A new session once these paths are drilled in it, one after the other. -/
def drilled (workspace : Workspace) (paths : List TypePath) : Except Fatal Session :=
  paths.foldlM (fun session path => return (← session.drill workspace.scene path).2)
    ((Session.empty workspace.version).prepare workspace.scene)

/-- A new session, before anything is drilled in it. -/
theorem outgrows_prepare (workspace : Workspace) : Session.Outgrows workspace.scene
    ((Session.empty workspace.version).prepare workspace.scene)
      ((Session.empty workspace.version).prepare workspace.scene) :=
  .of_calm (Session.calm_prepare _ _)

namespace Synchronised

variable (synchronised : workspace.Synchronised)
include synchronised

theorem drilled_succeeds (paths : List TypePath) : Succeeds (workspace.drilled paths) fun session =>
    session.AtRest workspace.scene := by
  have coherent : workspace.scene.graph.Coherent := synchronised.settled.toCoherent
  have keeps : Succeeds (workspace.drilled paths) fun session => Session.Outgrows workspace.scene
      ((Session.empty workspace.version).prepare workspace.scene) session := by
    refine Succeeds.foldlM_of_forall _ workspace.outgrows_prepare fun path _ session outgrows => ?_
    have drills := outgrows.rest.sane.drill_succeeds coherent outgrows.rest.idle path
    exact (drills.and_ensures (outgrows.drill_ensures coherent path)).bind fun result h => .pure h.2
  exact keeps.mono fun session outgrows => outgrows.rest

/-- The faults that drills report have what all located faults have. -/
theorem drilled_all {P : Fault → Prop} (warrants : workspace.documents.Warrants P) (paths : List TypePath) :
    Ensures (workspace.drilled paths) fun session => session.faults.All P := by
  have coherent : workspace.scene.graph.Coherent := synchronised.settled.toCoherent
  have prepared : ((Session.empty workspace.version).prepare workspace.scene).faults.All P :=
    Session.all_prepare warrants synchronised.kept fun fault listed => by contradiction
  have keeps : Ensures (workspace.drilled paths) fun session =>
      session.AtRest workspace.scene ∧ session.faults.All P := by
    refine Ensures.foldlM_of_forall _ ⟨workspace.outgrows_prepare.rest, prepared⟩ fun path _ session h => ?_
    obtain ⟨rest, all⟩ := h
    exact ((rest.drill_ensures coherent path).and (rest.sane.drill_all warrants coherent all path)).bind
      fun result h => .pure ⟨h.1.1.rest, h.2⟩
  exact keeps.mono fun session h => h.2

/-- Requests for paths are drills in the current session, one after the other. -/
theorem serveAll_resolve (rested : workspace.Rested) (paths : List TypePath) :
    (workspace.serveAll (paths.map .resolve)).map Workspace.session =
      paths.foldlM (fun session path => return (← session.drill workspace.scene path).2) workspace.session := by
  induction paths generalizing workspace with
  | nil => rfl
  | cons path paths ih =>
    obtain ⟨⟨answer, next⟩, resolved, served, drilled, left, scene, _⟩ :=
      (synchronised.resolve_succeeds path).and_ensures (synchronised.resolve_drills rested path)
    have onward := ih served.synchronised left
    rw [scene] at onward
    have step : workspace.serve (.resolve path) = .ok next := by rw [serve, resolved, ok_bind]; rfl
    rw [List.map_cons, serveAll, List.foldlM_cons, step, List.foldlM_cons, drilled]
    exact onward

/-- Paths of documents that are not there make no difference. -/
theorem drilled_filter (paths : List TypePath) : workspace.drilled paths =
    workspace.drilled (paths.filter fun path => (workspace.document? path.document).isSome) := by
  have coherent : workspace.scene.graph.Coherent := synchronised.settled.toCoherent
  refine workspace.outgrows_prepare.drills_filter coherent (fun path missing node member same => ?_) paths
  obtain ⟨document, found⟩ := synchronised.exists_document member
  rw [same] at found
  simp [found] at missing

end Synchronised

/-- Twin scenes are drilled in lockstep, and what is drilled in other documents makes no difference. -/
theorem drilled_lockstep {pairs : Graph.Pairing} (scenes : TwinScenes pairs workspace.scene other.scene)
    (same : List.Forall₂ pairs.SamePath (paths.filter fun path => pairs.Covers path.document) others) :
    Lockstep (TwinSessions pairs workspace.scene other.scene) (workspace.drilled paths) (other.drilled others) :=
  ((TwinSessions.empty workspace.version other.version).prepare scenes).drills scenes workspace.outgrows_prepare
    other.outgrows_prepare same

end Workspace

end OutlineTypes
