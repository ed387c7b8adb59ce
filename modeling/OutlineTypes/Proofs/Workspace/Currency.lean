import OutlineTypes.Proofs.Resolution.Citations
import OutlineTypes.Proofs.Workspace.Cache
import OutlineTypes.Proofs.Workspace.Faults

/-! Current sessions. No session outlives a change of a document: what the session of the current version knows
is of the graph as it is, and its faults are about lines as they are. -/
namespace OutlineTypes

theorem Fault.Accurate.recount {documents : Documents} {fault : Fault} (accurate : fault.Accurate documents)
    {id : DocumentId} {document : Document} (found : documents.find? id = some document) (serial : Nat) :
    fault.Accurate (documents.insert id { document with nextSerial := serial }) := by
  obtain ⟨around, line, present, cites⟩ := accurate
  by_cases here : fault.statement.document = id
  · rw [here, found, Option.some.injEq] at present
    subst present
    exact ⟨{ document with nextSerial := serial }, line, by rw [OrderedMap.find?_insert, if_pos here],
      cites.position, cites.here, cites.statement, cites.covered, cites.spelled⟩
  · exact ⟨around, line, by rw [OrderedMap.find?_insert, if_neg here, present], cites⟩

namespace Workspace

variable {workspace next : Workspace}

/-- The session is about the documents and the graph of the workspace as they are. -/
structure Current (workspace : Workspace) (session : Session) : Prop where
  version : session.version = workspace.version
  nodes : ∀ parallel ∈ session.parallels, ∀ resolved, parallel.explicit = some resolved →
    ∃ node ∈ workspace.graph.nodes, node.id = resolved.node ∧ node.path = parallel.path
  bases : ∀ parallel ∈ session.parallels, ∀ resolved, parallel.explicit = some resolved →
    ∀ edge ∈ resolved.bases.keys, ∃ outbound ∈ workspace.graph.outbounds resolved.node, outbound.id = edge
  faults : ∀ fault ∈ session.faults.faults, fault.Accurate workspace.documents

/-- What each change does to the session that is open. -/
structure Outdating (workspace : Workspace) : Prop where
  add : ∀ text, Succeeds (workspace.add text) fun result => result.2.session? = none
  remove : ∀ id, Succeeds (workspace.remove id) fun result => match result.1 with
    | .error _ => result.2.session? = workspace.session?
    | .ok _ => result.2.session? = none
  edit : ∀ id edits, Succeeds (workspace.edit id edits) fun result => match result.1 with
    | .error _ => result.2.session? = workspace.session?
    | .ok () => result.2.session? = none

namespace Synchronised

theorem kept (synchronised : workspace.Synchronised) : workspace.documents.Kept where
  sound id document found := (synchronised.belongs id document found).sound
  found _ listed _ member := synchronised.find?_of_line listed member

theorem outdating (synchronised : workspace.Synchronised) : workspace.Outdating where
  add text := (synchronised.add_revises text).mono fun _ h => synchronised.session?_eq_none h.1.opened h.1.version
  remove id := by
    refine (synchronised.remove_decides id).mono fun ⟨answer, next⟩ decided => ?_
    cases answer with
    | error reason =>
      cases decided
      rfl
    | ok document => exact synchronised.session?_eq_none decided.2.opened decided.2.version
  edit id edits := by
    refine (synchronised.edit_decides id edits).mono fun ⟨answer, next⟩ decided => ?_
    cases answer with
    | error reason => rcases decided with rfl | ⟨_, _, _, _, rfl⟩ <;> rfl
    | ok _ =>
      obtain ⟨_, _, revised⟩ := decided
      exact synchronised.session?_eq_none revised.opened revised.version

end Synchronised

/-- The faults of the current session are about lines of the documents. -/
def Accurate (workspace : Workspace) : Prop := workspace.session.faults.Accurate workspace.documents

namespace Accurate

theorem of_unopened (synchronised : workspace.Synchronised) (unopened : workspace.session? = none) :
    workspace.Accurate := by
  rw [Accurate, session_of_unopened unopened]
  have kept : workspace.scene.documents.Kept := synchronised.kept
  exact Session.all_prepare kept.warrants_accurate kept fun fault listed => by contradiction

theorem refuse (accurate : workspace.Accurate) (rested : workspace.Rested) {id : DocumentId}
    (refused : Synchronised.Refused workspace id next) (synchronised : next.Synchronised) : next.Accurate := by
  rcases refused with rfl | ⟨document, serial, found, _, rfl⟩
  · exact accurate
  cases current : workspace.session? with
  | none => exact .of_unopened synchronised current
  | some session =>
    rw [Accurate, rested.session_recount current]
    exact fun fault listed => (accurate fault listed).recount found serial

/-- What a drill of the current session reports is about the lines of the documents, too. -/
theorem resolve_ensures (synchronised : workspace.Synchronised) (rested : workspace.Rested)
    (accurate : workspace.Accurate) (path : TypePath) :
    Ensures (workspace.resolve path) fun result => result.2.Accurate := by
  refine (synchronised.resolve_drills rested path).mono fun result h => ?_
  obtain ⟨drilled, _, scene, _⟩ := h
  have documents : result.2.documents = workspace.documents := congrArg Scene.documents scene
  have kept : workspace.scene.documents.Kept := synchronised.kept
  rw [Accurate, documents]
  have sane := rested.atRest_session.2.sane
  exact sane.drill_all kept.warrants_accurate synchronised.settled.toCoherent accurate path _ drilled

theorem faults (synchronised : workspace.Synchronised) (rested : workspace.Rested)
    (accurate : workspace.Accurate) : workspace.faults.2.Accurate := by
  rw [Accurate, synchronised.session_faults rested]
  exact accurate

end Accurate

theorem Synchronised.serve_accurate (synchronised : workspace.Synchronised) (rested : workspace.Rested)
    (accurate : workspace.Accurate) (request : Request) : Ensures (workspace.serve request) Accurate := by
  by_cases asks : request.asks
  · cases request with
    | add text => contradiction
    | remove document => contradiction
    | edit document edits => contradiction
    | path document text => exact .ok accurate
    | session => exact .ok accurate
    | worker => exact .ok (accurate.faults synchronised rested)
    | faults => exact .ok (accurate.faults synchronised rested)
    | resolve path => exact (accurate.resolve_ensures synchronised rested path).bind fun _ h => .pure h
    | drill document text =>
      rw [serve, Workspace.drill]
      cases workspace.path document text with
      | error reason => exact .ok accurate
      | ok path =>
        simp only [bind_assoc]
        exact (accurate.resolve_ensures synchronised rested path).bind fun _ h => .pure h
  · have decides := (synchronised.serve_decides asks).and_ensures (synchronised.serve_succeeds request).ensures
    refine decides.ensures.mono fun next h => ?_
    obtain ⟨decided, served⟩ := h
    rcases decided with ⟨document, revised⟩ | ⟨id, refused⟩
    · exact .of_unopened served.synchronised (synchronised.session?_eq_none revised.opened revised.version)
    · exact accurate.refuse rested refused served.synchronised

theorem Rested.session_of_current (rested : workspace.Rested) {session : Session}
    (current : workspace.session? = some session) : session = workspace.session := by
  rw [Workspace.session, current, Option.getD_some, Session.prepare_of_prepared (rested session current).1]

/-- After any history the session of the current version is current, and no change that is made leaves one. -/
theorem history_current (options : Options) (requests : List Request) :
    ∃ workspace, (empty options).serveAll requests = .ok workspace ∧ workspace.Current workspace.session ∧
      (∀ session, workspace.session? = some session → session = workspace.session) ∧ workspace.Outdating := by
  obtain ⟨workspace, reached, synchronised, rested, accurate⟩ :=
    (synchronised_empty options).serveAll_keeps (.of_unopened rfl)
      (Accurate.of_unopened (synchronised_empty options) rfl)
      (fun _ synchronised rested accurate => synchronised.serve_accurate rested accurate) requests
  obtain ⟨same, again, _, _, _, _, outgrows⟩ := history_grown options requests
  cases reached.symm.trans again
  have rest := rested.atRest_session.2
  have catalogued := rest.catalogued synchronised.settled.toFramed outgrows.housed
  refine ⟨workspace, reached, ⟨synchronised.ready_session.2, fun parallel listed resolved explicit => ?_,
    fun parallel listed resolved explicit edge among => ?_, accurate⟩, fun session => rested.session_of_current,
    synchronised.outdating⟩
  all_goals obtain ⟨id, found⟩ := Session.exists_of_mem listed
  · exact rest.sane.explicit id parallel found resolved explicit
  · exact catalogued.bases id parallel resolved found explicit edge among

/-- A line in front makes a new session, with the fault of an annotation one line further down. -/
theorem redrilled_current : ∃ workspace,
    (empty ⟨4, true⟩).serveAll [.add "A : B, Z\nB", .drill ⟨0⟩ "A", .edit ⟨0⟩ [.insert 0 "C"], .drill ⟨0⟩ "A"] =
        .ok workspace ∧ workspace.Current workspace.session ∧ workspace.Outdating ∧
      workspace.session.parallels.map (fun parallel => (parallel.path.names, parallel.bases)) =
        [(["A"], [⟨1⟩]), (["B"], [])] ∧
      workspace.session.faults.faults.map (fun fault => (fault.kind, fault.line)) = [(.unresolved, 1)] := by
  obtain ⟨workspace, reached, current, _, outdating⟩ := history_current ⟨4, true⟩
    [.add "A : B, Z\nB", .drill ⟨0⟩ "A", .edit ⟨0⟩ [.insert 0 "C"], .drill ⟨0⟩ "A"]
  have evaluated : ((empty ⟨4, true⟩).serveAll
      [.add "A : B, Z\nB", .drill ⟨0⟩ "A", .edit ⟨0⟩ [.insert 0 "C"], .drill ⟨0⟩ "A"]).map (fun workspace =>
        (workspace.session.parallels.map fun parallel => (parallel.path.names, parallel.bases),
          workspace.session.faults.faults.map fun fault => (fault.kind, fault.line))) =
      .ok ([(["A"], [⟨1⟩]), (["B"], [])], [(.unresolved, 1)]) := by
    decide +kernel
  simp only [reached, Except.map, Except.ok.injEq, Prod.mk.injEq] at evaluated
  exact ⟨workspace, reached, current, outdating, evaluated⟩

end Workspace
end OutlineTypes
