import OutlineTypes.Proofs.Workspace.Synchronisation

/-! Safety of histories. No history comes to a fatal error, and after any of them every path can be
drilled, with a bounded number of drills inside one another and each parallel raked at most once. -/
namespace OutlineTypes.Workspace

/-- However a workspace is used, none of what must never happen does. -/
theorem history_never_fatal (options : Options) (requests : List Request) :
    ∃ workspace, (empty options).serveAll requests = .ok workspace := by
  obtain ⟨workspace, reached, _⟩ := history_succeeds options requests
  exact ⟨workspace, reached⟩

/-- What it means that the drill of a path ends in this outcome and session. -/
structure Drills (workspace : Workspace) (path : TypePath) (outcome : Outcome) (session : Session) :
    Prop where
  /-- The same without a bound that could be met. -/
  ends : ∀ bound, Session.drillBound workspace.scene ≤ bound →
    Session.drillWithin workspace.scene bound path workspace.session = .ok (outcome, session)
  cuts : ∀ bound, session.size < bound → session.circularWithin bound = session.circularEdges
  answers : workspace.resolve path = .ok (outcome.parallel?,
    { workspace with opened := some (session.cutCycles workspace.scene) })
  /-- The drills under way are never two to one path, and never more than one to each node of the document
  and one to the path itself. -/
  flight : Session.drillWatched workspace.scene (Session.withinNodes workspace.graph path.document)
    (Session.drillBound workspace.scene) path workspace.session = .ok (outcome, session)
  landed : session.inFlight = []
  /-- What was raked before stays on the log of rakings, and no parallel is on it twice. -/
  log : workspace.session.settled <+: session.settled
  rakedOnce : session.settled.Nodup

theorem Synchronised.drills {workspace : Workspace} (synchronised : workspace.Synchronised)
    (path : TypePath) : ∃ outcome session, Drills workspace path outcome session := by
  obtain ⟨ready, _⟩ := synchronised.ready_session
  have coherent : workspace.scene.graph.Coherent := synchronised.settled.toCoherent
  have sane : workspace.session.Sane workspace.scene.graph := ready.sane
  obtain ⟨⟨outcome, session⟩, watched, drilled, _⟩ := sane.drillWithin_succeeds coherent ready.idle path
  have ends (bound : Nat) (enough : Session.drillBound workspace.scene ≤ bound) :=
    Session.refines_drillWatched enough path workspace.session (outcome, session) watched
  refine ⟨outcome, session, ends, fun bound enough => drilled.sane.circularWithin_eq enough, ?_, watched,
    drilled.grows.inFlight.trans ready.idle, ?_, drilled.sane.settledOnce⟩
  · simp only [resolve, Session.drill, ends _ (Nat.le_refl _), ok_bind]
    rfl
  · obtain ⟨more, grown, _⟩ := drilled.grows.settles
    exact ⟨more, grown.symm⟩

/-- After any history, and so in any session that earlier drills left, every drill ends. -/
theorem history_drills (options : Options) (requests : List Request) :
    ∃ workspace, (empty options).serveAll requests = .ok workspace ∧
      ∀ path, ∃ outcome session, Drills workspace path outcome session := by
  obtain ⟨workspace, reached, served⟩ := history_succeeds options requests
  exact ⟨workspace, reached, served.synchronised.drills⟩

end OutlineTypes.Workspace
