import OutlineTypes.Proofs.Arena.Consistency
import OutlineTypes.Proofs.Workspace.Synchronisation

/-! Programs. What the arena hears of a request is what the request does to the graph of the workspace. So the
arena holds this graph throughout, with its indexes tidy, and no history of a program fails. -/
namespace OutlineTypes

namespace Workspace

variable {workspace next : Workspace}

theorem change_eq_callAll (graph : Graph) (old new : Document) (parents : List StatementId) :
    graph.change old new parents = graph.callAll (Graph.announce old new parents) := by
  rw [Graph.change, Graph.callAll, Graph.announce, List.foldlM_cons, Graph.call]
  refine bind_congr fun mid => ?_
  rw [List.foldlM_cons, Graph.call]
  exact (bind_pure _).symm

theorem graph_of_add {text : String} {result : DocumentId × Workspace} (added : workspace.add text = .ok result) :
    workspace.graph.callAll (workspace.notifications (.add text)) = .ok result.2.graph := by
  obtain ⟨graph, changed, added⟩ := exists_ok_of_bind added
  cases added
  exact (change_eq_callAll _ _ _ _).symm.trans changed

theorem graph_of_remove {id : DocumentId} {result : Except WorkspaceError Document × Workspace}
    (removed : workspace.remove id = .ok result) :
    workspace.graph.callAll (workspace.notifications (.remove id)) = .ok result.2.graph := by
  simp only [remove, documentOf, notifications] at removed ⊢
  cases found : workspace.document? id with
  | none =>
    rw [found] at removed
    cases removed
    rfl
  | some document =>
    rw [found] at removed
    obtain ⟨graph, changed, removed⟩ := exists_ok_of_bind removed
    cases removed
    exact (change_eq_callAll _ _ _ _).symm.trans changed

theorem graph_of_edit {id : DocumentId} {edits : List Edit} {result : Except WorkspaceError Unit × Workspace}
    (edited : workspace.edit id edits = .ok result) :
    workspace.graph.callAll (workspace.notifications (.edit id edits)) = .ok result.2.graph := by
  simp only [edit, documentOf, notifications] at edited ⊢
  cases found : workspace.document? id with
  | none =>
    rw [found] at edited
    cases edited
    rfl
  | some document =>
    rw [found] at edited
    simp only at edited ⊢
    generalize document.plan edits = planned at edited ⊢
    obtain ⟨plan, document⟩ := planned
    cases plan with
    | error reason =>
      cases edited
      rfl
    | ok plan =>
      obtain ⟨graph, changed, edited⟩ := exists_ok_of_bind edited
      cases edited
      exact (change_eq_callAll _ _ _ _).symm.trans changed

theorem graph_of_resolve {path : TypePath} {result : Option ParallelId × Workspace}
    (resolved : workspace.resolve path = .ok result) : result.2.graph = workspace.graph := by
  obtain ⟨_, _, resolved⟩ := exists_ok_of_bind resolved
  cases resolved
  rfl

theorem graph_of_drill {document : DocumentId} {text : String}
    {result : Except WorkspaceError (Option ParallelId) × Workspace}
    (drilled : workspace.drill document text = .ok result) : result.2.graph = workspace.graph := by
  simp only [drill] at drilled
  cases found : workspace.path document text with
  | error reason =>
    rw [found] at drilled
    cases drilled
    rfl
  | ok path =>
    rw [found] at drilled
    obtain ⟨_, resolved, drilled⟩ := exists_ok_of_bind drilled
    cases drilled
    exact graph_of_resolve resolved

/-- What a request does to the graph is what the graph hears of it. -/
theorem graph_of_serve {request : Request} (served : workspace.serve request = .ok next) :
    workspace.graph.callAll (workspace.notifications request) = .ok next.graph := by
  cases request with
  | add text =>
    obtain ⟨_, added, served⟩ := exists_ok_of_bind served
    cases served
    exact graph_of_add added
  | remove id =>
    obtain ⟨_, removed, served⟩ := exists_ok_of_bind served
    cases served
    exact graph_of_remove removed
  | edit id edits =>
    obtain ⟨_, edited, served⟩ := exists_ok_of_bind served
    cases served
    exact graph_of_edit edited
  | resolve path =>
    obtain ⟨_, resolved, served⟩ := exists_ok_of_bind served
    cases served
    rw [graph_of_resolve resolved]
    rfl
  | drill document text =>
    obtain ⟨_, drilled, served⟩ := exists_ok_of_bind served
    cases served
    rw [graph_of_drill drilled]
    rfl
  | path | worker | session | faults =>
    cases served
    rfl

end Workspace

namespace Program

variable {program next : Program}

/-- The arena of the program holds the graph of its workspace. -/
structure Tracked (program : Program) : Prop where
  synchronised : program.workspace.Synchronised
  tracks : Arena.Tracks program.arena program.workspace.graph

theorem tracked_empty (options : Options) : (empty options).Tracked :=
  ⟨Workspace.synchronised_empty options, ⟨rfl, Arena.tidy_empty⟩⟩

namespace Tracked

/-- A request that the workspace serves is served by the program, too. -/
theorem serve_of_workspace (tracked : program.Tracked) {request : Request} {workspace : Workspace}
    (served : program.workspace.serve request = .ok workspace) :
    ∃ arena, program.serve request = .ok ⟨workspace, arena⟩ ∧ Arena.Tracks arena workspace.graph := by
  obtain ⟨same, tidy⟩ := tracked.tracks
  have settled := tracked.synchronised.settled
  rw [← same] at settled
  have heard := Workspace.graph_of_serve served
  rw [← same] at heard
  have follows := tidy.callAll_follows settled.toCoherent settled.accounted
    (program.workspace.notifications request)
  obtain ⟨arena, called, tracks⟩ := follows.exists_left heard
  refine ⟨arena, ?_, tracks⟩
  rw [serve, called, ok_bind, served]
  rfl

theorem serve_succeeds (tracked : program.Tracked) (request : Request) :
    Succeeds (program.serve request) fun next =>
      next.Tracked ∧ program.workspace.serve request = .ok next.workspace := by
  obtain ⟨workspace, served, after⟩ := tracked.synchronised.serve_succeeds request
  obtain ⟨arena, answered, tracks⟩ := tracked.serve_of_workspace served
  exact ⟨_, answered, ⟨after.synchronised, tracks⟩, served⟩

theorem serveAll_succeeds (tracked : program.Tracked) (requests : List Request) :
    Succeeds (program.serveAll requests) fun next =>
      next.Tracked ∧ program.workspace.serveAll requests = .ok next.workspace := by
  refine Succeeds.foldlM (fun done (next : Program) => next.Tracked ∧
    program.workspace.serveAll done = .ok next.workspace) ⟨tracked, rfl⟩ fun done request rest mid _ before => ?_
  refine (before.1.serve_succeeds request).mono fun next after => ⟨after.1, ?_⟩
  rw [Workspace.serveAll, List.foldlM_append, ← Workspace.serveAll, before.2, ok_bind, List.foldlM_cons, after.2]
  rfl

theorem consistent (tracked : program.Tracked) : program.arena.Consistent := by
  obtain ⟨same, tidy⟩ := tracked.tracks
  have settled := tracked.synchronised.settled
  rw [← same] at settled
  exact tidy.consistent settled.toCoherent settled.accounted

end Tracked

/-- Every history of a new program ends well: its workspace is what the history comes to without the arena, and the
arena holds the graph of this workspace, consistently. -/
theorem history_tracks (options : Options) (requests : List Request) :
    Succeeds ((empty options).serveAll requests) fun program => program.Tracked ∧ program.arena.Consistent ∧
      (Workspace.empty options).serveAll requests = .ok program.workspace :=
  ((tracked_empty options).serveAll_succeeds requests).mono fun _ reached =>
    ⟨reached.1, reached.1.consistent, reached.2⟩

end Program
end OutlineTypes
