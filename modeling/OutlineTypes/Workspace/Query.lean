import OutlineTypes.Arena
import OutlineTypes.Workspace.Change

/-! Questions to a workspace. They are answered in the session of the current version, which is opened
when it is first needed. -/
namespace OutlineTypes

namespace Workspace

/-- The path that a text spells in a document of the workspace. -/
def path (workspace : Workspace) (document : DocumentId) (text : String) :
    Except WorkspaceError TypePath := do
  let _ ← workspace.documentOf document
  match TypePath.parse? document text with
  | some path => return path
  | none => .error (.invalidPath text)

/-- Resolves a path in the current session. -/
def resolve (workspace : Workspace) (path : TypePath) :
    Except Fatal (Option ParallelId × Workspace) := do
  let (parallel, session) ← workspace.session.drill workspace.scene path
  return (parallel, { workspace with opened := some session })

/-- Resolves the path that a text spells. A text that spells none opens no session. -/
def drill (workspace : Workspace) (document : DocumentId) (text : String) :
    Except Fatal (Except WorkspaceError (Option ParallelId) × Workspace) := do
  match workspace.path document text with
  | .error reason => return (.error reason, workspace)
  | .ok path =>
    let (parallel, workspace) ← workspace.resolve path
    return (.ok parallel, workspace)

/-- The faults that the current session has found so far. -/
def faults (workspace : Workspace) : FaultLog × Workspace :=
  let session := workspace.session
  (session.faults, { workspace with opened := some session })

end Workspace

/-! Requests, one for each way in which a workspace is used. A history is a list of them; misuse is
answered with an error and the history goes on, while a fatal error would end it. -/

inductive Request where
  | add (text : String)
  | remove (document : DocumentId)
  | edit (document : DocumentId) (edits : List Edit)
  | path (document : DocumentId) (text : String)
  | drill (document : DocumentId) (text : String)
  /-- Drills a path that was built by hand, in whatever document. -/
  | resolve (path : TypePath)
  /-- Opens the session of the current version, or goes on with it. -/
  | worker
  | session
  | faults
deriving DecidableEq

namespace Workspace

/-- The workspace after a request. -/
def serve (workspace : Workspace) : Request → Except Fatal Workspace
  | .add text => return (← workspace.add text).2
  | .remove document => return (← workspace.remove document).2
  | .edit document edits => return (← workspace.edit document edits).2
  | .drill document text => return (← workspace.drill document text).2
  | .resolve path => return (← workspace.resolve path).2
  | .worker | .faults => .ok workspace.faults.2
  | .path _ _ | .session => .ok workspace

/-- The workspace after a history. -/
def serveAll (workspace : Workspace) (requests : List Request) : Except Fatal Workspace :=
  requests.foldlM serve workspace

end Workspace

/-! Programs. A workspace has the graph without its indexes; the program keeps the arena beside it, which hears
of the same changes. -/

/-- What the graph hears when the lines of a document under `parents` change from `old` to `new`. -/
def Graph.announce (old new : Document) (parents : List StatementId) : List Graph.Call :=
  [.invalidate old parents, .revalidate new parents]

/-- What the graph hears of a request. -/
def Workspace.notifications (workspace : Workspace) : Request → List Graph.Call
  | .add text =>
    let document := Document.ofText ⟨workspace.nextDocument⟩ workspace.options.tabSize text
    Graph.announce (document.replace []) document []
  | .remove id =>
    match workspace.document? id with
    | none => []
    | some document => Graph.announce document (document.replace []) []
  | .edit id edits =>
    match workspace.document? id with
    | none => []
    | some document =>
      match document.plan edits with
      | (.error _, _) => []
      | (.ok plan, document) => Graph.announce document (document.replace plan.statements) plan.parents
  | .path .. | .drill .. | .resolve _ | .worker | .session | .faults => []

structure Program where
  workspace : Workspace
  arena : Arena
deriving DecidableEq

namespace Program

def empty (options : Options) : Program := ⟨.empty options, .empty⟩

/-- The program after a request. -/
def serve (program : Program) (request : Request) : Except Fatal Program := do
  let arena ← program.arena.callAll (program.workspace.notifications request)
  return ⟨← program.workspace.serve request, arena⟩

/-- The program after a history. -/
def serveAll (program : Program) (requests : List Request) : Except Fatal Program :=
  requests.foldlM serve program

end Program
end OutlineTypes
