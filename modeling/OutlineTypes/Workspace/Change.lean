import OutlineTypes.Document
import OutlineTypes.Graph
import OutlineTypes.Resolution.Drill

/-! Workspaces: documents, the graph of what they declare, and the session of the current version. Every
change of a document is announced to the graph before it and ended after it, and makes a new version. -/
namespace OutlineTypes

/-- Settings for the life of a workspace. -/
structure Options where
  /-- The columns of a tab in an indent. -/
  tabSize : Nat
  checksContracts : Bool
deriving DecidableEq

structure Workspace where
  options : Options
  documents : Documents
  graph : Graph
  nextDocument : Nat
  version : Nat
  /-- The session last opened, which may belong to an earlier version. -/
  opened : Option Session
deriving DecidableEq

/-- Misuse of a workspace. It leaves everything as it was, up to the count of lines read. -/
inductive WorkspaceError where
  | unknownDocument (document : DocumentId)
  | outOfRange (reason : OutOfRange)
  /-- The text is no path. -/
  | invalidPath (text : String)
deriving DecidableEq

namespace WorkspaceError

def message : WorkspaceError → String
  | unknownDocument document => "unknown document: " ++ toString document
  | outOfRange reason =>
    "invalid edit: statement index " ++ toString reason.index ++ " out of range (document has " ++
      toString reason.length ++ " statements)"
  | invalidPath text => "invalid type path: `" ++ text ++ "`"

end WorkspaceError

namespace Workspace

def empty (options : Options) : Workspace := ⟨options, ∅, .empty, 0, 0, none⟩

def document? (workspace : Workspace) (id : DocumentId) : Option Document :=
  workspace.documents.find? id

/-- The document of this identity, or what is wrong with it. -/
def documentOf (workspace : Workspace) (id : DocumentId) : Except WorkspaceError Document :=
  match workspace.document? id with
  | some document => .ok document
  | none => .error (.unknownDocument id)

/-- What a session of the current version reads. -/
def scene (workspace : Workspace) : Scene :=
  ⟨workspace.graph, workspace.documents, workspace.options.checksContracts⟩

/-- The session of the current version, if one was opened. -/
def session? (workspace : Workspace) : Option Session :=
  workspace.opened.filter (·.version = workspace.version)

/-- The session of the current version, which is prepared. -/
def session (workspace : Workspace) : Session :=
  (workspace.session?.getD (.empty workspace.version)).prepare workspace.scene

end Workspace

/-! Changes of a workspace. Each takes the changed lines out of the graph as they were and brings them in
as they are, so that the graph always says what the documents say. -/

/-- The graph after the lines of a document under `parents` changed from `old` to `new`. -/
def Graph.change (graph : Graph) (old new : Document) (parents : List StatementId) :
    Except Fatal Graph := do
  let graph ← graph.invalidate old parents
  graph.revalidate new parents

namespace Workspace

/-- Adds the document a text spells. -/
def add (workspace : Workspace) (text : String) : Except Fatal (DocumentId × Workspace) := do
  let id := DocumentId.mk workspace.nextDocument
  let document := Document.ofText id workspace.options.tabSize text
  let graph ← workspace.graph.change (document.replace []) document []
  return (id, { workspace with
    graph
    documents := workspace.documents.insert id document
    nextDocument := workspace.nextDocument + 1
    version := workspace.version + 1 })

/-- Removes a document with all it declares, and returns it as it was. -/
def remove (workspace : Workspace) (id : DocumentId) :
    Except Fatal (Except WorkspaceError Document × Workspace) := do
  match workspace.documentOf id with
  | .error reason => return (.error reason, workspace)
  | .ok document =>
    let graph ← workspace.graph.change document (document.replace []) []
    return (.ok document, { workspace with
      graph
      documents := workspace.documents.erase id
      version := workspace.version + 1 })

/-- Applies edits to a document, all of them or none. -/
def edit (workspace : Workspace) (id : DocumentId) (edits : List Edit) :
    Except Fatal (Except WorkspaceError Unit × Workspace) := do
  match workspace.documentOf id with
  | .error reason => return (.error reason, workspace)
  | .ok document =>
    let (plan, document) := document.plan edits
    match plan with
    | .error reason =>
      return (.error (.outOfRange reason),
        { workspace with documents := workspace.documents.insert id document })
    | .ok plan =>
      let changed := document.replace plan.statements
      let graph ← workspace.graph.change document changed plan.parents
      return (.ok (), { workspace with
        graph
        documents := workspace.documents.insert id changed
        version := workspace.version + 1 })

end Workspace
end OutlineTypes
