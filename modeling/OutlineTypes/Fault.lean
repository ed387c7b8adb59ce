import OutlineTypes.Document
import OutlineTypes.Graph
import OutlineTypes.Identity

/-! The kinds of fault that an outline can have, their codes and their wording. -/
namespace OutlineTypes

inductive Severity where
  /-- The faulty object takes no part in resolution. -/
  | error
  /-- The type is resolved all the same. -/
  | warning
deriving DecidableEq

inductive FaultKind where
  /-- An annotation that no visible node answers. -/
  | unresolved
  /-- An annotation on a chain of bases that leads back to its start. -/
  | circular
  /-- An override whose bases miss some of what it overrides. -/
  | contract
  /-- An indent that mixes tabs and spaces. -/
  | tabs
deriving DecidableEq

namespace FaultKind

def all : List FaultKind := [unresolved, circular, contract, tabs]

def code : FaultKind → String
  | unresolved => "E0001"
  | circular => "E0002"
  | contract => "W0001"
  | tabs => "E0003"

def severity : FaultKind → Severity
  | contract => .warning
  | unresolved | circular | tabs => .error

/-- What a fault of this kind says about `subject`. -/
def describe (subject : Name) : FaultKind → String
  | unresolved => "cannot resolve `" ++ subject ++ "` from this scope"
  | circular => "`" ++ subject ++ "` is part of a circular type reference"
  | contract => "`" ++ subject ++ "` overrides a type whose bases are not satisfied by its own"
  | tabs => "statement is indented with both tabs and spaces"

end FaultKind

/-! Faults: errors and warnings about the input, each located in a statement. A log keeps the first
fault of each kind about each place. -/

structure Fault where
  kind : FaultKind
  statement : StatementId
  /-- The position of the statement, counted from 0. -/
  line : Nat
  /-- Bytes of the statement's text. -/
  range : Text.ByteRange
  /-- The span the fault is about, if it is not about the whole statement. -/
  span : Option SpanId
  message : String
deriving DecidableEq

namespace Fault

def severity (fault : Fault) : Severity := fault.kind.severity

def isError (fault : Fault) : Bool := fault.severity = .error

/-- What two reports of one fault share. -/
def place (fault : Fault) : FaultKind × StatementId × Option SpanId :=
  (fault.kind, fault.statement, fault.span)

/-- A fault about a whole statement. -/
def atStatement? (kind : FaultKind) (document : Document) (id : StatementId) : Option Fault := do
  let line ← document.position? id
  let statement ← document.get? line
  let subject := (statement.declarations.head?.map Span.subject).getD ""
  return ⟨kind, id, line, statement.contentRange, none, kind.describe subject⟩

/-- A fault about one span of a statement that is still in the document. -/
def atSpan? (kind : FaultKind) (document : Document) (id : SpanId) : Option Fault := do
  let line ← document.position? id.statement
  let statement ← document.get? line
  let span ← statement.span? id
  return ⟨kind, statement.id, line, span.range, some id, kind.describe span.subject⟩

/-- The fault as one line of text, with lines counted from 1. -/
def text (fault : Fault) : String :=
  toString fault.statement.document ++ ":" ++ toString (fault.line + 1) ++ ": [" ++
    fault.kind.code ++ "] " ++ fault.message

end Fault

/-- Faults in the order in which they were first reported. -/
structure FaultLog where
  faults : List Fault
deriving DecidableEq

namespace FaultLog

def empty : FaultLog := ⟨[]⟩

instance : EmptyCollection FaultLog := ⟨empty⟩

def holds (log : FaultLog) (place : FaultKind × StatementId × Option SpanId) : Bool :=
  log.faults.any (·.place = place)

/-- Adds a fault unless one about the same place is there; says whether it did. -/
def report (log : FaultLog) (fault : Fault) : Bool × FaultLog :=
  if log.holds fault.place then (false, log) else (true, ⟨log.faults ++ [fault]⟩)

/-- Reports a fault if there is one. -/
def note (log : FaultLog) (fault : Option Fault) : FaultLog :=
  match fault with
  | some fault => (log.report fault).2
  | none => log

def ofSeverity (log : FaultLog) (severity : Severity) : List Fault :=
  log.faults.filter (·.severity = severity)

def ofKind (log : FaultLog) (kind : FaultKind) : List Fault := log.faults.filter (·.kind = kind)

theorem report_prefix (log : FaultLog) (fault : Fault) :
    log.faults <+: (log.report fault).2.faults := by
  unfold report
  split
  · exact List.prefix_refl _
  · exact List.prefix_append _ _

theorem note_prefix (log : FaultLog) (fault : Option Fault) :
    log.faults <+: (log.note fault).faults := by
  cases fault with
  | none => exact List.prefix_refl _
  | some fault => exact log.report_prefix fault

end FaultLog

/-! Cruft: what resolution found faulty and passes over from then on. A mark is written once and keeps the
kind of fault that caused it. Marking a node or an edge marks the spans behind it. -/

inductive CruftTarget where
  | node (id : NodeId)
  | edge (id : EdgeId)
  | span (id : SpanId)
deriving DecidableEq

structure Cruft where
  nodes : OrderedMap NodeId FaultKind
  edges : OrderedMap EdgeId FaultKind
  spans : OrderedMap SpanId FaultKind
deriving DecidableEq

namespace Cruft

def empty : Cruft := ⟨∅, ∅, ∅⟩

instance : EmptyCollection Cruft := ⟨empty⟩

/-- The kind of fault a target was marked with. -/
def reason? (cruft : Cruft) : CruftTarget → Option FaultKind
  | .node id => cruft.nodes.find? id
  | .edge id => cruft.edges.find? id
  | .span id => cruft.spans.find? id

def has (cruft : Cruft) (target : CruftTarget) : Bool := (cruft.reason? target).isSome

def hasNode (cruft : Cruft) (id : NodeId) : Bool := cruft.has (.node id)
def hasEdge (cruft : Cruft) (id : EdgeId) : Bool := cruft.has (.edge id)
def hasSpan (cruft : Cruft) (id : SpanId) : Bool := cruft.has (.span id)

/-- The number of marked nodes and edges. -/
def size (cruft : Cruft) : Nat := cruft.nodes.size + cruft.edges.size

def isEmpty (cruft : Cruft) : Bool :=
  cruft.nodes.isEmpty && cruft.edges.isEmpty && cruft.spans.isEmpty

/-- Marks a target that has no mark yet. -/
def mark (cruft : Cruft) (target : CruftTarget) (kind : FaultKind) : Cruft :=
  if cruft.has target then cruft
  else match target with
    | .node id => { cruft with nodes := cruft.nodes.insert id kind }
    | .edge id => { cruft with edges := cruft.edges.insert id kind }
    | .span id => { cruft with spans := cruft.spans.insert id kind }

/-- The spans a target stands for. -/
def spansBehind (graph : Graph) : CruftTarget → List SpanId
  | .node id => (graph.node? id).toList.flatMap (·.declarations.toList)
  | .edge id => (graph.edge? id).toList.flatMap (·.sources.toList)
  | .span id => [id]

/-- Marks a span and reports the fault, unless the span is cruft already. -/
def addSpan (kind : FaultKind) (documents : Documents) (state : Cruft × FaultLog) (id : SpanId) :
    Cruft × FaultLog :=
  let (cruft, log) := state
  if cruft.hasSpan id then (cruft, log)
  else
    let fault := (documents.find? id.statement.document).bind (Fault.atSpan? kind · id)
    (cruft.mark (.span id) kind, log.note fault)

/-- Marks a target and the spans behind it, with one report for each span that was no cruft before. A
target that is marked already is left alone. -/
def add (target : CruftTarget) (kind : FaultKind) (graph : Graph) (documents : Documents)
    (state : Cruft × FaultLog) : Cruft × FaultLog :=
  let (cruft, log) := state
  if cruft.has target then (cruft, log)
  else
    let cruft := match target with
      | .span _ => cruft
      | .node _ | .edge _ => cruft.mark target kind
    (spansBehind graph target).foldl (addSpan kind documents) (cruft, log)

section Views

/-- The marked nodes of the graph, in order of identity. -/
def nodesIn (cruft : Cruft) (graph : Graph) : List (NodeId × FaultKind) :=
  graph.nodes.filterMap fun node => (cruft.reason? (.node node.id)).map (node.id, ·)

def edgesIn (cruft : Cruft) (graph : Graph) : List (EdgeId × FaultKind) :=
  graph.edges.filterMap fun edge => (cruft.reason? (.edge edge.id)).map (edge.id, ·)

/-- The marked spans that declare a node or assert an edge of the graph, in their order. -/
def spansIn (cruft : Cruft) (graph : Graph) : List (SpanId × FaultKind) :=
  let spans := OrderedSet.ofList (graph.nodes.flatMap (·.declarations.toList) ++
    graph.edges.flatMap (·.sources.toList))
  (stableSort (fun a b => (a.compare b).isLE) spans.toList).filterMap fun id =>
    (cruft.reason? (.span id)).map (id, ·)

end Views

end Cruft
end OutlineTypes
