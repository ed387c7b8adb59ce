import OutlineTypes.Document
import OutlineTypes.Identity
import OutlineTypes.Ordered
import OutlineTypes.Statement

/-! The declaration graph. A node is one declared path; an edge is one name that annotates a node,
together with the nodes this name may mean. Nodes and edges are listed in creation order, and what there is of a
path, a scope or a name is found by going through the lists; `Arena` keeps indexes for that. -/
namespace OutlineTypes

structure Node where
  id : NodeId
  container : Option NodeId
  path : TypePath
  /-- The spans that declare the path. -/
  declarations : OrderedSet SpanId
  /-- The edges that list this node as a successor. -/
  inbounds : OrderedSet EdgeId
deriving DecidableEq

/-- A node that an annotation may mean, with the number of scopes between the two. -/
structure Successor where
  node : NodeId
  longitude : Nat
deriving DecidableEq

structure Edge where
  id : EdgeId
  predecessor : NodeId
  subject : Name
  /-- The annotation spans that assert this edge. -/
  sources : OrderedSet SpanId
  /-- Nearest scope first. -/
  successors : List Successor
deriving DecidableEq

structure Graph where
  nodes : List Node
  edges : List Edge
  nextNode : Nat
  nextEdge : Nat
  /-- Nodes and edges that lost their last span since the last disposal. -/
  emptiedNodes : OrderedSet NodeId
  emptiedEdges : OrderedSet EdgeId
  /-- The document whose change is under way. -/
  pending : Option DocumentId
deriving DecidableEq

namespace Edge

/-- The edge with these successors, nearest first; equal longitudes keep their order. -/
def withSuccessors (edge : Edge) (successors : List Successor) : Edge :=
  { edge with successors := stableSort (fun a b => a.longitude ≤ b.longitude) successors }

def lists (edge : Edge) (node : NodeId) : Bool := edge.successors.any (·.node = node)

end Edge

namespace Graph

def empty : Graph := ⟨[], [], 0, 0, ∅, ∅, none⟩

instance : Inhabited Graph := ⟨empty⟩

def node? (graph : Graph) (id : NodeId) : Option Node := graph.nodes.find? (·.id = id)

def edge? (graph : Graph) (id : EdgeId) : Option Edge := graph.edges.find? (·.id = id)

def nodeAt? (graph : Graph) (path : TypePath) : Option Node := graph.nodes.find? (·.path = path)

/-- A node that must be in the graph. -/
def nodeOf (graph : Graph) (id : NodeId) : Except Fatal Node :=
  match graph.node? id with
  | some node => .ok node
  | none => .error (.missingNode id)

/-- The root node of `document` with this name. -/
def root? (graph : Graph) (document : DocumentId) (name : Name) : Option Node :=
  graph.nodeAt? ⟨document, [name], by simp⟩

def roots (graph : Graph) (document : DocumentId) : List Node :=
  graph.nodes.filter fun node => node.path.document = document && node.container.isNone

def contents (graph : Graph) (id : NodeId) : List Node :=
  graph.nodes.filter (·.container = some id)

/-- The node of this name directly inside a node. -/
def content? (graph : Graph) (id : NodeId) (name : Name) : Option Node :=
  (graph.contents id).find? (·.path.tip = name)

def outbounds (graph : Graph) (id : NodeId) : List Edge :=
  graph.edges.filter (·.predecessor = id)

/-- The edge that collects the annotations of a node with one name. -/
def outbound? (graph : Graph) (id : NodeId) (subject : Name) : Option Edge :=
  graph.edges.find? fun edge => edge.predecessor = id && edge.subject = subject

def declarationsAt (graph : Graph) (path : TypePath) : List SpanId :=
  match graph.nodeAt? path with
  | some node => node.declarations.toList
  | none => []

def modifyNode (graph : Graph) (id : NodeId) (change : Node → Node) : Graph :=
  { graph with nodes := graph.nodes.map fun node => if node.id = id then change node else node }

/-- Changes a node that must be in the graph. -/
def updateNode (graph : Graph) (id : NodeId) (change : Node → Node) : Except Fatal Graph := do
  let _ ← graph.nodeOf id
  return graph.modifyNode id change

def modifyEdge (graph : Graph) (id : EdgeId) (change : Edge → Edge) : Graph :=
  { graph with edges := graph.edges.map fun edge => if edge.id = id then change edge else edge }

/-! Successors. An annotation may mean any node of its name that its scopes show: the container of the
annotated node first, then each scope further out, up to the document root. They are looked up again
whenever a node of that name comes or goes in one of those scopes. -/

/-- The nodes named `subject` that the scopes around `path` show, nearest first. -/
def visible (graph : Graph) (path : TypePath) (subject : Name) : List Successor :=
  let named := graph.nodes.filter (·.path.tip = subject)
  let shown := named.filterMap fun node =>
    (path.longitude? node.path).map fun longitude => Successor.mk node.id longitude
  (List.range path.length).filterMap fun longitude => shown.find? (·.longitude = longitude)

/-- Takes an edge out of a node's inbound edges and puts it at their end if the node is listed. -/
def receive (edge : Edge) (node : Node) : Node :=
  let others := node.inbounds.erase edge.id
  { node with inbounds := if edge.lists node.id then others.insert edge.id else others }

/-- Replaces an edge by one with the same identity, on both of its ends. -/
def link (graph : Graph) (edge : Edge) : Graph :=
  let graph := graph.modifyEdge edge.id fun _ => edge
  { graph with nodes := graph.nodes.map (receive edge) }

/-- Goes outward from a container, each of which must be in the graph. Around a node stand fewer
containers than its path has names. -/
def outward (graph : Graph) : Nat → Option NodeId → Except Fatal Unit
  | 0, _ | _, none => .ok ()
  | bound + 1, some id => do
    let node ← graph.nodeOf id
    outward graph bound node.container

/-- The successors of an annotation of `predecessor`, whose containers are its scopes. -/
def successorsOf (graph : Graph) (predecessor : NodeId) (subject : Name) :
    Except Fatal (List Successor) := do
  let node ← graph.nodeOf predecessor
  graph.outward node.path.length node.container
  return graph.visible node.path subject

/-- Looks the successors of an edge up again. -/
def relink (graph : Graph) (id : EdgeId) : Except Fatal Graph :=
  match graph.edge? id with
  | none => .ok graph
  | some edge => do
    let successors ← graph.successorsOf edge.predecessor edge.subject
    return graph.link { edge with successors }

/-- An edge named `subject` that sees into `scope`; the document root is no scope, as all see it. -/
def sees (graph : Graph) (document : DocumentId) (subject : Name) (scope : Option TypePath)
    (edge : Edge) : Bool :=
  edge.subject = subject &&
    match graph.node? edge.predecessor with
    | none => false
    | some node => node.path.document = document && scope.all node.path.isWithin

/-- Looks up again every edge that `path` concerns, after its node came or went. -/
def refresh (graph : Graph) (path : TypePath) : Except Fatal Graph :=
  ((graph.edges.filter (graph.sees path.document path.tip path.container?)).map Edge.id).foldlM
    relink graph

/-! How nodes and edges come and go. A node is created inside its container, which must be there; it goes
once nothing lies in it, and takes its outbound edges along. -/

/-- The node in which `path` is to be created; none at the document root. -/
def containerOf (graph : Graph) (path : TypePath) : Except Fatal (Option NodeId) :=
  match path.container? with
  | none => .ok none
  | some outer =>
    match graph.nodeAt? outer with
    | some node => .ok (some node.id)
    | none => .error (.missingContainer outer path)

def createNode (graph : Graph) (path : TypePath) : Except Fatal (NodeId × Graph) := do
  let container ← graph.containerOf path
  let id := NodeId.mk graph.nextNode
  let node : Node := ⟨id, container, path, ∅, ∅⟩
  let graph := { graph with nodes := graph.nodes ++ [node], nextNode := graph.nextNode + 1 }
  return (id, ← graph.refresh path)

/-- Creates the edge of a node that an annotation of `subject` asserts. -/
def createEdge (graph : Graph) (predecessor : NodeId) (source : SpanId) (subject : Name) :
    Except Fatal Graph := do
  let successors ← graph.successorsOf predecessor subject
  let edge : Edge :=
    ⟨.mk graph.nextEdge, predecessor, subject, .ofList [source], successors⟩
  return { graph with
    edges := graph.edges ++ [edge]
    nodes := graph.nodes.map (receive edge)
    nextEdge := graph.nextEdge + 1 }

/-- Takes an edge off its predecessor and its successors. -/
def removeEdge (graph : Graph) (id : EdgeId) : Except Fatal Graph :=
  match graph.edge? id with
  | none => .ok graph
  | some edge => do
    let _ ← graph.nodeOf edge.predecessor
    return { graph with
      edges := graph.edges.filter (·.id ≠ id)
      nodes := graph.nodes.map fun node => { node with inbounds := node.inbounds.erase id } }

def removeNode (graph : Graph) (id : NodeId) : Except Fatal Graph := do
  let node ← graph.nodeOf id
  let graph ← ((graph.outbounds id).map Edge.id).foldlM removeEdge graph
  let contents := graph.contents id
  if contents.isEmpty then
    refresh { graph with nodes := graph.nodes.filter (·.id ≠ id) } node.path
  else .error (.occupiedNode node.path contents.length)

/-- Notes that `span` declares `path`, whose node is created if there is none. -/
def declare (graph : Graph) (path : TypePath) (span : SpanId) : Except Fatal (NodeId × Graph) := do
  let (id, graph) ← match graph.nodeAt? path with
    | some node => pure (node.id, graph)
    | none => graph.createNode path
  let graph ← graph.updateNode id fun node =>
    { node with declarations := node.declarations.insert span }
  return (id, graph)

/-- Notes that an annotation of a node asserts its edge, which is created if there is none. -/
def annotate (graph : Graph) (node : NodeId) (source : SpanId) (subject : Name) :
    Except Fatal Graph :=
  match graph.outbound? node subject with
  | some edge =>
    .ok (graph.modifyEdge edge.id fun edge => { edge with sources := edge.sources.insert source })
  | none => graph.createEdge node source subject

/-- Takes an annotation out of the sources of its edge. -/
def detach (graph : Graph) (node : NodeId) (source : SpanId) (subject : Name) : Graph :=
  match graph.outbound? node subject with
  | none => graph
  | some edge =>
    let rest := edge.sources.erase source
    let graph := graph.modifyEdge edge.id fun edge => { edge with sources := rest }
    if rest.isEmpty then { graph with emptiedEdges := graph.emptiedEdges.insert edge.id } else graph

/-- Takes a span out of the declarations of `path`, and its annotations off the node. -/
def withdraw (graph : Graph) (path : TypePath) (span : SpanId) (annotations : List Span) : Graph :=
  match graph.nodeAt? path with
  | none => graph
  | some node =>
    let rest := node.declarations.erase span
    let graph := graph.modifyNode node.id fun node => { node with declarations := rest }
    let graph := annotations.foldl (fun graph span =>
      graph.detach node.id span.id span.subject) graph
    if rest.isEmpty then { graph with emptiedNodes := graph.emptiedNodes.insert node.id } else graph

/-- Removes the emptied edges that are still empty, then the emptied nodes that are, deepest first. -/
def dispose (graph : Graph) : Except Fatal Graph := do
  let edges := graph.emptiedEdges.toList.filter fun id =>
    (graph.edge? id).any (·.sources.isEmpty)
  let nodes := graph.emptiedNodes.toList
  let graph := { graph with emptiedEdges := ∅, emptiedNodes := ∅ }
  let graph ← edges.foldlM removeEdge graph
  let empty := (nodes.filterMap graph.node?).filter (·.declarations.isEmpty)
  let deepestFirst := stableSort (fun a b => b.path.length ≤ a.path.length) empty
  (deepestFirst.map Node.id).foldlM removeNode graph

end Graph

/-! Regions of a document in the graph. Including a region declares what its lines say and then annotates
what they declare; excluding it takes both back, but disposes of nothing yet. -/

namespace Document

/-- The lines of a region that take part in the hierarchy, in order of depth. -/
def byDepth (document : Document) (region : List Nat) : List Nat :=
  let lines := region.filter fun index => (document.get? index).any fun line => !line.noop
  let placed := lines.map fun index => (document.depth index, index)
  (stableSort (fun a b => a.1 ≤ b.1) placed).map Prod.snd

/-- The annotations in `document` of the statements behind these declarations. -/
def annotationsOf (document : Document) (declarations : List SpanId) : List Span :=
  (OrderedSet.ofList (declarations.map SpanId.statement)).toList.flatMap fun id =>
    match document.statement? id with
    | some statement => statement.annotations
    | none => []

end Document

namespace Graph

/-- Declares one placement and adds its node to those `touched`. -/
def place (state : Graph × OrderedSet NodeId) (placement : Document.Placement) :
    Except Fatal (Graph × OrderedSet NodeId) := do
  let (graph, touched) := state
  let (id, graph) ← graph.declare placement.path placement.span.id
  return (graph, touched.insert id)

/-- Annotates a node with all that its declaring statements in `document` say. -/
def annotateAll (document : Document) (graph : Graph) (id : NodeId) : Except Fatal Graph := do
  let node ← graph.nodeOf id
  (document.annotationsOf node.declarations.toList).foldlM
    (fun graph span => graph.annotate id span.id span.subject) graph

/-- Containers come before their contents, and every declaration comes before the first annotation. -/
def includeRegion (graph : Graph) (document : Document) (region : List Nat) : Except Fatal Graph := do
  let placements := (document.byDepth region).flatMap document.placements
  let (graph, touched) ← placements.foldlM place (graph, ∅)
  touched.toList.foldlM (annotateAll document) graph

def excludeRegion (graph : Graph) (document : Document) (region : List Nat) : Graph :=
  (region.flatMap document.placements).foldl (fun graph placement =>
    graph.withdraw placement.path placement.span.id placement.statement.annotations) graph

/-- Announces a change of the lines under `parents`: the region as it is goes out of the graph. -/
def invalidate (graph : Graph) (document : Document) (parents : List StatementId) :
    Except Fatal Graph := do
  match graph.pending with
  | some pending => .error (.overlapping document.id pending)
  | none =>
    let region ← document.region parents
    return { graph with pending := some document.id }.excludeRegion document region

/-- Ends the change announced before: the region as it is now comes into the graph, and what is still
empty goes. -/
def revalidate (graph : Graph) (document : Document) (parents : List StatementId) :
    Except Fatal Graph := do
  if graph.pending = some document.id then
    let region ← document.region parents
    let graph ← { graph with pending := none }.includeRegion document region
    graph.dispose
  else .error (.unpaired document.id graph.pending)

/-- A call on a graph. -/
inductive Call where
  | invalidate (document : Document) (parents : List StatementId)
  | revalidate (document : Document) (parents : List StatementId)
  | inclusion (document : Document) (region : List Nat)
  | exclusion (document : Document) (region : List Nat)

def call (graph : Graph) : Call → Except Fatal Graph
  | .invalidate document parents => graph.invalidate document parents
  | .revalidate document parents => graph.revalidate document parents
  | .inclusion document region => graph.includeRegion document region
  | .exclusion document region => .ok (graph.excludeRegion document region)

/-- What the calls come to, one after the other. -/
def callAll (graph : Graph) (calls : List Call) : Except Fatal Graph := calls.foldlM call graph

end Graph
end OutlineTypes
