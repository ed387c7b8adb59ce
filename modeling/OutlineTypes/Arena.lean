import OutlineTypes.Graph

/-! The declaration graph with its indexes. Nodes are found by path, root nodes by document and name, and edges
by document and subject; a node lists what lies in it and the edges out of it. Each operation keeps the indexes
that it concerns by hand, entry by entry, and reads them instead of the lists. -/
namespace OutlineTypes

/-- A node with what lies in it and what leaves it, by name. -/
structure Cell extends Node where
  /-- The edge of each annotated name. -/
  outbounds : OrderedMap Name EdgeId
  contents : OrderedMap Name NodeId
deriving DecidableEq

/-- Nodes and edges in creation order, and the indexes to them. -/
structure Arena where
  nodes : List Cell
  edges : List Edge
  nextNode : Nat
  nextEdge : Nat
  byPath : OrderedMap TypePath NodeId
  roots : OrderedMap DocumentId (OrderedMap Name NodeId)
  /-- The edges of each annotated name, to be looked up again when a node of that name comes or goes. -/
  bySubject : OrderedMap (DocumentId × Name) (OrderedSet EdgeId)
  /-- Nodes and edges that lost their last span since the last disposal. -/
  emptiedNodes : OrderedSet NodeId
  emptiedEdges : OrderedSet EdgeId
  /-- The document whose change is under way. -/
  pending : Option DocumentId
deriving DecidableEq

namespace Arena

def empty : Arena := ⟨[], [], 0, 0, ∅, ∅, ∅, ∅, ∅, none⟩

instance : Inhabited Arena := ⟨empty⟩

def node? (arena : Arena) (id : NodeId) : Option Cell := arena.nodes.find? (·.id = id)

def edge? (arena : Arena) (id : EdgeId) : Option Edge := arena.edges.find? (·.id = id)

/-- A node that must be in the arena. -/
def nodeOf (arena : Arena) (id : NodeId) : Except Fatal Cell :=
  match arena.node? id with
  | some cell => .ok cell
  | none => .error (.missingNode id)

def modifyNode (arena : Arena) (id : NodeId) (change : Cell → Cell) : Arena :=
  { arena with nodes := arena.nodes.map fun cell => if cell.id = id then change cell else cell }

/-- Changes a node that must be in the arena. -/
def updateNode (arena : Arena) (id : NodeId) (change : Cell → Cell) : Except Fatal Arena := do
  let _ ← arena.nodeOf id
  return arena.modifyNode id change

def modifyEdge (arena : Arena) (id : EdgeId) (change : Edge → Edge) : Arena :=
  { arena with edges := arena.edges.map fun edge => if edge.id = id then change edge else edge }

/-! Successors are looked up by going outward from the container of a node and asking each scope for its node
of the name. -/

/-- The node of this name that a scope lists; the document root lists its roots. -/
def listed? (arena : Arena) (document : DocumentId) (subject : Name) : Option Cell → Option NodeId
  | some around => around.contents.find? subject
  | none => (arena.roots.find? document).bind (·.find? subject)

/-- Goes outward from a scope. Around a node stand no more scopes than its path has names. -/
def walk (arena : Arena) (document : DocumentId) (subject : Name) :
    Nat → Nat → Option NodeId → Except Fatal (List Successor)
  | _, longitude, none =>
    .ok ((arena.listed? document subject none).toList.map (Successor.mk · longitude))
  | 0, _, some _ => .error .bottomless
  | bound + 1, longitude, some id => do
    let around ← arena.nodeOf id
    let further ← arena.walk document subject bound (longitude + 1) around.container
    return (arena.listed? document subject (some around)).toList.map (Successor.mk · longitude) ++ further

/-- Changes the node of each of these successors. -/
def modifySuccessors (arena : Arena) (successors : List Successor) (change : Cell → Cell) : Arena :=
  successors.foldl (fun arena successor => arena.modifyNode successor.node change) arena

/-- Takes an edge out of the inbound edges of the nodes it had as successors. -/
def forget (arena : Arena) (id : EdgeId) (successors : List Successor) : Arena :=
  arena.modifySuccessors successors fun cell => { cell with inbounds := cell.inbounds.erase id }

/-- Puts an edge among the inbound edges of its successors. -/
def note (arena : Arena) (id : EdgeId) (successors : List Successor) : Arena :=
  arena.modifySuccessors successors fun cell => { cell with inbounds := cell.inbounds.insert id }

/-- Looks the successors of an edge up again, on both of its ends. -/
def relink (arena : Arena) (id : EdgeId) : Except Fatal Arena :=
  match arena.edge? id with
  | none => .ok arena
  | some edge => do
    let cell ← arena.nodeOf edge.predecessor
    let found ← arena.walk cell.path.document edge.subject cell.path.length 0 cell.container
    let changed := edge.withSuccessors found
    let arena := arena.modifyEdge id fun _ => changed
    return (arena.forget id edge.successors).note id changed.successors

/-- The predecessor of the edge sees into `scope`; the document root is no scope, as all see it. -/
def seesInto (arena : Arena) (scope : Option TypePath) (id : EdgeId) : Bool :=
  match arena.edge? id with
  | none => false
  | some edge =>
    match arena.node? edge.predecessor with
    | none => false
    | some cell => scope.all cell.path.isWithin

/-- Looks up again every edge that `path` concerns, after its node came or went. -/
def refresh (arena : Arena) (path : TypePath) : Except Fatal Arena :=
  match arena.bySubject.find? (path.document, path.tip) with
  | none => .ok arena
  | some ids => (ids.toList.filter (arena.seesInto path.container?)).foldlM relink arena

/-! How nodes and edges come and go. A node is created inside its container, which must be there; it goes once
nothing lies in it, and takes its outbound edges along. -/

/-- The node in which `path` is to be created; none at the document root. -/
def containerOf (arena : Arena) (path : TypePath) : Except Fatal (Option NodeId) :=
  match path.container? with
  | none => .ok none
  | some outer =>
    match arena.byPath.find? outer with
    | some id => .ok (some id)
    | none => .error (.missingContainer outer path)

/-- Lists a node in its container or among the roots of its document. -/
def enlist (arena : Arena) (id : NodeId) (path : TypePath) : Option NodeId → Except Fatal Arena
  | some around => arena.updateNode around fun cell =>
    { cell with contents := cell.contents.insert path.tip id }
  | none => .ok { arena with roots := arena.roots.alter path.document (·.insert path.tip id) }

def createNode (arena : Arena) (path : TypePath) : Except Fatal (NodeId × Arena) := do
  let container ← arena.containerOf path
  let id := NodeId.mk arena.nextNode
  let arena ← arena.enlist id path container
  let cell : Cell := ⟨⟨id, container, path, ∅, ∅⟩, ∅, ∅⟩
  let arena := { arena with
    nodes := arena.nodes ++ [cell]
    nextNode := arena.nextNode + 1
    byPath := arena.byPath.insert path id }
  return (id, ← arena.refresh path)

/-- Creates the edge of a node that annotations with `subject` assert, still without sources. -/
def createEdge (arena : Arena) (predecessor : NodeId) (subject : Name) : Except Fatal (EdgeId × Arena) := do
  let id := EdgeId.mk arena.nextEdge
  let cell ← arena.nodeOf predecessor
  let arena := arena.modifyNode predecessor fun cell =>
    { cell with outbounds := cell.outbounds.insert subject id }
  let edge : Edge := ⟨id, predecessor, subject, ∅, []⟩
  let arena := { arena with
    edges := arena.edges ++ [edge]
    nextEdge := arena.nextEdge + 1
    bySubject := arena.bySubject.alter (cell.path.document, subject) (·.insert id) }
  return (id, ← arena.relink id)

/-- Takes an edge off its predecessor and its successors. -/
def removeEdge (arena : Arena) (id : EdgeId) : Except Fatal Arena :=
  match arena.edge? id with
  | none => .ok arena
  | some edge => do
    let arena := { arena with edges := arena.edges.filter (·.id ≠ id) }
    let cell ← arena.nodeOf edge.predecessor
    let arena := if cell.outbounds.find? edge.subject = some id
      then arena.modifyNode edge.predecessor fun cell =>
        { cell with outbounds := cell.outbounds.erase edge.subject }
      else arena
    let arena := arena.forget id edge.successors
    return { arena with
      bySubject := arena.bySubject.prune (·.isEmpty) (cell.path.document, edge.subject) (·.erase id) }

/-- Takes a node off the list of its container or of the roots of its document. -/
def delist (arena : Arena) (path : TypePath) : Option NodeId → Arena
  | some around => arena.modifyNode around fun cell =>
    { cell with contents := cell.contents.erase path.tip }
  | none => { arena with roots := arena.roots.prune (·.isEmpty) path.document (·.erase path.tip) }

def removeNode (arena : Arena) (id : NodeId) : Except Fatal Arena := do
  let cell ← arena.nodeOf id
  let arena ← cell.outbounds.values.foldlM removeEdge arena
  match arena.node? id with
  | none => return arena
  | some cell =>
    if cell.contents.isEmpty then
      let arena := { arena with nodes := arena.nodes.filter (·.id ≠ id) }
      let arena := arena.delist cell.path cell.container
      refresh { arena with byPath := arena.byPath.erase cell.path } cell.path
    else .error (.occupiedNode cell.path cell.contents.size)

/-- Notes that `span` declares `path`, whose node is created if there is none. -/
def declare (arena : Arena) (path : TypePath) (span : SpanId) : Except Fatal (NodeId × Arena) := do
  let (id, arena) ← match arena.byPath.find? path with
    | some id => pure (id, arena)
    | none => arena.createNode path
  let arena ← arena.updateNode id fun cell =>
    { cell with declarations := cell.declarations.insert span }
  return (id, arena)

/-- Notes that an annotation of a node asserts its edge, which is created if there is none. -/
def annotate (arena : Arena) (node : NodeId) (source : SpanId) (subject : Name) : Except Fatal Arena := do
  let cell ← arena.nodeOf node
  let (id, arena) ← match cell.outbounds.find? subject with
    | some id => pure (id, arena)
    | none => arena.createEdge node subject
  return arena.modifyEdge id fun edge => { edge with sources := edge.sources.insert source }

/-- Takes an annotation out of the sources of its edge. -/
def detach (outbounds : OrderedMap Name EdgeId) (arena : Arena) (span : Span) : Arena :=
  match outbounds.find? span.subject with
  | none => arena
  | some id =>
    match arena.edge? id with
    | none => arena
    | some edge =>
      let rest := edge.sources.erase span.id
      let arena := arena.modifyEdge id fun edge => { edge with sources := rest }
      if rest.isEmpty then { arena with emptiedEdges := arena.emptiedEdges.insert id } else arena

/-- Takes a span out of the declarations of `path`, and its annotations off the node. -/
def withdraw (arena : Arena) (path : TypePath) (span : SpanId) (annotations : List Span) : Arena :=
  match (arena.byPath.find? path).bind arena.node? with
  | none => arena
  | some cell =>
    let rest := cell.declarations.erase span
    let arena := arena.modifyNode cell.id fun cell => { cell with declarations := rest }
    let arena := annotations.foldl (detach cell.outbounds) arena
    if rest.isEmpty then { arena with emptiedNodes := arena.emptiedNodes.insert cell.id } else arena

/-- Removes the emptied edges that are still empty, then the emptied nodes that are, deepest first. -/
def dispose (arena : Arena) : Except Fatal Arena := do
  let edges := arena.emptiedEdges.toList.filter fun id =>
    (arena.edge? id).any (·.sources.isEmpty)
  let nodes := arena.emptiedNodes.toList
  let arena := { arena with emptiedEdges := ∅, emptiedNodes := ∅ }
  let arena ← edges.foldlM removeEdge arena
  let empty := (nodes.filterMap arena.node?).filter (·.declarations.isEmpty)
  let deepestFirst := stableSort (fun a b : Cell => b.path.length ≤ a.path.length) empty
  (deepestFirst.map fun cell => cell.id).foldlM removeNode arena

/-! Regions of a document. -/

/-- Declares one placement and adds its node to those `touched`. -/
def place (state : Arena × OrderedSet NodeId) (placement : Document.Placement) :
    Except Fatal (Arena × OrderedSet NodeId) := do
  let (arena, touched) := state
  let (id, arena) ← arena.declare placement.path placement.span.id
  return (arena, touched.insert id)

/-- Annotates a node with all that its declaring statements in `document` say. -/
def annotateAll (document : Document) (arena : Arena) (id : NodeId) : Except Fatal Arena := do
  let cell ← arena.nodeOf id
  (document.annotationsOf cell.declarations.toList).foldlM
    (fun arena span => arena.annotate id span.id span.subject) arena

/-- Containers come before their contents, and every declaration comes before the first annotation. -/
def includeRegion (arena : Arena) (document : Document) (region : List Nat) : Except Fatal Arena := do
  let placements := (document.byDepth region).flatMap document.placements
  let (arena, touched) ← placements.foldlM place (arena, ∅)
  touched.toList.foldlM (annotateAll document) arena

def excludeRegion (arena : Arena) (document : Document) (region : List Nat) : Arena :=
  (region.flatMap document.placements).foldl (fun arena placement =>
    arena.withdraw placement.path placement.span.id placement.statement.annotations) arena

/-- Announces a change of the lines under `parents`: the region as it is goes out of the arena. -/
def invalidate (arena : Arena) (document : Document) (parents : List StatementId) : Except Fatal Arena := do
  match arena.pending with
  | some pending => .error (.overlapping document.id pending)
  | none =>
    let region ← document.region parents
    return { arena with pending := some document.id }.excludeRegion document region

/-- Ends the change announced before: the region as it is now comes into the arena, and what is still empty
goes. -/
def revalidate (arena : Arena) (document : Document) (parents : List StatementId) : Except Fatal Arena := do
  if arena.pending = some document.id then
    let region ← document.region parents
    let arena ← { arena with pending := none }.includeRegion document region
    arena.dispose
  else .error (.unpaired document.id arena.pending)

def call (arena : Arena) : Graph.Call → Except Fatal Arena
  | .invalidate document parents => arena.invalidate document parents
  | .revalidate document parents => arena.revalidate document parents
  | .inclusion document region => arena.includeRegion document region
  | .exclusion document region => .ok (arena.excludeRegion document region)

/-- What the calls come to, one after the other. -/
def callAll (arena : Arena) (calls : List Graph.Call) : Except Fatal Arena :=
  calls.foldlM call arena

end Arena
end OutlineTypes
