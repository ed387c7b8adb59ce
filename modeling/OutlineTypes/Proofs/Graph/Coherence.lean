import OutlineTypes.Graph
import OutlineTypes.Proofs.Lists
import OutlineTypes.Proofs.Success

/-! Coherent graphs. The identities and paths of nodes are unique, a node's container is the node at the
path around it, and both ends of every edge agree with the scopes of its predecessor. Successors and
inbound edges follow from the rest, so that an operation is known by what it does to the rest. -/
namespace OutlineTypes

/-- The node without what follows from other parts of the graph. -/
def Node.bare (node : Node) : Node := { node with inbounds := ∅ }

/-- The edge without what follows from other parts of the graph. -/
def Edge.bare (edge : Edge) : Edge := { edge with successors := [] }

/-- The node without its spans, too. -/
def Node.shape (node : Node) : Node := { node with declarations := ∅, inbounds := ∅ }

/-- The edge without its spans, too. -/
def Edge.shape (edge : Edge) : Edge := { edge with sources := ∅, successors := [] }

namespace Graph

/-- Everything but that the successors of edges are up to date. -/
structure Framed (graph : Graph) : Prop where
  nodeIds : (graph.nodes.map Node.id).Nodup
  nodesBelow : ∀ node ∈ graph.nodes, node.id.index < graph.nextNode
  paths : (graph.nodes.map Node.path).Nodup
  roots : ∀ node ∈ graph.nodes, node.path.container? = none → node.container = none
  containers : ∀ node ∈ graph.nodes, ∀ outer, node.path.container? = some outer →
    ∃ around ∈ graph.nodes, around.path = outer ∧ node.container = some around.id
  edgeIds : (graph.edges.map Edge.id).Nodup
  edgesBelow : ∀ edge ∈ graph.edges, edge.id.index < graph.nextEdge
  assertions : (graph.edges.map fun edge => (edge.predecessor, edge.subject)).Nodup
  predecessors : ∀ edge ∈ graph.edges, ∃ node ∈ graph.nodes, node.id = edge.predecessor
  inbounds : ∀ node ∈ graph.nodes, ∀ id,
    id ∈ node.inbounds ↔ ∃ edge ∈ graph.edges, edge.id = id ∧ edge.lists node.id

/-- The successors of the edge are what the scopes of its predecessor show. -/
def UpToDate (graph : Graph) (edge : Edge) : Prop :=
  ∀ node ∈ graph.nodes, node.id = edge.predecessor →
    edge.successors = graph.visible node.path edge.subject

structure Coherent (graph : Graph) : Prop extends Framed graph where
  successors : ∀ edge ∈ graph.edges, graph.UpToDate edge

theorem coherent_empty : empty.Coherent := by
  constructor
  · constructor <;> simp [empty]
  · simp [empty]

section Lookup

variable {graph : Graph}

theorem Framed.node?_eq_some_iff (framed : graph.Framed) {id : NodeId} {node : Node} :
    graph.node? id = some node ↔ node ∈ graph.nodes ∧ node.id = id :=
  find?_key_eq_some_iff framed.nodeIds

theorem Framed.node?_id (framed : graph.Framed) {node : Node} (member : node ∈ graph.nodes) :
    graph.node? node.id = some node := framed.node?_eq_some_iff.mpr ⟨member, rfl⟩

theorem Framed.nodeOf_id (framed : graph.Framed) {node : Node} (member : node ∈ graph.nodes) :
    graph.nodeOf node.id = .ok node := by
  simp only [nodeOf, framed.node?_id member]

theorem Framed.nodeAt?_eq_some_iff (framed : graph.Framed) {path : TypePath} {node : Node} :
    graph.nodeAt? path = some node ↔ node ∈ graph.nodes ∧ node.path = path :=
  find?_key_eq_some_iff framed.paths

theorem nodeAt?_eq_none_iff {path : TypePath} :
    graph.nodeAt? path = none ↔ ∀ node ∈ graph.nodes, node.path ≠ path := find?_key_eq_none_iff

theorem Framed.edge?_eq_some_iff (framed : graph.Framed) {id : EdgeId} {edge : Edge} :
    graph.edge? id = some edge ↔ edge ∈ graph.edges ∧ edge.id = id :=
  find?_key_eq_some_iff framed.edgeIds

theorem edge?_eq_none_iff {id : EdgeId} :
    graph.edge? id = none ↔ ∀ edge ∈ graph.edges, edge.id ≠ id := find?_key_eq_none_iff

theorem outbound?_eq_find? (id : NodeId) (subject : Name) :
    graph.outbound? id subject =
      graph.edges.find? fun edge => (edge.predecessor, edge.subject) = (id, subject) := by
  simp [outbound?, Bool.decide_and]

theorem Framed.outbound?_eq_some_iff (framed : graph.Framed) {id : NodeId} {subject : Name}
    {edge : Edge} : graph.outbound? id subject = some edge ↔
      edge ∈ graph.edges ∧ edge.predecessor = id ∧ edge.subject = subject := by
  rw [outbound?_eq_find?, find?_key_eq_some_iff framed.assertions, Prod.mk.injEq]

theorem outbound?_eq_none_iff {id : NodeId} {subject : Name} :
    graph.outbound? id subject = none ↔
      ∀ edge ∈ graph.edges, ¬(edge.predecessor = id ∧ edge.subject = subject) := by
  rw [outbound?_eq_find?]
  simp

end Lookup

/-- The graphs have the same nodes and edges, whatever spans and successors they have. -/
structure SameShape (graph other : Graph) : Prop where
  nodes : other.nodes.map Node.shape = graph.nodes.map Node.shape
  edges : other.edges.map Edge.shape = graph.edges.map Edge.shape
  nextNode : other.nextNode = graph.nextNode
  nextEdge : other.nextEdge = graph.nextEdge

namespace SameShape

variable {graph other : Graph}

theorem symm (same : SameShape graph other) : SameShape other graph :=
  ⟨same.nodes.symm, same.edges.symm, same.nextNode.symm, same.nextEdge.symm⟩

theorem node_of_mem (same : SameShape graph other) {node : Node} (member : node ∈ other.nodes) :
    ∃ before ∈ graph.nodes, before.shape = node.shape := by
  have shape : node.shape ∈ other.nodes.map Node.shape := List.mem_map_of_mem member
  rw [same.nodes] at shape
  exact List.mem_map.mp shape

theorem edge_of_mem (same : SameShape graph other) {edge : Edge} (member : edge ∈ other.edges) :
    ∃ before ∈ graph.edges, before.shape = edge.shape := by
  have shape : edge.shape ∈ other.edges.map Edge.shape := List.mem_map_of_mem member
  rw [same.edges] at shape
  exact List.mem_map.mp shape

/-- What is read off the shapes of nodes is the same in both graphs. -/
theorem map_nodes (same : SameShape graph other) {f : Node → γ}
    (shape : ∀ node, f node.shape = f node) : other.nodes.map f = graph.nodes.map f := by
  have factor (g : Graph) : g.nodes.map f = (g.nodes.map Node.shape).map f := by
    rw [List.map_map]
    exact List.map_congr_left fun node _ => (shape node).symm
  rw [factor, same.nodes, ← factor]

theorem map_edges (same : SameShape graph other) {f : Edge → γ}
    (shape : ∀ edge, f edge.shape = f edge) : other.edges.map f = graph.edges.map f := by
  have factor (g : Graph) : g.edges.map f = (g.edges.map Edge.shape).map f := by
    rw [List.map_map]
    exact List.map_congr_left fun edge _ => (shape edge).symm
  rw [factor, same.edges, ← factor]

/-- Agreement on inbound edges is all that the frame of a graph asks for beyond its shape. -/
theorem framed (same : SameShape graph other) (before : graph.Framed)
    (inbounds : ∀ node ∈ other.nodes, ∀ id,
      id ∈ node.inbounds ↔ ∃ edge ∈ other.edges, edge.id = id ∧ edge.lists node.id) :
    other.Framed where
  nodeIds := by
    rw [same.map_nodes (f := Node.id) fun _ => rfl]
    exact before.nodeIds
  nodesBelow node member := by
    obtain ⟨old, present, shape⟩ := same.node_of_mem member
    have id : old.id = node.id := congrArg (·.id) shape
    rw [← id, same.nextNode]
    exact before.nodesBelow old present
  paths := by
    rw [same.map_nodes (f := Node.path) fun _ => rfl]
    exact before.paths
  roots node member root := by
    obtain ⟨old, present, shape⟩ := same.node_of_mem member
    have path : old.path = node.path := congrArg (·.path) shape
    have container : old.container = node.container := congrArg (·.container) shape
    rw [← container]
    exact before.roots old present (path ▸ root)
  containers node member outer inside := by
    obtain ⟨old, present, shape⟩ := same.node_of_mem member
    have path : old.path = node.path := congrArg (·.path) shape
    have container : old.container = node.container := congrArg (·.container) shape
    obtain ⟨around, among, rfl, held⟩ := before.containers old present outer (path ▸ inside)
    obtain ⟨now, found, nowShape⟩ := same.symm.node_of_mem among
    have nowId : now.id = around.id := congrArg (·.id) nowShape
    have nowPath : now.path = around.path := congrArg (·.path) nowShape
    exact ⟨now, found, nowPath, by rw [← container, held, nowId]⟩
  edgeIds := by
    rw [same.map_edges (f := Edge.id) fun _ => rfl]
    exact before.edgeIds
  edgesBelow edge member := by
    obtain ⟨old, present, shape⟩ := same.edge_of_mem member
    have id : old.id = edge.id := congrArg (·.id) shape
    rw [← id, same.nextEdge]
    exact before.edgesBelow old present
  assertions := by
    rw [same.map_edges (f := fun edge => (edge.predecessor, edge.subject)) fun _ => rfl]
    exact before.assertions
  predecessors edge member := by
    obtain ⟨old, present, shape⟩ := same.edge_of_mem member
    have predecessor : old.predecessor = edge.predecessor := congrArg (·.predecessor) shape
    obtain ⟨node, among, id⟩ := before.predecessors old present
    obtain ⟨now, found, nowShape⟩ := same.symm.node_of_mem among
    have nowId : now.id = node.id := congrArg (·.id) nowShape
    exact ⟨now, found, nowId.trans (id.trans predecessor)⟩
  inbounds := inbounds

end SameShape

/-- The graphs differ in successors and inbound edges only. -/
structure Alike (graph other : Graph) : Prop where
  nodes : other.nodes.map Node.bare = graph.nodes.map Node.bare
  edges : other.edges.map Edge.bare = graph.edges.map Edge.bare
  nextNode : other.nextNode = graph.nextNode
  nextEdge : other.nextEdge = graph.nextEdge
  emptiedNodes : other.emptiedNodes = graph.emptiedNodes
  emptiedEdges : other.emptiedEdges = graph.emptiedEdges
  pending : other.pending = graph.pending

namespace Alike

variable {graph other third : Graph}

theorem refl (graph : Graph) : Alike graph graph := ⟨rfl, rfl, rfl, rfl, rfl, rfl, rfl⟩

theorem trans (first : Alike graph other) (second : Alike other third) : Alike graph third :=
  ⟨second.nodes.trans first.nodes, second.edges.trans first.edges,
    second.nextNode.trans first.nextNode, second.nextEdge.trans first.nextEdge,
    second.emptiedNodes.trans first.emptiedNodes, second.emptiedEdges.trans first.emptiedEdges,
    second.pending.trans first.pending⟩

theorem symm (alike : Alike graph other) : Alike other graph :=
  ⟨alike.nodes.symm, alike.edges.symm, alike.nextNode.symm, alike.nextEdge.symm,
    alike.emptiedNodes.symm, alike.emptiedEdges.symm, alike.pending.symm⟩

theorem node_of_mem (alike : Alike graph other) {node : Node} (member : node ∈ other.nodes) :
    ∃ before ∈ graph.nodes, before.bare = node.bare := by
  have bare : node.bare ∈ other.nodes.map Node.bare := List.mem_map_of_mem member
  rw [alike.nodes] at bare
  exact List.mem_map.mp bare

theorem edge_of_mem (alike : Alike graph other) {edge : Edge} (member : edge ∈ other.edges) :
    ∃ before ∈ graph.edges, before.bare = edge.bare := by
  have bare : edge.bare ∈ other.edges.map Edge.bare := List.mem_map_of_mem member
  rw [alike.edges] at bare
  exact List.mem_map.mp bare

theorem map_nodes (alike : Alike graph other) {f : Node → γ} (bare : ∀ node, f node.bare = f node) :
    other.nodes.map f = graph.nodes.map f := by
  have factor (g : Graph) : g.nodes.map f = (g.nodes.map Node.bare).map f := by
    rw [List.map_map]
    exact List.map_congr_left fun node _ => (bare node).symm
  rw [factor, alike.nodes, ← factor]

theorem map_edges (alike : Alike graph other) {f : Edge → γ} (bare : ∀ edge, f edge.bare = f edge) :
    other.edges.map f = graph.edges.map f := by
  have factor (g : Graph) : g.edges.map f = (g.edges.map Edge.bare).map f := by
    rw [List.map_map]
    exact List.map_congr_left fun edge _ => (bare edge).symm
  rw [factor, alike.edges, ← factor]

theorem sameShape (alike : Alike graph other) : SameShape graph other :=
  ⟨alike.map_nodes fun _ => rfl, alike.map_edges fun _ => rfl, alike.nextNode, alike.nextEdge⟩

end Alike

end Graph
end OutlineTypes
