import OutlineTypes.Proofs.Graph.Creation

/-! The identities of nodes and edges over time. A number that was given out once stands for the same node
or edge for good, even after that is gone; and a graph that grows keeps all nodes and edges it has. -/
namespace OutlineTypes.Graph

/-- Every node and edge was there before, or has a number that had not been given out. -/
structure Descends (graph next : Graph) : Prop where
  nextNode : graph.nextNode ≤ next.nextNode
  nextEdge : graph.nextEdge ≤ next.nextEdge
  nodes : ∀ now ∈ next.nodes,
    (∃ node ∈ graph.nodes, node.shape = now.shape) ∨ graph.nextNode ≤ now.id.index
  edges : ∀ now ∈ next.edges,
    (∃ edge ∈ graph.edges, edge.shape = now.shape) ∨ graph.nextEdge ≤ now.id.index

/-- No node or edge went. -/
structure Grows (graph next : Graph) : Prop extends Descends graph next where
  nodesKept : ∀ node ∈ graph.nodes, ∃ now ∈ next.nodes, now.shape = node.shape
  edgesKept : ∀ edge ∈ graph.edges, ∃ now ∈ next.edges, now.shape = edge.shape

variable {graph mid next : Graph}

namespace Descends

theorem refl (graph : Graph) : Descends graph graph :=
  ⟨Nat.le_refl _, Nat.le_refl _, fun node member => .inl ⟨node, member, rfl⟩,
    fun edge member => .inl ⟨edge, member, rfl⟩⟩

theorem trans (first : Descends graph mid) (second : Descends mid next) : Descends graph next where
  nextNode := Nat.le_trans first.nextNode second.nextNode
  nextEdge := Nat.le_trans first.nextEdge second.nextEdge
  nodes now member := by
    rcases second.nodes now member with ⟨between, present, same⟩ | new
    · have id : between.id = now.id := congrArg (·.id) same
      rw [← same, ← id]
      exact first.nodes between present
    · exact .inr (Nat.le_trans first.nextNode new)
  edges now member := by
    rcases second.edges now member with ⟨between, present, same⟩ | new
    · have id : between.id = now.id := congrArg (·.id) same
      rw [← same, ← id]
      exact first.edges between present
    · exact .inr (Nat.le_trans first.nextEdge new)

end Descends

theorem SameShape.grows (same : SameShape graph next) : Grows graph next where
  nextNode := Nat.le_of_eq same.nextNode.symm
  nextEdge := Nat.le_of_eq same.nextEdge.symm
  nodes _ member := .inl (same.node_of_mem member)
  edges _ member := .inl (same.edge_of_mem member)
  nodesKept _ member := same.symm.node_of_mem member
  edgesKept _ member := same.symm.edge_of_mem member

namespace Grows

theorem refl (graph : Graph) : Grows graph graph where
  toDescends := .refl graph
  nodesKept node member := ⟨node, member, rfl⟩
  edgesKept edge member := ⟨edge, member, rfl⟩

theorem trans (first : Grows graph mid) (second : Grows mid next) : Grows graph next where
  toDescends := first.toDescends.trans second.toDescends
  nodesKept node member := by
    obtain ⟨between, present, same⟩ := first.nodesKept node member
    obtain ⟨now, found, shape⟩ := second.nodesKept between present
    exact ⟨now, found, shape.trans same⟩
  edgesKept edge member := by
    obtain ⟨between, present, same⟩ := first.edgesKept edge member
    obtain ⟨now, found, shape⟩ := second.edgesKept between present
    exact ⟨now, found, shape.trans same⟩

end Grows

theorem grows_addNode (graph : Graph) (container : Option NodeId) (path : TypePath) :
    Grows graph (graph.addNode container path) where
  nextNode := Nat.le_succ _
  nextEdge := Nat.le_refl _
  nodes now member := by
    rcases mem_nodes_addNode.mp member with before | rfl
    · exact .inl ⟨now, before, rfl⟩
    · exact .inr (Nat.le_refl _)
  edges now member := .inl ⟨now, member, rfl⟩
  nodesKept node member := ⟨node, mem_nodes_addNode.mpr (.inl member), rfl⟩
  edgesKept edge member := ⟨edge, member, rfl⟩

theorem grows_addEdge (graph : Graph) (predecessor : NodeId) (source : SpanId) (subject : Name) :
    Grows graph (graph.addEdge predecessor source subject) where
  nextNode := Nat.le_refl _
  nextEdge := Nat.le_succ _
  nodes now member := .inl ⟨now, member, rfl⟩
  edges now member := by
    rcases mem_edges_addEdge.mp member with before | rfl
    · exact .inl ⟨now, before, rfl⟩
    · exact .inr (Nat.le_refl _)
  nodesKept node member := ⟨node, member, rfl⟩
  edgesKept edge member := ⟨edge, mem_edges_addEdge.mpr (.inl member), rfl⟩

end OutlineTypes.Graph
