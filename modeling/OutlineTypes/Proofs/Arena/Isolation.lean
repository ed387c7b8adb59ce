import OutlineTypes.Proofs.Arena.Consistency

/-! What an arena has of one document. It is determined by the nodes and edges of the document in the graph: where
these are the same in two arenas, so is all that the indexes say of them. -/
namespace OutlineTypes

namespace Graph

variable {graph next : Graph} {document : DocumentId}

theorem roots_eq (graph : Graph) (document : DocumentId) :
    graph.roots document = (graph.nodesIn document).filter (·.container.isNone) := by
  rw [roots, nodesIn, List.filter_filter]
  exact List.filter_congr fun _ _ => Bool.and_comm _ _

theorem nodeAt?_eq_find? (graph : Graph) (path : TypePath) :
    graph.nodeAt? path = (graph.nodesIn path.document).find? (·.path = path) := by
  rw [nodeAt?, nodesIn, List.find?_filter]
  congr 1
  funext node
  by_cases same : node.path = path <;> simp [same]

theorem Framed.contents_eq (framed : graph.Framed) {node : Node} (member : node ∈ graph.nodesIn document) :
    graph.contents node.id = (graph.nodesIn document).filter (·.container = some node.id) := by
  obtain ⟨listed, ours⟩ := mem_nodesIn.mp member
  rw [contents, nodesIn, List.filter_filter]
  refine List.filter_congr fun inner among => Eq.symm (Bool.and_eq_left_iff_imp.mpr fun held => ?_)
  have inside := framed.container?_of_container among listed (of_decide_eq_true held)
  exact decide_eq_true ((TypePath.of_container? inside).1.symm.trans ours)

theorem outbounds_eq {node : Node} (member : node ∈ graph.nodesIn document) :
    graph.outbounds node.id = (graph.edgesIn document).filter (·.predecessor = node.id) := by
  rw [outbounds, edgesIn, List.filter_filter]
  refine List.filter_congr fun edge _ => Eq.symm (Bool.and_eq_left_iff_imp.mpr fun leaves => ?_)
  exact List.any_eq_true.mpr ⟨node, member, by simpa [eq_comm] using leaves⟩

theorem Framed.named_eq (framed : graph.Framed) (document : DocumentId) (subject : Name) :
    graph.named (document, subject) = (graph.edgesIn document).filter (·.subject = subject) := by
  rw [named, edgesIn, List.filter_filter]
  refine List.filter_congr fun edge listed => ?_
  have out : ((graph.nodesIn document).any (·.id = edge.predecessor)) =
      (graph.node? edge.predecessor).any (·.path.document = document) := by
    rw [Bool.eq_iff_iff, List.any_eq_true, Option.any_eq_true]
    simp only [mem_nodesIn, framed.node?_eq_some_iff, decide_eq_true_eq]
    exact exists_congr fun node => and_right_comm
  rw [out, sees_none]

end Graph

namespace Arena

open OutlineTypes.Graph (Intact)

variable {arena next : Arena} {id : DocumentId}

/-- The nodes of a document. -/
def cellsIn (arena : Arena) (document : DocumentId) : List Cell :=
  arena.nodes.filter (·.path.document = document)

/-- The edges out of the nodes of a document. -/
def edgesIn (arena : Arena) (document : DocumentId) : List Edge :=
  arena.edges.filter fun edge => (arena.cellsIn document).any (·.id = edge.predecessor)

/-- All that belongs to other documents is as it was, and listed as it was. -/
structure Isolated (arena : Arena) (id : DocumentId) (next : Arena) : Prop where
  nodes : ∀ other, other ≠ id → next.cellsIn other = arena.cellsIn other
  edges : ∀ other, other ≠ id → next.edgesIn other = arena.edgesIn other
  byPath : ∀ path, path.document ≠ id → next.byPath.find? path = arena.byPath.find? path
  roots : ∀ other, other ≠ id → next.roots.find? other = arena.roots.find? other
  bySubject : ∀ other subject, other ≠ id →
    next.bySubject.find? (other, subject) = arena.bySubject.find? (other, subject)

/-- Nothing of the document is in the arena or in an index, and no edge is left without its node. -/
structure Lacks (arena : Arena) (id : DocumentId) : Prop where
  nodes : ∀ cell ∈ arena.nodes, cell.path.document ≠ id
  edges : ∀ edge ∈ arena.edges, ∃ cell ∈ arena.nodes, cell.id = edge.predecessor ∧ cell.path.document ≠ id
  byPath : ∀ path, path.document = id → arena.byPath.find? path = none
  roots : arena.roots.find? id = none
  bySubject : ∀ subject, arena.bySubject.find? (id, subject) = none

theorem map_cellsIn (arena : Arena) (document : DocumentId) :
    (arena.cellsIn document).map Cell.toNode = arena.graph.nodesIn document := by
  rw [cellsIn, Graph.nodesIn, graph, List.filter_map]
  rfl

theorem edgesIn_graph (arena : Arena) (document : DocumentId) :
    arena.graph.edgesIn document = arena.edgesIn document := by
  rw [Graph.edgesIn, edgesIn, ← map_cellsIn]
  refine List.filter_congr fun edge _ => ?_
  rw [List.any_map]
  rfl

/-- A cell with its node is determined by what lies in the node and what leaves it. -/
theorem Tidy.cell_ext (tidy : arena.Tidy) (nextTidy : next.Tidy) {cell other : Cell} (member : cell ∈ arena.nodes)
    (present : other ∈ next.nodes) (same : cell.toNode = other.toNode)
    (contents : next.graph.contents cell.id = arena.graph.contents cell.id)
    (outbounds : next.graph.outbounds cell.id = arena.graph.outbounds cell.id) : cell = other := by
  have id : cell.id = other.id := congrArg (·.id) same
  have held : cell.contents = other.contents := OrderedMap.ext_entries <| by
    rw [tidy.contents cell member, nextTidy.contents other present, ← id, contents]
  have left : cell.outbounds = other.outbounds := OrderedMap.ext_entries <| by
    rw [tidy.outbounds cell member, nextTidy.outbounds other present, ← id, outbounds]
  cases cell
  cases other
  cases same
  cases held
  cases left
  rfl

theorem Tidy.isolated (tidy : arena.Tidy) (nextTidy : next.Tidy) (framed : arena.graph.Framed)
    (nextFramed : next.graph.Framed) (intact : ∀ other, other ≠ id → Intact other arena.graph next.graph) :
    Isolated arena id next where
  nodes other apart := by
    have kept := intact other apart
    refine eq_of_map_eq (f := Cell.toNode) (fun now present cell member same => ?_) ?_
    · have ours : cell.toNode ∈ arena.graph.nodesIn other := map_cellsIn arena other ▸ List.mem_map_of_mem member
      refine (tidy.cell_ext nextTidy (List.mem_filter.mp member).1 (List.mem_filter.mp present).1 same.symm ?_ ?_).symm
      · exact (nextFramed.contents_eq (kept.nodes ▸ ours)).trans (kept.nodes ▸ (framed.contents_eq ours).symm)
      · exact (Graph.outbounds_eq (kept.nodes ▸ ours)).trans (kept.edges ▸ (Graph.outbounds_eq ours).symm)
    · rw [map_cellsIn, map_cellsIn, kept.nodes]
  edges other apart := by rw [← edgesIn_graph, ← edgesIn_graph, (intact other apart).edges]
  byPath path apart := by
    rw [nextTidy.byPath, tidy.byPath, Graph.nodeAt?_eq_find?, Graph.nodeAt?_eq_find?, (intact _ apart).nodes]
  roots other apart := by
    refine tidy.roots.find?_eq nextTidy.roots (fun _ _ => OrderedMap.ext_entries) ?_
    rw [Graph.roots_eq, Graph.roots_eq, (intact other apart).nodes]
  bySubject other subject apart := by
    refine tidy.bySubject.find?_eq nextTidy.bySubject (fun _ _ => OrderedSet.ext_toList) ?_
    rw [framed.named_eq, nextFramed.named_eq, (intact other apart).edges]

theorem Tidy.lacks (tidy : arena.Tidy) (framed : arena.graph.Framed)
    (absent : ∀ node ∈ arena.graph.nodes, node.path.document ≠ id) : arena.Lacks id := by
  have nodes : arena.graph.nodesIn id = [] := List.filter_eq_nil_iff.mpr fun node member => by simp [absent node member]
  have edges : arena.graph.edgesIn id = [] := List.filter_eq_nil_iff.mpr fun _ _ => by simp [nodes]
  have others : ∀ cell ∈ arena.nodes, cell.path.document ≠ id := fun cell member =>
    absent _ (mem_nodes_graph.mpr ⟨cell, member, rfl⟩)
  refine ⟨others, fun edge listed => ?_, fun path ours => ?_, tidy.roots.find?_eq_none ?_, fun subject =>
    tidy.bySubject.find?_eq_none ?_⟩
  · obtain ⟨cell, member, predecessor⟩ := exists_mem_nodes.mp (framed.predecessors edge listed)
    exact ⟨cell, member, predecessor, others cell member⟩
  · rw [tidy.byPath, Graph.nodeAt?_eq_find?, ours, nodes]
    rfl
  · rw [Graph.roots_eq, nodes]
    rfl
  · rw [framed.named_eq, edges]
    rfl

end Arena
end OutlineTypes
