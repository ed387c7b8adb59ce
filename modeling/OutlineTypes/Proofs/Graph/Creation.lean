import OutlineTypes.Proofs.Graph.Scope

/-! Creating nodes and edges keeps a graph coherent. Each operation is described by the graph it makes up
to successors and inbound edges. -/
namespace OutlineTypes.Graph

variable {graph : Graph}

/-- The successors of an edge are nodes of the graph. -/
theorem Coherent.exists_node_of_lists (coherent : graph.Coherent) {edge : Edge} {id : NodeId}
    (member : edge ∈ graph.edges) (lists : edge.lists id) : ∃ node ∈ graph.nodes, node.id = id := by
  obtain ⟨node, among, predecessor⟩ := coherent.predecessors edge member
  have successors := coherent.successors edge member node among predecessor
  obtain ⟨successor, listed, same⟩ := List.any_eq_true.mp lists
  rw [successors] at listed
  obtain ⟨_, found, present, id, _⟩ := coherent.mem_visible_iff.mp listed
  exact ⟨found, present, id.trans (by simpa using same)⟩

/-- The graph with one more node, before any edge is looked up again. -/
def addNode (graph : Graph) (container : Option NodeId) (path : TypePath) : Graph :=
  { graph with
    nodes := graph.nodes ++ [⟨.mk graph.nextNode, container, path, ∅, ∅⟩]
    nextNode := graph.nextNode + 1 }

theorem mem_nodes_addNode {container : Option NodeId} {path : TypePath} {node : Node} :
    node ∈ (graph.addNode container path).nodes ↔
      node ∈ graph.nodes ∨ node = ⟨.mk graph.nextNode, container, path, ∅, ∅⟩ := by
  simp [addNode]

theorem Coherent.framed_addNode (coherent : graph.Coherent) {container : Option NodeId}
    {path : TypePath} (vacant : graph.nodeAt? path = none)
    (root : path.container? = none → container = none)
    (located : ∀ outer, path.container? = some outer →
      ∃ around ∈ graph.nodes, around.path = outer ∧ container = some around.id) :
    (graph.addNode container path).Framed := by
  have fresh : ∀ node ∈ graph.nodes, node.id ≠ .mk graph.nextNode := by
    intro node member same
    have below := coherent.nodesBelow node member
    rw [same] at below
    exact absurd below (Nat.lt_irrefl _)
  constructor
  · simp only [addNode, List.map_append, List.map_cons, List.map_nil]
    refine List.nodup_append.mpr ⟨coherent.nodeIds, by simp, ?_⟩
    rintro id member _ new rfl
    obtain ⟨node, among, rfl⟩ := List.mem_map.mp member
    exact fresh node among (List.mem_singleton.mp new)
  · intro node member
    rcases mem_nodes_addNode.mp member with before | rfl
    · exact Nat.lt_succ_of_lt (coherent.nodesBelow node before)
    · exact Nat.lt_succ_self _
  · simp only [addNode, List.map_append, List.map_cons, List.map_nil]
    refine List.nodup_append.mpr ⟨coherent.paths, by simp, ?_⟩
    rintro other member _ new rfl
    obtain ⟨node, among, rfl⟩ := List.mem_map.mp member
    exact nodeAt?_eq_none_iff.mp vacant node among (List.mem_singleton.mp new)
  · intro node member top
    rcases mem_nodes_addNode.mp member with before | rfl
    · exact coherent.roots node before top
    · exact root top
  · intro node member outer inside
    rcases mem_nodes_addNode.mp member with before | rfl
    · obtain ⟨around, among, held⟩ := coherent.containers node before outer inside
      exact ⟨around, mem_nodes_addNode.mpr (.inl among), held⟩
    · obtain ⟨around, among, held⟩ := located outer inside
      exact ⟨around, mem_nodes_addNode.mpr (.inl among), held⟩
  · exact coherent.edgeIds
  · exact coherent.edgesBelow
  · exact coherent.assertions
  · intro edge member
    obtain ⟨node, among, predecessor⟩ := coherent.predecessors edge member
    exact ⟨node, mem_nodes_addNode.mpr (.inl among), predecessor⟩
  · intro node member id
    rcases mem_nodes_addNode.mp member with before | rfl
    · exact coherent.inbounds node before id
    · simp only [OrderedSet.not_mem_empty, false_iff]
      rintro ⟨edge, among, _, lists⟩
      obtain ⟨found, present, same⟩ := coherent.exists_node_of_lists among lists
      exact fresh found present same

theorem Coherent.containerOf_succeeds (coherent : graph.Coherent) {path : TypePath}
    (located : ∀ outer, path.container? = some outer → ∃ around ∈ graph.nodes, around.path = outer) :
    Succeeds (graph.containerOf path) fun container =>
      (path.container? = none → container = none) ∧
      ∀ outer, path.container? = some outer →
        ∃ around ∈ graph.nodes, around.path = outer ∧ container = some around.id := by
  unfold containerOf
  cases inside : path.container? with
  | none => exact .ok ⟨fun _ => rfl, fun _ h => by contradiction⟩
  | some outer =>
    obtain ⟨around, among, same⟩ := located outer inside
    have found := coherent.nodeAt?_eq_some_iff.mpr ⟨among, same⟩
    simp only [found]
    refine .ok ⟨fun h => by contradiction, fun other h => ?_⟩
    cases h
    exact ⟨around, among, same, rfl⟩

theorem Coherent.createNode_succeeds (coherent : graph.Coherent) {path : TypePath}
    (vacant : graph.nodeAt? path = none)
    (located : ∀ outer, path.container? = some outer → ∃ around ∈ graph.nodes, around.path = outer) :
    Succeeds (graph.createNode path) fun result => result.1 = .mk graph.nextNode ∧
      result.2.Coherent ∧ ∃ container, Alike (graph.addNode container path) result.2 := by
  refine (coherent.containerOf_succeeds located).bind fun container held => ?_
  have framed := coherent.framed_addNode vacant held.1 held.2
  have refreshed : Succeeds ((graph.addNode container path).refresh path) fun next =>
      next.Coherent ∧ Alike (graph.addNode container path) next := by
    refine framed.refresh_succeeds path fun edge member node among predecessor hidden => ?_
    obtain ⟨old, present, oldPredecessor⟩ := coherent.predecessors edge member
    have same : old = node := eq_of_key_eq framed.nodeIds (mem_nodes_addNode.mpr (.inl present))
      among (oldPredecessor.trans predecessor.symm)
    subst same
    rw [coherent.successors edge member old present oldPredecessor]
    refine (visible_of_hidden (fun node => node.id = .mk graph.nextNode) ?_ ?_).symm
    · have stay : ∀ node ∈ graph.nodes, (!decide (node.id = .mk graph.nextNode)) = true := by
        intro node member
        have below := coherent.nodesBelow node member
        simp only [Bool.not_eq_true', decide_eq_false_iff_not]
        intro same
        rw [same] at below
        exact Nat.lt_irrefl _ below
      simp only [addNode, List.filter_append, List.filter_eq_self.mpr stay]
      simp
    · intro new found leaves tip
      rcases mem_nodes_addNode.mp found with before | rfl
      · have below := coherent.nodesBelow new before
        rw [of_decide_eq_true leaves] at below
        exact absurd below (Nat.lt_irrefl _)
      · exact hidden tip
  refine refreshed.bind fun next result => ?_
  exact .pure ⟨rfl, result.1, container, result.2⟩

/-- The graph with one more edge, before its successors are told of it. -/
def addEdge (graph : Graph) (predecessor : NodeId) (source : SpanId) (subject : Name) : Graph :=
  { graph with
    edges := graph.edges ++ [⟨.mk graph.nextEdge, predecessor, subject, .ofList [source], []⟩]
    nextEdge := graph.nextEdge + 1 }

theorem mem_edges_addEdge {predecessor : NodeId} {source : SpanId} {subject : Name} {edge : Edge} :
    edge ∈ (graph.addEdge predecessor source subject).edges ↔ edge ∈ graph.edges ∨
      edge = ⟨.mk graph.nextEdge, predecessor, subject, .ofList [source], []⟩ := by
  simp [addEdge]

theorem Framed.edgeId_ne_next (framed : graph.Framed) {edge : Edge} (member : edge ∈ graph.edges) :
    edge.id ≠ .mk graph.nextEdge := by
  intro same
  have below := framed.edgesBelow edge member
  rw [same] at below
  exact absurd below (Nat.lt_irrefl _)

theorem Framed.framed_addEdge (framed : graph.Framed) {predecessor : Node}
    (member : predecessor ∈ graph.nodes) {subject : Name} (source : SpanId)
    (vacant : graph.outbound? predecessor.id subject = none) :
    (graph.addEdge predecessor.id source subject).Framed := by
  constructor
  · exact framed.nodeIds
  · exact framed.nodesBelow
  · exact framed.paths
  · exact framed.roots
  · exact framed.containers
  · simp only [addEdge, List.map_append, List.map_cons, List.map_nil]
    refine List.nodup_append.mpr ⟨framed.edgeIds, by simp, ?_⟩
    rintro id member _ new rfl
    obtain ⟨edge, among, rfl⟩ := List.mem_map.mp member
    exact framed.edgeId_ne_next among (List.mem_singleton.mp new)
  · intro edge member
    rcases mem_edges_addEdge.mp member with before | rfl
    · exact Nat.lt_succ_of_lt (framed.edgesBelow edge before)
    · exact Nat.lt_succ_self _
  · simp only [addEdge, List.map_append, List.map_cons, List.map_nil]
    refine List.nodup_append.mpr ⟨framed.assertions, by simp, ?_⟩
    rintro key member _ new rfl
    obtain ⟨edge, among, same⟩ := List.mem_map.mp member
    rw [List.mem_singleton.mp new, Prod.mk.injEq] at same
    exact outbound?_eq_none_iff.mp vacant edge among same
  · intro edge among
    rcases mem_edges_addEdge.mp among with before | rfl
    · exact framed.predecessors edge before
    · exact ⟨predecessor, member, rfl⟩
  · intro node among id
    rw [framed.inbounds node among id]
    constructor
    · rintro ⟨edge, before, same, lists⟩
      exact ⟨edge, mem_edges_addEdge.mpr (.inl before), same, lists⟩
    · rintro ⟨edge, present, same, lists⟩
      rcases mem_edges_addEdge.mp present with before | rfl
      · exact ⟨edge, before, same, lists⟩
      · simp [Edge.lists] at lists

theorem Coherent.createEdge_succeeds (coherent : graph.Coherent) {predecessor : Node}
    (member : predecessor ∈ graph.nodes) {subject : Name} (source : SpanId)
    (vacant : graph.outbound? predecessor.id subject = none) :
    Succeeds (graph.createEdge predecessor.id source subject) fun next =>
      next.Coherent ∧ Alike (graph.addEdge predecessor.id source subject) next := by
  unfold createEdge
  simp only [coherent.successorsOf_id member, ok_bind]
  let edge : Edge := ⟨.mk graph.nextEdge, predecessor.id, subject, .ofList [source],
    graph.visible predecessor.path subject⟩
  have framed := coherent.framed_addEdge member source vacant
  have new : edge.bare ∈ (graph.addEdge predecessor.id source subject).edges :=
    mem_edges_addEdge.mpr (.inr rfl)
  have bare : edge.bare = edge.bare.bare := rfl
  have alike := framed.alike_link new bare
  -- The new edge comes to the graph as one that is linked right after it was added.
  have linked : (graph.addEdge predecessor.id source subject).link edge =
      { graph with
        edges := graph.edges ++ [edge]
        nodes := graph.nodes.map (receive edge)
        nextEdge := graph.nextEdge + 1 } := by
    have others : graph.edges.map (fun other => if other.id = edge.id then edge else other) =
        graph.edges := by
      refine (List.map_congr_left fun other among => ?_).trans (List.map_id _)
      simp [edge, coherent.edgeId_ne_next among]
    simp only [link, modifyEdge, addEdge, List.map_append, others]
    simp [edge]
  rw [← linked]
  refine .pure ⟨⟨framed.framed_link new rfl, fun other present => ?_⟩, alike⟩
  refine alike.upToDate fun node among same => ?_
  rcases mem_edges_link present with rfl | ⟨present, apart⟩
  · rw [eq_of_key_eq framed.nodeIds among member same]
    rfl
  · rcases mem_edges_addEdge.mp present with before | rfl
    · exact coherent.successors other before node among same
    · exact absurd rfl apart

end OutlineTypes.Graph
