import OutlineTypes.Proofs.Graph.Content
import OutlineTypes.Proofs.Ordered

/-! Disposing of what lost its last span. Edges go first, then nodes, deepest first, so that each node is
empty when its turn comes. What the graph says stays the same. -/
namespace OutlineTypes

namespace Graph

variable {graph other : Graph}

/-- The graph with those of its edges that `keep` accepts. -/
def keepEdges (graph : Graph) (keep : Edge → Bool) : Graph :=
  { graph with edges := graph.edges.filter keep }

/-- The graph with those of its nodes that `keep` accepts. -/
def keepNodes (graph : Graph) (keep : Node → Bool) : Graph :=
  { graph with nodes := graph.nodes.filter keep }

theorem mem_edges_keepEdges {keep : Edge → Bool} {edge : Edge} :
    edge ∈ (graph.keepEdges keep).edges ↔ edge ∈ graph.edges ∧ keep edge := List.mem_filter

theorem mem_nodes_keepNodes {keep : Node → Bool} {node : Node} :
    node ∈ (graph.keepNodes keep).nodes ↔ node ∈ graph.nodes ∧ keep node := List.mem_filter

theorem Alike.keepEdges (alike : Alike graph other) {keep : Edge → Bool}
    (bare : ∀ edge, keep edge.bare = keep edge) :
    Alike (graph.keepEdges keep) (other.keepEdges keep) := by
  have factor (g : Graph) : (g.edges.filter keep).map Edge.bare = (g.edges.map Edge.bare).filter keep := by
    rw [List.filter_map]
    exact congrArg _ (List.filter_congr fun edge _ => (bare edge).symm)
  refine ⟨alike.nodes, ?_, alike.nextNode, alike.nextEdge, alike.emptiedNodes, alike.emptiedEdges,
    alike.pending⟩
  exact (factor other).trans ((congrArg _ alike.edges).trans (factor graph).symm)

theorem Alike.keepNodes (alike : Alike graph other) {keep : Node → Bool}
    (bare : ∀ node, keep node.bare = keep node) :
    Alike (graph.keepNodes keep) (other.keepNodes keep) := by
  have factor (g : Graph) : (g.nodes.filter keep).map Node.bare = (g.nodes.map Node.bare).filter keep := by
    rw [List.filter_map]
    exact congrArg _ (List.filter_congr fun node _ => (bare node).symm)
  refine ⟨?_, alike.edges, alike.nextNode, alike.nextEdge, alike.emptiedNodes, alike.emptiedEdges,
    alike.pending⟩
  exact (factor other).trans ((congrArg _ alike.nodes).trans (factor graph).symm)

theorem Framed.nodeAt?_keepNodes (framed : graph.Framed) (keep : Node → Bool) (path : TypePath) :
    (graph.keepNodes keep).nodeAt? path = (graph.nodeAt? path).filter keep := by
  cases found : graph.nodeAt? path with
  | none =>
    refine nodeAt?_eq_none_iff.mpr fun node member => ?_
    exact nodeAt?_eq_none_iff.mp found node (mem_nodes_keepNodes.mp member).1
  | some node =>
    obtain ⟨member, rfl⟩ := framed.nodeAt?_eq_some_iff.mp found
    cases kept : keep node with
    | true =>
      rw [Option.filter_some_pos kept]
      have paths := framed.paths.sublist ((List.filter_sublist (p := keep)).map Node.path)
      exact (find?_key_eq_some_iff paths).mpr ⟨mem_nodes_keepNodes.mpr ⟨member, kept⟩, rfl⟩
    | false =>
      rw [Option.filter_some_neg (by simp [kept])]
      refine nodeAt?_eq_none_iff.mpr fun other among same => ?_
      obtain ⟨listed, stays⟩ := mem_nodes_keepNodes.mp among
      simp [eq_of_key_eq framed.paths listed member same, kept] at stays

theorem keepEdges_eq_self {keep : Edge → Bool} (all : ∀ edge ∈ graph.edges, keep edge) :
    graph.keepEdges keep = graph := by
  simp only [keepEdges, List.filter_eq_self.mpr all]

section Edges

/-- The graph that the removal of an edge leaves. -/
def dropEdge (graph : Graph) (id : EdgeId) : Graph :=
  { graph with
    edges := graph.edges.filter (·.id ≠ id)
    nodes := graph.nodes.map fun node => { node with inbounds := node.inbounds.erase id } }

theorem alike_dropEdge (graph : Graph) (id : EdgeId) :
    Alike (graph.keepEdges (·.id ≠ id)) (graph.dropEdge id) := by
  refine ⟨?_, rfl, rfl, rfl, rfl, rfl, rfl⟩
  simp only [dropEdge, List.map_map]
  rfl

theorem Coherent.coherent_dropEdge (coherent : graph.Coherent) (id : EdgeId) :
    (graph.dropEdge id).Coherent := by
  have present {edge : Edge} : edge ∈ (graph.dropEdge id).edges ↔ edge ∈ graph.edges ∧ edge.id ≠ id := by
    simp [dropEdge]
  have shape : SameShape (graph.keepEdges (·.id ≠ id)) (graph.dropEdge id) :=
    (alike_dropEdge graph id).sameShape
  have kept : (graph.keepEdges (·.id ≠ id)).edges.Sublist graph.edges := List.filter_sublist
  constructor
  · -- The frame of the smaller graph needs no inbound edges, which are checked on their own.
    constructor
    · rw [shape.map_nodes (f := Node.id) fun _ => rfl]
      exact coherent.nodeIds
    · intro node member
      obtain ⟨before, among, bare⟩ := shape.node_of_mem member
      have same : before.id = node.id := congrArg (·.id) bare
      exact same ▸ coherent.nodesBelow before among
    · rw [shape.map_nodes (f := Node.path) fun _ => rfl]
      exact coherent.paths
    · intro node member root
      obtain ⟨before, among, rfl⟩ := List.mem_map.mp member
      exact coherent.roots before among root
    · intro node member outer inside
      obtain ⟨before, among, rfl⟩ := List.mem_map.mp member
      obtain ⟨around, listed, path, held⟩ := coherent.containers before among outer inside
      exact ⟨_, List.mem_map.mpr ⟨around, listed, rfl⟩, path, held⟩
    · exact coherent.edgeIds.sublist (kept.map _)
    · exact fun edge member => coherent.edgesBelow edge (present.mp member).1
    · exact coherent.assertions.sublist (kept.map _)
    · intro edge member
      obtain ⟨node, among, predecessor⟩ := coherent.predecessors edge (present.mp member).1
      exact ⟨_, List.mem_map.mpr ⟨node, among, rfl⟩, predecessor⟩
    · intro node member other
      obtain ⟨before, among, rfl⟩ := List.mem_map.mp member
      simp only [OrderedSet.mem_erase, coherent.inbounds before among other, present]
      constructor
      · rintro ⟨apart, edge, listed, rfl, lists⟩
        exact ⟨edge, ⟨listed, apart⟩, rfl, lists⟩
      · rintro ⟨edge, ⟨listed, apart⟩, rfl, lists⟩
        exact ⟨apart, edge, listed, rfl, lists⟩
  · intro edge member node among predecessor
    obtain ⟨before, listed, rfl⟩ := List.mem_map.mp among
    rw [shape.visible]
    exact coherent.successors edge (present.mp member).1 before listed predecessor

theorem Coherent.removeEdge_succeeds (coherent : graph.Coherent) (id : EdgeId) :
    Succeeds (graph.removeEdge id) fun next =>
      next.Coherent ∧ Alike (graph.keepEdges (·.id ≠ id)) next := by
  unfold removeEdge
  cases found : graph.edge? id with
  | none =>
    have all := edge?_eq_none_iff.mp found
    rw [keepEdges_eq_self fun edge member => by simpa using all edge member]
    exact .ok ⟨coherent, .refl graph⟩
  | some edge =>
    obtain ⟨listed, rfl⟩ := coherent.edge?_eq_some_iff.mp found
    obtain ⟨node, member, predecessor⟩ := coherent.predecessors edge listed
    simp only [← predecessor, coherent.nodeOf_id member, ok_bind]
    exact .pure ⟨coherent.coherent_dropEdge edge.id, alike_dropEdge graph edge.id⟩

theorem Coherent.removeEdges_succeed (coherent : graph.Coherent) (ids : List EdgeId) :
    Succeeds (ids.foldlM removeEdge graph) fun next =>
      next.Coherent ∧ Alike (graph.keepEdges (·.id ∉ ids)) next := by
  refine Succeeds.foldlM (fun done next =>
    next.Coherent ∧ Alike (graph.keepEdges (·.id ∉ done)) next) ?_ ?_
  · rw [keepEdges_eq_self fun _ _ => by simp]
    exact ⟨coherent, .refl graph⟩
  · intro done id rest mid _ holds
    refine (holds.1.removeEdge_succeeds id).mono fun next step => ⟨step.1, ?_⟩
    have twice : (graph.keepEdges (·.id ∉ done)).keepEdges (·.id ≠ id) =
        graph.keepEdges (·.id ∉ done ++ [id]) := by
      simp only [keepEdges, List.filter_filter]
      congr 1
      refine List.filter_congr fun edge _ => ?_
      simp [and_comm]
    rw [← twice]
    exact (holds.2.keepEdges fun _ => rfl).trans step.2

end Edges

section Nodes

/-- A node without outbound edges and contents leaves a frame behind. -/
theorem Coherent.framed_dropNode (coherent : graph.Coherent) {id : NodeId}
    (silent : ∀ edge ∈ graph.edges, edge.predecessor ≠ id)
    (vacant : ∀ node ∈ graph.nodes, node.container ≠ some id) :
    (graph.keepNodes (·.id ≠ id)).Framed := by
  have present {node : Node} :
      node ∈ (graph.keepNodes (·.id ≠ id)).nodes ↔ node ∈ graph.nodes ∧ node.id ≠ id := by
    simp [keepNodes]
  have kept : (graph.keepNodes (·.id ≠ id)).nodes.Sublist graph.nodes := List.filter_sublist
  constructor
  · exact coherent.nodeIds.sublist (kept.map _)
  · exact fun node member => coherent.nodesBelow node (present.mp member).1
  · exact coherent.paths.sublist (kept.map _)
  · exact fun node member => coherent.roots node (present.mp member).1
  · intro node member outer inside
    obtain ⟨around, among, path, held⟩ := coherent.containers node (present.mp member).1 outer inside
    refine ⟨around, present.mpr ⟨among, fun same => ?_⟩, path, held⟩
    exact vacant node (present.mp member).1 (held.trans (congrArg some same))
  · exact coherent.edgeIds
  · exact coherent.edgesBelow
  · exact coherent.assertions
  · intro edge member
    obtain ⟨node, among, predecessor⟩ := coherent.predecessors edge member
    exact ⟨node, present.mpr ⟨among, fun same => silent edge member (predecessor.symm.trans same)⟩,
      predecessor⟩
  · exact fun node member => coherent.inbounds node (present.mp member).1

/-- Whatever listed the node as a successor is looked up again. -/
theorem Coherent.dropNode_succeeds (coherent : graph.Coherent) {node : Node}
    (member : node ∈ graph.nodes) (vacant : ∀ other ∈ graph.nodes, other.container ≠ some node.id)
    (silent : ∀ edge ∈ graph.edges, edge.predecessor ≠ node.id) :
    Succeeds (refresh (graph.keepNodes (·.id ≠ node.id)) node.path) fun next =>
      next.Coherent ∧ Alike (graph.keepNodes (·.id ≠ node.id)) next := by
  have framed := coherent.framed_dropNode silent vacant
  refine framed.refresh_succeeds node.path fun edge listed source among predecessor hidden => ?_
  have source_mem : source ∈ graph.nodes := (mem_nodes_keepNodes.mp among).1
  rw [coherent.successors edge listed source source_mem predecessor]
  refine visible_of_hidden (fun other => other.id = node.id) ?_ ?_
  · simp [keepNodes]
  · intro other present leaves tip
    have same : other = node :=
      eq_of_key_eq coherent.nodeIds present member (of_decide_eq_true leaves)
    exact same ▸ hidden (same ▸ tip)

theorem Coherent.removeNode_succeeds (coherent : graph.Coherent) {node : Node}
    (member : node ∈ graph.nodes) (vacant : ∀ other ∈ graph.nodes, other.container ≠ some node.id)
    (silent : ∀ edge ∈ graph.edges, edge.predecessor ≠ node.id) :
    Succeeds (graph.removeNode node.id) fun next =>
      next.Coherent ∧ Alike (graph.keepNodes (·.id ≠ node.id)) next := by
  unfold removeNode
  have edges : (graph.outbounds node.id).map Edge.id = [] := by
    simpa [outbounds, List.filter_eq_nil_iff] using silent
  have contents : graph.contents node.id = [] := by
    simpa [Graph.contents, List.filter_eq_nil_iff] using vacant
  simp only [coherent.nodeOf_id member, ok_bind, edges, List.foldlM_nil, pure_bind, contents,
    List.isEmpty_nil, ↓reduceIte]
  exact coherent.dropNode_succeeds member vacant silent

/-- Nodes are removed if each has lost its contents when its turn comes. -/
theorem Coherent.removeNodes_succeed (coherent : graph.Coherent) {nodes : List Node}
    (listed : ∀ node ∈ nodes, node ∈ graph.nodes) (unique : (nodes.map Node.id).Nodup)
    (silent : ∀ edge ∈ graph.edges, ∀ node ∈ nodes, edge.predecessor ≠ node.id)
    (vacated : ∀ done node rest, nodes = done ++ node :: rest →
      ∀ inner ∈ graph.nodes, inner.container = some node.id → inner ∈ done) :
    Succeeds ((nodes.map Node.id).foldlM removeNode graph) fun next =>
      next.Coherent ∧ Alike (graph.keepNodes (·.id ∉ nodes.map Node.id)) next := by
  rw [List.foldlM_map]
  refine Succeeds.foldlM (fun done next =>
    next.Coherent ∧ Alike (graph.keepNodes (·.id ∉ done.map Node.id)) next) ?_ ?_
  · have all : graph.keepNodes (·.id ∉ ([] : List Node).map Node.id) = graph := by simp [keepNodes]
    rw [all]
    exact ⟨coherent, .refl graph⟩
  · rintro done node rest mid split ⟨mid_coherent, alike⟩
    have among : node ∈ nodes := by simp [split]
    have stays : node.id ∉ done.map Node.id := by
      rw [split, List.map_append, List.nodup_append] at unique
      exact fun gone => unique.2.2 _ gone _ (by simp) rfl
    obtain ⟨now, present, bare⟩ := alike.symm.node_of_mem
      (mem_nodes_keepNodes.mpr ⟨listed node among, by simpa using stays⟩)
    have nowId : now.id = node.id := congrArg (·.id) bare
    have step : Succeeds (mid.removeNode now.id) fun next =>
        next.Coherent ∧ Alike (mid.keepNodes (·.id ≠ now.id)) next := by
      refine mid_coherent.removeNode_succeeds present (fun inner inside held => ?_) fun edge edgeIn => ?_
      · obtain ⟨before, kept, innerBare⟩ := alike.node_of_mem inside
        obtain ⟨original, remains⟩ := mem_nodes_keepNodes.mp kept
        have container : before.container = inner.container := congrArg (·.container) innerBare
        have gone := vacated done node rest split before original (by rw [container, held, nowId])
        exact of_decide_eq_true remains (List.mem_map_of_mem gone)
      · obtain ⟨before, kept, edgeBare⟩ := alike.edge_of_mem edgeIn
        have predecessor : before.predecessor = edge.predecessor := congrArg (·.predecessor) edgeBare
        rw [← predecessor, nowId]
        exact silent before kept node among
    rw [nowId] at step
    refine step.mono fun next result => ⟨result.1, ?_⟩
    have twice : (graph.keepNodes (·.id ∉ done.map Node.id)).keepNodes (·.id ≠ node.id) =
        graph.keepNodes (·.id ∉ (done ++ [node]).map Node.id) := by
      simp only [keepNodes, List.filter_filter]
      congr 1
      refine List.filter_congr fun other _ => ?_
      rw [Bool.eq_iff_iff, List.map_append]
      simp [and_comm]
    rw [← twice]
    exact (alike.keepNodes fun _ => rfl).trans result.2

end Nodes

/-- What it means to have disposed of everything without spans. -/
structure Disposed (graph next : Graph) : Prop where
  coherent : next.Coherent
  nodes : ∀ node ∈ next.nodes, node.declarations.isEmpty = false
  edges : ∀ edge ∈ next.edges, edge.sources.isEmpty = false
  declares : ∀ p s, next.Declares p s ↔ graph.Declares p s
  asserts : ∀ p subject source, next.Asserts p subject source ↔ graph.Asserts p subject source
  emptiedNodes : next.emptiedNodes = ∅
  emptiedEdges : next.emptiedEdges = ∅
  pending : next.pending = graph.pending
  nextNode : next.nextNode = graph.nextNode
  nextEdge : next.nextEdge = graph.nextEdge
  nodesKept : (next.nodes.map Node.bare).Sublist (graph.nodes.map Node.bare)
  edgesKept : (next.edges.map Edge.bare).Sublist (graph.edges.map Edge.bare)

/-- The nodes of distinct identities are distinct. -/
theorem sublist_ids_filterMap_node? (graph : Graph) (ids : List NodeId) :
    ((ids.filterMap graph.node?).map Node.id).Sublist ids := by
  induction ids with
  | nil => exact List.nil_sublist _
  | cons id ids ih =>
    cases found : graph.node? id with
    | none =>
      rw [List.filterMap_cons_none found]
      exact ih.cons id
    | some node =>
      have same : node.id = id := by simpa using List.find?_some found
      rw [List.filterMap_cons_some found, List.map_cons, same]
      exact ih.cons_cons id

/-- The nodes to dispose of, in the order in which they go. -/
def vacantNodes (graph : Graph) (emptied : OrderedSet NodeId) : List Node :=
  stableSort (fun a b => b.path.length ≤ a.path.length)
    ((emptied.toList.filterMap graph.node?).filter (·.declarations.isEmpty))

theorem Framed.mem_vacantNodes (framed : graph.Framed) {emptied : OrderedSet NodeId}
    (noted : ∀ node ∈ graph.nodes, node.declarations.isEmpty → node.id ∈ emptied) {node : Node} :
    node ∈ graph.vacantNodes emptied ↔ node ∈ graph.nodes ∧ node.declarations.isEmpty := by
  rw [vacantNodes, mem_stableSort, List.mem_filter, List.mem_filterMap]
  constructor
  · rintro ⟨⟨id, _, found⟩, vacant⟩
    exact ⟨(framed.node?_eq_some_iff.mp found).1, vacant⟩
  · rintro ⟨member, vacant⟩
    exact ⟨⟨node.id, noted node member vacant, framed.node?_id member⟩, vacant⟩

theorem nodup_ids_vacantNodes (graph : Graph) (emptied : OrderedSet NodeId) :
    ((graph.vacantNodes emptied).map Node.id).Nodup := by
  have perm := (stableSort_perm (fun a b : Node => b.path.length ≤ a.path.length)
    ((emptied.toList.filterMap graph.node?).filter (·.declarations.isEmpty))).map Node.id
  refine perm.nodup_iff.mpr ?_
  refine List.Nodup.sublist (List.filter_sublist.map Node.id) ?_
  exact emptied.nodup.sublist (sublist_ids_filterMap_node? graph _)

/-- Contents go before the node they lie in. -/
theorem Framed.mem_done_of_container (framed : graph.Framed) {emptied : OrderedSet NodeId}
    {done rest : List Node} {node inner : Node}
    (split : graph.vacantNodes emptied = done ++ node :: rest) (outer : node ∈ graph.nodes)
    (among : inner ∈ graph.vacantNodes emptied) (member : inner ∈ graph.nodes)
    (container : inner.container = some node.id) : inner ∈ done := by
  have deeper : inner.path.length = node.path.length + 1 := by
    cases inside : inner.path.container? with
    | none => simp [framed.roots inner member inside] at container
    | some path =>
      obtain ⟨around, listed, rfl, held⟩ := framed.containers inner member path inside
      have same : around.id = node.id := Option.some.inj (held.symm.trans container)
      rw [← eq_of_key_eq framed.nodeIds listed outer same]
      exact (TypePath.of_container? inside).2.2
  have sorted := pairwise_stableSort (fun a b : Node => b.path.length ≤ a.path.length)
    (fun a b => by simp only [decide_eq_true_eq]; omega)
    (fun a b c => by simp only [decide_eq_true_eq]; omega)
    ((emptied.toList.filterMap graph.node?).filter (·.declarations.isEmpty))
  change (graph.vacantNodes emptied).Pairwise _ at sorted
  rw [split, List.pairwise_append, List.pairwise_cons] at sorted
  rw [split] at among
  rcases List.mem_append.mp among with before | after
  · exact before
  · rcases List.mem_cons.mp after with rfl | later
    · omega
    · have := of_decide_eq_true (sorted.2.1.1 inner later)
      omega

/-- What is left once the edges without sources are gone. -/
structure Pruned (graph mid : Graph) : Prop where
  coherent : mid.Coherent
  alike : Alike ({ graph with emptiedEdges := ∅, emptiedNodes := ∅ }.keepEdges (!·.sources.isEmpty)) mid

/-- The emptied edges are those without sources. -/
theorem Coherent.removeEmptied_succeeds (coherent : graph.Coherent) (accounted : graph.Accounted) :
    Succeeds ((graph.emptiedEdges.toList.filter fun id =>
        (graph.edge? id).any (·.sources.isEmpty)).foldlM removeEdge
          { graph with emptiedEdges := ∅, emptiedNodes := ∅ }) (Pruned graph) := by
  let cleared : Graph := { graph with emptiedEdges := ∅, emptiedNodes := ∅ }
  have respanned : Respanned graph cleared := ⟨rfl, rfl, rfl, rfl⟩
  refine ((respanned.coherent coherent).removeEdges_succeed _).mono fun next result => ?_
  refine ⟨result.1, ?_⟩
  have same : cleared.keepEdges (!·.sources.isEmpty) = cleared.keepEdges fun edge =>
      edge.id ∉ graph.emptiedEdges.toList.filter fun id =>
        (graph.edge? id).any (·.sources.isEmpty) := by
    simp only [keepEdges]
    congr 1
    refine List.filter_congr fun edge member => ?_
    have found : graph.edge? edge.id = some edge := coherent.edge?_eq_some_iff.mpr ⟨member, rfl⟩
    rw [Bool.eq_iff_iff]
    simp only [Bool.not_eq_true', decide_eq_true_eq, List.mem_filter, found, Option.any_some, not_and,
      Bool.not_eq_true]
    constructor
    · exact fun full _ => full
    · intro kept
      cases vacant : edge.sources.isEmpty with
      | false => rfl
      | true => rw [← vacant, kept (accounted.edges edge member vacant)]
  rw [same]
  exact result.2

namespace Pruned

variable {mid next : Graph} (pruned : Pruned graph mid)
include pruned

theorem declares (p : TypePath) (s : SpanId) : mid.Declares p s ↔ graph.Declares p s :=
  declares_congr pruned.alike.nodes p s

theorem asserts (p : TypePath) (subject : Name) (source : SpanId) :
    mid.Asserts p subject source ↔ graph.Asserts p subject source := by
  rw [pruned.alike.asserts_iff]
  constructor
  · rintro ⟨node, member, path, edge, listed, rest⟩
    exact ⟨node, member, path, edge, (mem_edges_keepEdges.mp listed).1, rest⟩
  · rintro ⟨node, member, path, edge, listed, predecessor, subject, asserted⟩
    refine ⟨node, member, path, edge, mem_edges_keepEdges.mpr ⟨listed, ?_⟩, predecessor, subject, asserted⟩
    rw [Bool.not_eq_true']
    exact OrderedSet.isEmpty_eq_false_of_mem asserted

theorem edges : ∀ edge ∈ mid.edges, edge.sources.isEmpty = false := by
  intro edge member
  obtain ⟨before, listed, bare⟩ := pruned.alike.edge_of_mem member
  have sources : before.sources = edge.sources := congrArg (·.sources) bare
  rw [← sources]
  simpa using (mem_edges_keepEdges.mp listed).2

theorem mem_vacantNodes (accounted : graph.Accounted) {node : Node} :
    node ∈ mid.vacantNodes graph.emptiedNodes ↔ node ∈ mid.nodes ∧ node.declarations.isEmpty := by
  refine pruned.coherent.mem_vacantNodes fun node member empty => ?_
  obtain ⟨before, listed, bare⟩ := pruned.alike.node_of_mem member
  have id : before.id = node.id := congrArg (·.id) bare
  have declarations : before.declarations = node.declarations := congrArg (·.declarations) bare
  rw [← id]
  exact accounted.nodes before listed (declarations ▸ empty)

/-- The path of a vacant node is not declared. -/
theorem not_declares (accounted : graph.Accounted) {node : Node}
    (among : node ∈ mid.vacantNodes graph.emptiedNodes) (s : SpanId) : ¬graph.Declares node.path s := by
  intro declared
  obtain ⟨member, empty⟩ := (pruned.mem_vacantNodes accounted).mp among
  rw [← pruned.declares, pruned.coherent.declares_iff_mem_declarations member] at declared
  exact OrderedSet.isEmpty_iff.mp empty s declared

/-- What lies in a vacant node is vacant. -/
theorem vacant_of_container (accounted : graph.Accounted)
    (nested : ∀ outer inner, inner.container? = some outer → (∃ s, graph.Declares inner s) →
      ∃ s, graph.Declares outer s)
    {node inner : Node} (among : node ∈ mid.vacantNodes graph.emptiedNodes) (member : inner ∈ mid.nodes)
    (container : inner.container = some node.id) : inner ∈ mid.vacantNodes graph.emptiedNodes := by
  have coherent := pruned.coherent
  refine (pruned.mem_vacantNodes accounted).mpr ⟨member, ?_⟩
  rw [OrderedSet.isEmpty_iff]
  intro s declared
  cases inside : inner.path.container? with
  | none => simp [coherent.roots inner member inside] at container
  | some path =>
    obtain ⟨around, listed, rfl, held⟩ := coherent.containers inner member path inside
    have same : around.id = node.id := Option.some.inj (held.symm.trans container)
    have outer := ((pruned.mem_vacantNodes accounted).mp among).1
    rw [eq_of_key_eq coherent.nodeIds listed outer same] at inside
    obtain ⟨t, declaredOuter⟩ := nested _ _ inside
      ⟨s, (pruned.declares _ _).mp ⟨inner, member, rfl, declared⟩⟩
    exact pruned.not_declares accounted among t declaredOuter

/-- All vacant nodes can go, deepest first. -/
theorem removeVacant_succeeds (accounted : graph.Accounted)
    (nested : ∀ outer inner, inner.container? = some outer → (∃ s, graph.Declares inner s) →
      ∃ s, graph.Declares outer s)
    (grounded : ∀ p subject source, graph.Asserts p subject source → ∃ s, graph.Declares p s) :
    Succeeds (((mid.vacantNodes graph.emptiedNodes).map Node.id).foldlM removeNode mid) fun next =>
      next.Coherent ∧ Alike (mid.keepNodes (!·.declarations.isEmpty)) next := by
  have coherent := pruned.coherent
  have vacant {node : Node} :
      node ∈ mid.vacantNodes graph.emptiedNodes ↔ node ∈ mid.nodes ∧ node.declarations.isEmpty :=
    pruned.mem_vacantNodes accounted
  have same : mid.keepNodes (!·.declarations.isEmpty) =
      mid.keepNodes (·.id ∉ (mid.vacantNodes graph.emptiedNodes).map Node.id) := by
    simp only [keepNodes]
    congr 1
    refine List.filter_congr fun node member => ?_
    rw [Bool.eq_iff_iff, Bool.not_eq_true', decide_eq_true_eq, ← Bool.not_eq_true]
    refine not_congr ⟨fun empty => List.mem_map_of_mem (vacant.mpr ⟨member, empty⟩), fun gone => ?_⟩
    obtain ⟨other, among, id⟩ := List.mem_map.mp gone
    rw [← eq_of_key_eq coherent.nodeIds (vacant.mp among).1 member id]
    exact (vacant.mp among).2
  rw [same]
  refine coherent.removeNodes_succeed (fun node among => (vacant.mp among).1) (nodup_ids_vacantNodes mid _)
    (fun edge listed node among predecessor => ?_) fun done node rest split inner member container => ?_
  · obtain ⟨source, asserted⟩ := OrderedSet.exists_mem_of_isEmpty_eq_false (pruned.edges edge listed)
    have asserts : mid.Asserts node.path edge.subject source :=
      ⟨node, (vacant.mp among).1, rfl, edge, listed, predecessor, rfl, asserted⟩
    obtain ⟨s, declared⟩ := grounded _ _ _ ((pruned.asserts _ _ _).mp asserts)
    exact pruned.not_declares accounted among s declared
  · have among : node ∈ mid.vacantNodes graph.emptiedNodes := by simp [split]
    have empty := pruned.vacant_of_container accounted nested among member container
    exact coherent.mem_done_of_container split (vacant.mp among).1 empty member container

theorem disposed (grounded : ∀ p subject source, graph.Asserts p subject source → ∃ s, graph.Declares p s)
    (coherent : next.Coherent) (kept : Alike (mid.keepNodes (!·.declarations.isEmpty)) next) :
    Disposed graph next := by
  have alike := pruned.alike
  have full {node : Node} {s : SpanId} (member : node ∈ mid.nodes) (declared : s ∈ node.declarations) :
      node ∈ (mid.keepNodes (!·.declarations.isEmpty)).nodes :=
    mem_nodes_keepNodes.mpr ⟨member, by simpa using OrderedSet.isEmpty_eq_false_of_mem declared⟩
  refine ⟨coherent, ?_, ?_, ?_, ?_, kept.emptiedNodes.trans alike.emptiedNodes,
    kept.emptiedEdges.trans alike.emptiedEdges, kept.pending.trans alike.pending,
    kept.nextNode.trans alike.nextNode, kept.nextEdge.trans alike.nextEdge, ?_, ?_⟩
  · intro node member
    obtain ⟨before, listed, bare⟩ := kept.node_of_mem member
    have declarations : before.declarations = node.declarations := congrArg (·.declarations) bare
    rw [← declarations]
    simpa using (mem_nodes_keepNodes.mp listed).2
  · intro edge member
    obtain ⟨before, listed, bare⟩ := kept.edge_of_mem member
    have sources : before.sources = edge.sources := congrArg (·.sources) bare
    rw [← sources]
    exact pruned.edges before listed
  · intro p s
    rw [kept.declares_iff, ← pruned.declares]
    constructor
    · rintro ⟨node, member, rest⟩
      exact ⟨node, (mem_nodes_keepNodes.mp member).1, rest⟩
    · rintro ⟨node, member, path, declared⟩
      exact ⟨node, full member declared, path, declared⟩
  · intro p subject source
    rw [kept.asserts_iff, ← pruned.asserts]
    constructor
    · rintro ⟨node, member, rest⟩
      exact ⟨node, (mem_nodes_keepNodes.mp member).1, rest⟩
    · intro asserts
      obtain ⟨s, declared⟩ := grounded _ _ _ ((pruned.asserts _ _ _).mp asserts)
      obtain ⟨node, member, rfl, rest⟩ := asserts
      rw [← pruned.declares, pruned.coherent.declares_iff_mem_declarations member] at declared
      exact ⟨node, full member declared, rfl, rest⟩
  · have same : mid.nodes.map Node.bare = graph.nodes.map Node.bare := alike.nodes
    rw [kept.nodes, ← same]
    exact List.filter_sublist.map _
  · have same : next.edges.map Edge.bare =
        (graph.edges.filter fun edge => !edge.sources.isEmpty).map Edge.bare := kept.edges.trans alike.edges
    rw [same]
    exact List.filter_sublist.map _

end Pruned

/-- Disposal keeps what the graph says if nothing that says something lies in what says nothing. -/
theorem Coherent.dispose_succeeds (coherent : graph.Coherent) (accounted : graph.Accounted)
    (nested : ∀ outer inner, inner.container? = some outer → (∃ s, graph.Declares inner s) →
      ∃ s, graph.Declares outer s)
    (grounded : ∀ p subject source, graph.Asserts p subject source → ∃ s, graph.Declares p s) :
    Succeeds graph.dispose (Disposed graph) := by
  unfold dispose
  refine (coherent.removeEmptied_succeeds accounted).bind fun mid pruned => ?_
  refine (pruned.removeVacant_succeeds accounted nested grounded).mono fun next result => ?_
  exact pruned.disposed grounded result.1 result.2

end Graph
end OutlineTypes
