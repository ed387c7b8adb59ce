import OutlineTypes.Proofs.Arena.Creation

/-! Nodes and edges that leave the arena. They are taken off all indexes, and what becomes of edges that led to a
node is left to a refresh. -/
namespace OutlineTypes

namespace Graph

variable {graph : Graph}

theorem named_keepEdges (keep : Edge → Bool) (key : DocumentId × Name) :
    (graph.keepEdges keep).named key = (graph.named key).filter keep := by
  change (graph.edges.filter keep).filter (graph.sees key.1 key.2 none) = _
  exact List.filter_comm _ _ _

theorem outbounds_keepEdges (keep : Edge → Bool) (id : NodeId) :
    (graph.keepEdges keep).outbounds id = (graph.outbounds id).filter keep := by
  rw [outbounds, keepEdges, outbounds]
  exact List.filter_comm _ _ _

/-- An edge is listed under its own subject only. -/
theorem Framed.key_of_mem_named (framed : graph.Framed) {edge : Edge} {node : Node} {key : DocumentId × Name}
    (listed : edge ∈ graph.named key) (member : node ∈ graph.nodes) (predecessor : node.id = edge.predecessor) :
    key = (node.path.document, edge.subject) := by
  have sees := (List.mem_filter.mp listed).2
  rw [sees_none, framed.node?_eq_some_iff.mpr ⟨member, predecessor⟩] at sees
  simp only [Option.any_some, Bool.and_eq_true, decide_eq_true_eq] at sees
  exact Prod.ext sees.2.symm sees.1.symm

/-- Beside a node, its name is its own. -/
theorem Framed.tip_eq_iff (framed : graph.Framed) {node other : Node} (member : node ∈ graph.nodes)
    (beside : other ∈ graph.within node.path.document node.container) :
    other.path.tip = node.path.tip ↔ other.id = node.id := by
  obtain ⟨among, document, names⟩ := (framed.mem_within_iff (framed.standsAt_container member)).mp beside
  constructor
  · intro tip
    have path : other.path = node.path := by
      refine TypePath.ext_names document ?_
      rw [← List.dropLast_concat_getLast other.path.names_ne, ← List.dropLast_concat_getLast node.path.names_ne, names]
      exact congrArg _ (congrArg (fun name => [name]) tip)
    rw [eq_of_key_eq framed.paths among member path]
  · intro same
    rw [eq_of_key_eq framed.nodeIds among member same]

theorem roots_keepNodes (keep : Node → Bool) (document : DocumentId) :
    (graph.keepNodes keep).roots document = (graph.roots document).filter keep := by
  rw [roots, keepNodes, roots]
  exact List.filter_comm _ _ _

theorem contents_keepNodes (keep : Node → Bool) (id : NodeId) :
    (graph.keepNodes keep).contents id = (graph.contents id).filter keep := by
  rw [contents, keepNodes, contents]
  exact List.filter_comm _ _ _

theorem named_keepNodes {id : NodeId} (silent : ∀ edge ∈ graph.edges, edge.predecessor ≠ id)
    (key : DocumentId × Name) : (graph.keepNodes (·.id ≠ id)).named key = graph.named key := by
  refine List.filter_congr fun edge listed => ?_
  have found : (graph.keepNodes (·.id ≠ id)).node? edge.predecessor = graph.node? edge.predecessor := by
    rw [node?, keepNodes, List.find?_filter, node?]
    congr 1
    funext node
    have apart := silent edge listed
    by_cases same : node.id = edge.predecessor <;> simp [same, apart]
  rw [sees_none, sees_none, found]

end Graph

namespace Arena

variable {arena : Arena}

section Removal

variable {cell : Cell} {edge : Edge}

/-- The arena without an edge of a document, which is still among the inbound edges of its successors. -/
def dropEdge (arena : Arena) (document : DocumentId) (edge : Edge) : Arena :=
  let delisted := arena.modifyNode edge.predecessor fun cell =>
    { cell with outbounds := cell.outbounds.erase edge.subject }
  { delisted with
    edges := delisted.edges.filter (·.id ≠ edge.id)
    bySubject := delisted.bySubject.prune (·.isEmpty) (document, edge.subject) (·.erase edge.id) }

theorem graph_dropEdge (arena : Arena) (document : DocumentId) (edge : Edge) :
    (arena.dropEdge document edge).graph = arena.graph.keepEdges (·.id ≠ edge.id) := by
  let index (cell : Cell) : Cell := { cell with outbounds := cell.outbounds.erase edge.subject }
  have kept (cell : Cell) : (index cell).toNode = cell.toNode := rfl
  have nodes := congrArg Graph.nodes (graph_modifyNode_of_toNode arena edge.predecessor kept)
  simp only [graph] at nodes
  simp only [graph, dropEdge, Graph.keepEdges, Graph.mk.injEq]
  exact ⟨nodes, rfl, rfl, rfl, rfl, rfl, rfl⟩

theorem entries_erase [DecidableEq κ] (m : OrderedMap κ α) (key : κ) :
    (m.erase key).entries = m.entries.filter (·.1 ≠ key) := rfl

theorem Tidy.bySubject_dropEdge (tidy : arena.Tidy) (framed : arena.graph.Framed) (listed : edge ∈ arena.edges)
    (member : cell ∈ arena.nodes) (predecessor : cell.id = edge.predecessor) :
    (arena.dropEdge cell.path.document edge).bySubject.Groups OrderedSet.toList fun key =>
      ((arena.dropEdge cell.path.document edge).graph.named key).map Edge.id := by
  have source : cell.toNode ∈ arena.graph.nodes := mem_nodes_graph.mpr ⟨cell, member, rfl⟩
  have index : (arena.dropEdge cell.path.document edge).bySubject =
      arena.bySubject.prune (·.isEmpty) (cell.path.document, edge.subject) (·.erase edge.id) := rfl
  rw [index, graph_dropEdge]
  simp only [Graph.named_keepEdges]
  refine tidy.bySubject.prune (fun ids => List.isEmpty_iff) (fun other differs => ?_) (fun none => ?_) fun ids same => ?_
  · refine congrArg _ (List.filter_eq_self.mpr fun again among => decide_eq_true fun same => differs ?_)
    cases eq_of_key_eq framed.edgeIds (List.mem_filter.mp among).1 listed same
    exact framed.key_of_mem_named among source predecessor
  · rw [List.map_eq_nil_iff.mp none]
    rfl
  · rw [OrderedSet.toList_erase, ids.nodup.erase_eq_filter, same, List.filter_map]
    exact congrArg _ (List.filter_congr fun again _ => by rw [Bool.eq_iff_iff]; simp)

theorem Tidy.outbounds_dropEdge (tidy : arena.Tidy) (framed : arena.graph.Framed) (listed : edge ∈ arena.edges)
    (document : DocumentId) {other : Cell} (among : other ∈ (arena.dropEdge document edge).nodes) :
    other.outbounds.entries = ((arena.dropEdge document edge).graph.outbounds other.id).map Edge.entry := by
  rw [graph_dropEdge, Graph.outbounds_keepEdges]
  obtain ⟨before, present, rfl⟩ := List.mem_map.mp among
  have outbounds := tidy.outbounds before present
  by_cases here : before.id = edge.predecessor
  · rw [if_pos here]
    simp only [entries_erase, outbounds, List.filter_map]
    refine congrArg _ (List.filter_congr fun again leaves => ?_)
    obtain ⟨also, origin⟩ := Graph.mem_outbounds.mp leaves
    have one : again.subject = edge.subject ↔ again.id = edge.id := by
      refine ⟨fun same => ?_, fun same => ?_⟩
      · have key : (again.predecessor, again.subject) = (edge.predecessor, edge.subject) :=
          Prod.ext (origin.trans here) same
        rw [eq_of_key_eq framed.assertions also listed key]
      · rw [eq_of_key_eq framed.edgeIds also listed same]
    simp [Edge.entry, one]
  · rw [if_neg here, outbounds]
    refine congrArg _ (List.filter_eq_self.mpr fun again leaves => ?_).symm
    obtain ⟨also, origin⟩ := Graph.mem_outbounds.mp leaves
    rw [decide_eq_true_eq]
    intro same
    cases eq_of_key_eq framed.edgeIds also listed same
    exact here origin.symm

/-- The indexes of the arena without an edge. -/
theorem Tidy.tidy_dropEdge (tidy : arena.Tidy) (framed : arena.graph.Framed) (listed : edge ∈ arena.edges)
    (member : cell ∈ arena.nodes) (predecessor : cell.id = edge.predecessor) :
    (arena.dropEdge cell.path.document edge).Tidy where
  byPath := by
    rw [graph_dropEdge]
    exact tidy.byPath
  roots := by
    rw [graph_dropEdge]
    exact tidy.roots
  bySubject := tidy.bySubject_dropEdge framed listed member predecessor
  contents other among := by
    rw [graph_dropEdge]
    obtain ⟨before, present, rfl⟩ := List.mem_map.mp among
    have contents := tidy.contents before present
    split <;> exact contents
  outbounds _ := tidy.outbounds_dropEdge framed listed cell.path.document

theorem removeEdge_eq (framed : arena.graph.Framed) (tidy : arena.Tidy) (listed : edge ∈ arena.edges)
    (member : cell ∈ arena.nodes) (predecessor : cell.id = edge.predecessor) (met : arena.node? cell.id = some cell) :
    arena.removeEdge edge.id = .ok ((arena.dropEdge cell.path.document edge).forget edge.id edge.successors) := by
  have found : arena.edge? edge.id = some edge := framed.edge?_eq_some_iff.mpr ⟨listed, rfl⟩
  have source : nodeOf { arena with edges := arena.edges.filter (·.id ≠ edge.id) } edge.predecessor = .ok cell :=
    nodeOf_eq (predecessor ▸ met)
  have index : cell.outbounds.find? edge.subject = some edge.id := by
    rw [tidy.find?_outbounds member, framed.outbound?_eq_some_iff.mpr ⟨listed, predecessor.symm, rfl⟩]
    rfl
  have change (start : Arena) := modifySuccessors_eq start edge.successors
    (fun cell => { cell with inbounds := cell.inbounds.erase edge.id }) (fun _ => rfl) fun cell => by
      simp only [erase_erase]
  unfold removeEdge
  simp only [found, source, ok_bind, index, ↓reduceIte, forget, change]
  rfl

theorem Tidy.removeEdge_follows (tidy : arena.Tidy) (framed : arena.graph.Framed) (id : EdgeId) :
    Follows Tracks (arena.removeEdge id) (arena.graph.removeEdge id) := by
  have same : arena.graph.edge? id = arena.edge? id := rfl
  cases found : arena.edge? id with
  | none =>
    rw [removeEdge, Graph.removeEdge, same, found]
    exact .ok tidy.tracks
  | some edge =>
    obtain ⟨listed, rfl⟩ := framed.edge?_eq_some_iff.mp (same.trans found)
    obtain ⟨node, member, predecessor⟩ := framed.predecessors edge listed
    obtain ⟨cell, present, rfl, met⟩ := exists_cell framed member
    have known : arena.graph.nodeOf edge.predecessor = .ok cell.toNode := predecessor ▸ framed.nodeOf_id member
    have dropped := tidy.tidy_dropEdge framed listed present predecessor
    have apart := not_mem_inbounds framed listed
    have forgotten := graph_forget (arena.dropEdge cell.path.document edge) edge (by rwa [graph_dropEdge])
    rw [removeEdge_eq framed tidy listed present predecessor met, Graph.removeEdge, same, found]
    simp only [known, ok_bind]
    refine .ok (dropped.tracks_of_resembles (resembles_forget _ _ _) (forgotten.trans ?_))
    rw [graph_dropEdge]
    rfl

/-- The arena without a node, before any edge is looked up again. -/
def dropNode (arena : Arena) (cell : Cell) : Arena :=
  let delisted := { arena with nodes := arena.nodes.filter (·.id ≠ cell.id) }.delist cell.path cell.container
  { delisted with byPath := delisted.byPath.erase cell.path }

theorem graph_dropNode (arena : Arena) (cell : Cell) :
    (arena.dropNode cell).graph = arena.graph.keepNodes (·.id ≠ cell.id) := by
  have nodes : (arena.nodes.filter (·.id ≠ cell.id)).map Cell.toNode =
      (arena.nodes.map Cell.toNode).filter (·.id ≠ cell.id) := by
    rw [List.filter_map]
    rfl
  let kept : Arena := { arena with nodes := arena.nodes.filter (·.id ≠ cell.id) }
  have delisted : (kept.delist cell.path cell.container).graph = kept.graph := by
    cases cell.container with
    | none => rfl
    | some around => exact graph_modifyNode_of_toNode kept around fun _ => rfl
  calc (arena.dropNode cell).graph
      = (kept.delist cell.path cell.container).graph := rfl
    _ = kept.graph := delisted
    _ = arena.graph.keepNodes (·.id ≠ cell.id) := by
      simp only [graph, kept, Graph.keepNodes, nodes]

/-- What is listed beside a node goes on to be listed when the node is taken off the list. -/
theorem entries_erase_tip {graph : Graph} (framed : graph.Framed) {node : Node} (member : node ∈ graph.nodes)
    {m : OrderedMap Name NodeId}
    (entries : m.entries = (graph.within node.path.document node.container).map Node.entry) :
    (m.erase node.path.tip).entries =
      ((graph.within node.path.document node.container).filter (·.id ≠ node.id)).map Node.entry := by
  rw [entries_erase, entries, List.filter_map]
  refine congrArg _ (List.filter_congr fun other beside => ?_)
  simp [Node.entry, framed.tip_eq_iff member beside]

theorem exists_of_mem_dropNode {other : Cell} (among : other ∈ (arena.dropNode cell).nodes) :
    ∃ before ∈ arena.nodes, before.id ≠ cell.id ∧ other = if cell.container = some before.id
      then { before with contents := before.contents.erase cell.path.tip } else before := by
  cases held : cell.container with
  | none =>
    simp only [dropNode, held, delist] at among
    obtain ⟨present, apart⟩ := List.mem_filter.mp among
    exact ⟨other, present, of_decide_eq_true apart, rfl⟩
  | some around =>
    simp only [dropNode, held, delist, modifyNode] at among
    obtain ⟨before, kept, rfl⟩ := List.mem_map.mp among
    obtain ⟨present, apart⟩ := List.mem_filter.mp kept
    refine ⟨before, present, of_decide_eq_true apart, ?_⟩
    by_cases here : before.id = around
    · rw [if_pos here, if_pos (congrArg some here.symm)]
    · rw [if_neg here, if_neg fun same => here (Option.some.inj same).symm]

/-- Taking a node out of a list that it is not on leaves the list as it is. -/
theorem filter_of_absent {graph : Graph} (framed : graph.Framed) {node : Node} (member : node ∈ graph.nodes)
    {nodes : List Node} (listed : ∀ other ∈ nodes, other ∈ graph.nodes) (absent : node ∉ nodes) :
    nodes.filter (·.id ≠ node.id) = nodes := by
  refine List.filter_eq_self.mpr fun other among => ?_
  rw [decide_eq_true_eq]
  intro same
  exact absent (eq_of_key_eq framed.nodeIds (listed other among) member same ▸ among)

theorem Tidy.byPath_dropNode (tidy : arena.Tidy) (framed : arena.graph.Framed) (member : cell ∈ arena.nodes)
    (path : TypePath) :
    (arena.dropNode cell).byPath.find? path = ((arena.dropNode cell).graph.nodeAt? path).map Node.id := by
  have source : cell.toNode ∈ arena.graph.nodes := mem_nodes_graph.mpr ⟨cell, member, rfl⟩
  have index : (arena.dropNode cell).byPath = arena.byPath.erase cell.path := by
    rw [dropNode]
    cases cell.container <;> rfl
  rw [index, graph_dropNode, OrderedMap.find?_erase, framed.nodeAt?_keepNodes, tidy.byPath]
  by_cases here : path = cell.path
  · rw [if_pos here, here, framed.nodeAt?_eq_some_iff.mpr ⟨source, rfl⟩]
    simp
  · rw [if_neg here]
    cases found : arena.graph.nodeAt? path with
    | none => rfl
    | some node =>
      obtain ⟨among, rfl⟩ := framed.nodeAt?_eq_some_iff.mp found
      have apart : node.id ≠ cell.id := fun same =>
        here (congrArg Node.path (eq_of_key_eq framed.nodeIds among source same))
      simp [apart]

theorem Tidy.roots_dropNode (tidy : arena.Tidy) (framed : arena.graph.Framed) (member : cell ∈ arena.nodes) :
    (arena.dropNode cell).roots.Groups OrderedMap.entries fun document =>
      ((arena.dropNode cell).graph.roots document).map Node.entry := by
  have source : cell.toNode ∈ arena.graph.nodes := mem_nodes_graph.mpr ⟨cell, member, rfl⟩
  rw [graph_dropNode]
  simp only [Graph.roots_keepNodes]
  have apart {document : DocumentId} (absent : cell.toNode ∉ arena.graph.roots document) :
      (arena.graph.roots document).filter (·.id ≠ cell.id) = arena.graph.roots document :=
    filter_of_absent framed source (fun _ among => (Graph.mem_roots.mp among).1) absent
  cases held : cell.container with
  | none =>
    have index : (arena.dropNode cell).roots =
        arena.roots.prune (·.isEmpty) cell.path.document (·.erase cell.path.tip) := by
      simp only [dropNode, held, delist]
    have beside : arena.graph.within cell.path.document cell.container = arena.graph.roots cell.path.document := by
      rw [held]
      rfl
    rw [index]
    refine tidy.roots.prune (fun _ => List.isEmpty_iff) (fun other differs => ?_) (fun none => ?_) fun roots same => ?_
    · rw [apart fun among => differs (Graph.mem_roots.mp among).2.1.symm]
    · rw [List.map_eq_nil_iff.mp none]
      rfl
    · rw [← beside] at same ⊢
      exact entries_erase_tip framed source same
  | some around =>
    have index : (arena.dropNode cell).roots = arena.roots := by
      simp only [dropNode, held, delist, modifyNode]
    rw [index]
    refine tidy.roots.congr fun document => ?_
    rw [apart fun among => Option.some_ne_none around (held.symm.trans (Graph.mem_roots.mp among).2.2)]

theorem Tidy.contents_dropNode (tidy : arena.Tidy) (framed : arena.graph.Framed) (member : cell ∈ arena.nodes)
    {other : Cell} (among : other ∈ (arena.dropNode cell).nodes) :
    other.contents.entries = ((arena.dropNode cell).graph.contents other.id).map Node.entry := by
  have source : cell.toNode ∈ arena.graph.nodes := mem_nodes_graph.mpr ⟨cell, member, rfl⟩
  rw [graph_dropNode, Graph.contents_keepNodes]
  obtain ⟨before, present, _, rfl⟩ := exists_of_mem_dropNode among
  have contents := tidy.contents before present
  by_cases held : cell.container = some before.id
  · have beside : arena.graph.within cell.path.document cell.container = arena.graph.contents before.id := by
      rw [held]
      rfl
    rw [if_pos held]
    rw [← beside] at contents ⊢
    exact entries_erase_tip framed source contents
  · rw [if_neg held, filter_of_absent framed source (fun _ among => (Graph.mem_contents.mp among).1)
      fun among => held (Graph.mem_contents.mp among).2]
    exact contents

/-- The indexes of the arena without a node that no edge leaves. -/
theorem Tidy.tidy_dropNode (tidy : arena.Tidy) (framed : arena.graph.Framed) (member : cell ∈ arena.nodes)
    (silent : ∀ edge ∈ arena.graph.edges, edge.predecessor ≠ cell.id) : (arena.dropNode cell).Tidy where
  byPath := tidy.byPath_dropNode framed member
  roots := tidy.roots_dropNode framed member
  bySubject := by
    have index : (arena.dropNode cell).bySubject = arena.bySubject := by
      rw [dropNode]
      cases cell.container <;> rfl
    rw [index, graph_dropNode]
    exact tidy.bySubject.congr fun key => by rw [Graph.named_keepNodes silent]
  contents _ := tidy.contents_dropNode framed member
  outbounds other among := by
    rw [graph_dropNode]
    obtain ⟨before, present, _, rfl⟩ := exists_of_mem_dropNode among
    have outbounds := tidy.outbounds before present
    split <;> exact outbounds

theorem Tidy.removeEdges_follow (tidy : arena.Tidy) (coherent : arena.graph.Coherent) (ids : List EdgeId) :
    Follows Tracks (ids.foldlM removeEdge arena) (ids.foldlM Graph.removeEdge arena.graph) := by
  have kept : Follows (fun arena graph => Tracks arena graph ∧ graph.Coherent) (ids.foldlM removeEdge arena)
      (ids.foldlM Graph.removeEdge arena.graph) := by
    refine Follows.foldlM ⟨tidy.tracks, coherent⟩ ?_
    rintro arena _ ⟨⟨rfl, tidy⟩, coherent⟩ id _
    exact (tidy.removeEdge_follows coherent.toFramed id).and
      ((coherent.removeEdge_succeeds id).ensures.mono fun _ h => h.1)
  exact kept.mono fun _ _ h => h.1

theorem Tidy.removeNode_follows (tidy : arena.Tidy) (coherent : arena.graph.Coherent) (id : NodeId) :
    Follows Tracks (arena.removeNode id) (arena.graph.removeNode id) := by
  unfold removeNode Graph.removeNode
  refine (nodeOf_follows arena id).bind ?_
  rintro cell _ ⟨rfl, met⟩
  have same : cell.id = id := by simpa using List.find?_some met
  subst same
  have present := List.mem_of_find?_eq_some met
  have member : cell.toNode ∈ arena.graph.nodes := mem_nodes_graph.mpr ⟨cell, present, rfl⟩
  have leaving : cell.outbounds.values = (arena.graph.outbounds cell.id).map Edge.id := by
    rw [OrderedMap.values, tidy.outbounds cell present, List.map_map]
    rfl
  rw [leaving]
  have removed := (tidy.removeEdges_follow coherent ((arena.graph.outbounds cell.id).map Edge.id)).and
    (coherent.removeOutbounds_succeeds cell.id).ensures
  refine removed.bind ?_
  rintro mid _ ⟨⟨rfl, midTidy⟩, midCoherent, alike, silent⟩
  obtain ⟨node, stays, bare⟩ := alike.symm.node_of_mem member
  obtain ⟨now, listed, rfl, found⟩ := exists_cell midCoherent.toFramed stays
  have nowId : now.id = cell.id := congrArg (·.id) bare
  have nowPath : now.path = cell.path := congrArg (·.path) bare
  have contents := midTidy.contents now listed
  rw [nowId] at found contents
  have vacant : now.contents.isEmpty = (mid.graph.contents cell.id).isEmpty := by
    rw [OrderedMap.isEmpty, contents, List.isEmpty_map]
  have count : now.contents.size = (mid.graph.contents cell.id).length := by
    rw [OrderedMap.size, contents, List.length_map]
  simp only [found, vacant, count, nowPath]
  cases empty : (mid.graph.contents cell.id).isEmpty with
  | false => exact .error _
  | true =>
    have alone : ∀ other ∈ mid.graph.nodes, other.container ≠ some cell.id := by
      simpa [Graph.contents, List.filter_eq_nil_iff] using empty
    have framed := midCoherent.framed_dropNode silent alone
    have dropped := midTidy.tidy_dropNode midCoherent.toFramed listed (nowId ▸ silent)
    have refreshed := dropped.refresh_follows (by rw [graph_dropNode, nowId]; exact framed) now.path
    rw [graph_dropNode, nowId, nowPath] at refreshed
    simp only [dropNode, nowId, nowPath] at refreshed
    exact refreshed

end Removal
end Arena
end OutlineTypes
