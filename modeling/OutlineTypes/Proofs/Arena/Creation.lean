import OutlineTypes.Proofs.Arena.Successors

/-! Nodes and edges that come into the arena. Each operation is taken apart into what it does to the indexes, after
which these are tidy again, and a refresh. -/
namespace OutlineTypes

namespace Graph

variable {graph : Graph}

theorem nodeAt?_addNode (container : Option NodeId) (path p : TypePath) :
    (graph.addNode container path).nodeAt? p = (graph.nodeAt? p).or
      (if path = p then some ⟨.mk graph.nextNode, container, path, ∅, ∅⟩ else none) := by
  rw [nodeAt?, addNode, List.find?_append]
  by_cases here : path = p <;> simp [here, nodeAt?]

theorem roots_addNode (container : Option NodeId) (path : TypePath) (document : DocumentId) :
    (graph.addNode container path).roots document = graph.roots document ++
      (if path.document = document ∧ container = none then [⟨.mk graph.nextNode, container, path, ∅, ∅⟩] else []) := by
  rw [roots, addNode, List.filter_append]
  by_cases here : path.document = document <;> cases container <;> simp [here, roots]

theorem contents_addNode (container : Option NodeId) (path : TypePath) (id : NodeId) :
    (graph.addNode container path).contents id = graph.contents id ++
      (if container = some id then [⟨.mk graph.nextNode, container, path, ∅, ∅⟩] else []) := by
  rw [contents, addNode, List.filter_append]
  by_cases here : container = some id <;> simp [here, contents]

theorem Framed.named_addNode (framed : graph.Framed) (container : Option NodeId) (path : TypePath)
    (key : DocumentId × Name) : (graph.addNode container path).named key = graph.named key := by
  refine List.filter_congr fun edge listed => ?_
  obtain ⟨node, member, predecessor⟩ := framed.predecessors edge listed
  have found : graph.node? edge.predecessor = some node := framed.node?_eq_some_iff.mpr ⟨member, predecessor⟩
  have again : (graph.addNode container path).node? edge.predecessor = some node := by
    rw [node?] at found
    rw [node?, addNode, List.find?_append, found, Option.some_or]
  rw [sees_none, sees_none, found, again]

/-- Nothing lies in a node whose number is not given out, and nothing leaves it. -/
theorem Framed.contents_next (framed : graph.Framed) : graph.contents (.mk graph.nextNode) = [] := by
  refine List.filter_eq_nil_iff.mpr fun node member inside => ?_
  obtain ⟨around, among, same⟩ := framed.exists_of_container member (of_decide_eq_true inside)
  have below := framed.nodesBelow around among
  rw [same] at below
  exact Nat.lt_irrefl _ below

theorem Framed.outbounds_next (framed : graph.Framed) : graph.outbounds (.mk graph.nextNode) = [] := by
  refine List.filter_eq_nil_iff.mpr fun edge listed leaves => ?_
  obtain ⟨node, member, same⟩ := framed.predecessors edge listed
  have below := framed.nodesBelow node member
  rw [same, of_decide_eq_true leaves] at below
  exact Nat.lt_irrefl _ below

/-- The graph with one more edge that has no sources yet. -/
def addVacantEdge (graph : Graph) (predecessor : NodeId) (subject : Name) : Graph :=
  { graph with
    edges := graph.edges ++ [⟨.mk graph.nextEdge, predecessor, subject, ∅, []⟩]
    nextEdge := graph.nextEdge + 1 }

theorem Framed.framed_addVacantEdge (framed : graph.Framed) {predecessor : Node} (member : predecessor ∈ graph.nodes)
    {subject : Name} (vacant : graph.outbound? predecessor.id subject = none) :
    (graph.addVacantEdge predecessor.id subject).Framed := by
  -- The frame does not look at spans, so that any span may stand in for the source.
  let source : SpanId := ⟨⟨⟨0⟩, 0⟩, .annotated, 0⟩
  have respanned : Respanned (graph.addEdge predecessor.id source subject) (graph.addVacantEdge predecessor.id subject) := by
    refine ⟨rfl, ?_, rfl, rfl⟩
    simp [addEdge, addVacantEdge]
  exact respanned.framed (framed.framed_addEdge member source vacant)

theorem Framed.named_addVacantEdge (framed : graph.Framed) {predecessor : Node} (member : predecessor ∈ graph.nodes)
    (subject : Name) (key : DocumentId × Name) : (graph.addVacantEdge predecessor.id subject).named key =
      graph.named key ++ (if (predecessor.path.document, subject) = key
        then [⟨.mk graph.nextEdge, predecessor.id, subject, ∅, []⟩] else []) := by
  let edge : Edge := ⟨.mk graph.nextEdge, predecessor.id, subject, ∅, []⟩
  have new : graph.sees key.1 key.2 none edge = decide ((predecessor.path.document, subject) = key) := by
    rw [sees_none, framed.node?_id member]
    obtain ⟨document, name⟩ := key
    simp [edge, Bool.and_comm]
  change (graph.edges ++ [edge]).filter (graph.sees key.1 key.2 none) = _
  rw [List.filter_append, List.filter_singleton, new]
  by_cases here : (predecessor.path.document, subject) = key
  · rw [decide_eq_true here, if_pos here]
    rfl
  · rw [decide_eq_false here, if_neg here]
    rfl

theorem outbounds_addVacantEdge (predecessor : NodeId) (subject : Name) (id : NodeId) :
    (graph.addVacantEdge predecessor subject).outbounds id = graph.outbounds id ++
      (if predecessor = id then [⟨.mk graph.nextEdge, predecessor, subject, ∅, []⟩] else []) := by
  rw [outbounds, addVacantEdge, List.filter_append]
  by_cases here : predecessor = id <;> simp [here, outbounds]

/-- An edge is created as one that is added without sources, looked up, and then given its source. -/
theorem Framed.createEdge_eq (framed : graph.Framed) {predecessor : Node} (member : predecessor ∈ graph.nodes)
    {subject : Name} (vacant : graph.outbound? predecessor.id subject = none) (source : SpanId) : ∃ mid,
      (graph.addVacantEdge predecessor.id subject).relink (.mk graph.nextEdge) = .ok mid ∧
        graph.createEdge predecessor.id source subject = .ok (mid.modifyEdge (.mk graph.nextEdge) fun edge =>
          { edge with sources := edge.sources.insert source }) := by
  let edge : Edge := ⟨.mk graph.nextEdge, predecessor.id, subject, ∅, []⟩
  have nextFramed := framed.framed_addVacantEdge member vacant
  have found : (graph.addVacantEdge predecessor.id subject).edge? (.mk graph.nextEdge) = some edge :=
    nextFramed.edge?_eq_some_iff.mpr ⟨List.mem_append_right _ List.mem_cons_self, rfl⟩
  have shown : (graph.addVacantEdge predecessor.id subject).successorsOf edge.predecessor edge.subject =
      .ok (graph.visible predecessor.path subject) :=
    nextFramed.successorsOf_id member subject
  refine ⟨(graph.addVacantEdge predecessor.id subject).link
    { edge with successors := graph.visible predecessor.path subject }, ?_, ?_⟩
  · simp only [relink, found, shown, ok_bind]
    rfl
  · have others (change : Edge → Edge) : graph.edges.map (fun other =>
        if other.id = .mk graph.nextEdge then change other else other) = graph.edges :=
      (List.map_congr_left fun other among => if_neg (framed.edgeId_ne_next among)).trans (List.map_id _)
    rw [createEdge, framed.successorsOf_id member, ok_bind]
    simp only [link, modifyEdge, addVacantEdge, edge, List.map_append, others, List.map_cons, List.map_nil,
      ↓reduceIte]
    rfl

end Graph

namespace Arena

variable {arena : Arena}

section Creation

variable {path : TypePath} {container : Option NodeId}

theorem Tidy.containerOf_eq (tidy : arena.Tidy) (path : TypePath) :
    arena.containerOf path = arena.graph.containerOf path := by
  unfold containerOf Graph.containerOf
  cases path.container? with
  | none => rfl
  | some outer =>
    simp only [tidy.byPath outer]
    cases arena.graph.nodeAt? outer <;> rfl

/-- A change of nodes that only their indexes show. -/
theorem graph_modifyNode_of_toNode (arena : Arena) (id : NodeId) {change : Cell → Cell}
    (same : ∀ cell, (change cell).toNode = cell.toNode) : (arena.modifyNode id change).graph = arena.graph := by
  simp only [graph, modifyNode, List.map_map, Graph.mk.injEq, and_true]
  refine List.map_congr_left fun cell _ => ?_
  rw [Function.comp_apply]
  split
  · exact same cell
  · rfl

/-- The arena with a node listed in its container, or among the roots of its document. -/
def enlisted (arena : Arena) (id : NodeId) (path : TypePath) : Option NodeId → Arena
  | some around => arena.modifyNode around fun cell => { cell with contents := cell.contents.insert path.tip id }
  | none => { arena with roots := arena.roots.alter path.document (·.insert path.tip id) }

/-- The arena with one more node, before any edge is looked up again. -/
def addNode (arena : Arena) (container : Option NodeId) (path : TypePath) : Arena :=
  let id := NodeId.mk arena.nextNode
  let listed := arena.enlisted id path container
  { listed with
    nodes := listed.nodes ++ [⟨⟨id, container, path, ∅, ∅⟩, ∅, ∅⟩]
    nextNode := listed.nextNode + 1
    byPath := listed.byPath.insert path id }

/-- The container is the node around `path`. -/
def Around (graph : Graph) (path : TypePath) (container : Option NodeId) : Prop :=
  (path.container? = none → container = none) ∧ ∀ outer, path.container? = some outer →
    ∃ around ∈ graph.nodes, around.path = outer ∧ container = some around.id

theorem enlist_eq (framed : arena.graph.Framed) (around : Around arena.graph path container) (id : NodeId) :
    arena.enlist id path container = .ok (arena.enlisted id path container) := by
  cases container with
  | none => rfl
  | some outer =>
    cases inside : path.container? with
    | none => simpa using around.1 inside
    | some outerPath =>
      obtain ⟨node, member, _, same⟩ := around.2 outerPath inside
      obtain ⟨cell, _, rfl, found⟩ := exists_cell framed member
      cases same
      simp only [enlist, updateNode, nodeOf_eq found, ok_bind]
      rfl

theorem graph_addNode (arena : Arena) (container : Option NodeId) (path : TypePath) :
    (arena.addNode container path).graph = arena.graph.addNode container path := by
  have listed : (arena.enlisted (.mk arena.nextNode) path container).graph = arena.graph := by
    cases container with
    | none => rfl
    | some around => exact graph_modifyNode_of_toNode arena around fun _ => rfl
  have nodes := congrArg Graph.nodes listed
  cases container with
  | none => simp [addNode, enlisted, graph, Graph.addNode]
  | some around =>
    simp only [graph] at nodes
    simp [addNode, graph, Graph.addNode, nodes]
    simp [enlisted, modifyNode]

theorem Around.standsAt {graph : Graph} (around : Around graph path container) :
    graph.StandsAt path.document path.names.dropLast container := by
  cases inside : path.container? with
  | none =>
    rw [around.1 inside]
    exact TypePath.container?_eq_none_iff.mp inside
  | some outer =>
    obtain ⟨node, member, rfl, same⟩ := around.2 outer inside
    obtain ⟨document, names, _⟩ := TypePath.of_container? inside
    rw [same]
    exact ⟨node, member, rfl, document, names⟩

/-- Where a path is to be declared anew, nothing of its name is listed. -/
theorem find?_within_vacant (framed : arena.graph.Framed) (around : Around arena.graph path container)
    (vacant : arena.graph.nodeAt? path = none) :
    (arena.graph.within path.document container).find? (fun node => node.path.tip = path.tip) = none := by
  have here : (⟨path.document, path.names.dropLast ++ [path.tip], by simp⟩ : TypePath) = path :=
    TypePath.ext_names rfl (List.dropLast_concat_getLast path.names_ne)
  rw [find?_within framed around.standsAt, here, vacant]

theorem find?_eq_none_of_entries {m : OrderedMap Name NodeId} {nodes : List Node} {name : Name}
    (entries : m.entries = nodes.map Node.entry) (fresh : nodes.find? (fun node => node.path.tip = name) = none) :
    m.find? name = none := by
  have found := find?_of_entries_eq entries name
  exact found.trans (congrArg _ fresh)

theorem Around.ne_next (framed : arena.graph.Framed) (around : Around arena.graph path container) {id : NodeId}
    (held : container = some id) : id ≠ .mk arena.nextNode := by
  rintro rfl
  cases inside : path.container? with
  | none => simp [around.1 inside] at held
  | some outer =>
    obtain ⟨node, member, _, same⟩ := around.2 outer inside
    have below := framed.nodesBelow node member
    rw [Option.some.inj (same.symm.trans held)] at below
    exact Nat.lt_irrefl _ below

theorem mem_nodes_addNode {cell : Cell} (among : cell ∈ (arena.addNode container path).nodes) :
    (∃ before ∈ arena.nodes, cell = if container = some before.id
      then { before with contents := before.contents.insert path.tip (.mk arena.nextNode) } else before) ∨
    cell = ⟨⟨.mk arena.nextNode, container, path, ∅, ∅⟩, ∅, ∅⟩ := by
  refine (List.mem_append.mp among).imp (fun listed => ?_) List.mem_singleton.mp
  cases container with
  | none => exact ⟨cell, listed, rfl⟩
  | some outer =>
    obtain ⟨before, present, rfl⟩ := List.mem_map.mp listed
    refine ⟨before, present, ?_⟩
    by_cases here : before.id = outer
    · rw [if_pos here, if_pos (congrArg some here.symm)]
    · rw [if_neg here, if_neg fun same => here (Option.some.inj same).symm]

theorem Tidy.byPath_addNode (tidy : arena.Tidy) (vacant : arena.graph.nodeAt? path = none) (p : TypePath) :
    (arena.addNode container path).byPath.find? p =
      ((arena.addNode container path).graph.nodeAt? p).map Node.id := by
  have index : (arena.addNode container path).byPath = arena.byPath.insert path (.mk arena.nextNode) := by
    cases container <;> rfl
  rw [index, OrderedMap.find?_insert, graph_addNode, Graph.nodeAt?_addNode, tidy.byPath p]
  by_cases here : p = path
  · rw [if_pos here, here, vacant, if_pos rfl]
    rfl
  · rw [if_neg here, if_neg (Ne.symm here), Option.or_none]

theorem Tidy.roots_addNode (tidy : arena.Tidy) (framed : arena.graph.Framed)
    (around : Around arena.graph path container) (vacant : arena.graph.nodeAt? path = none) :
    (arena.addNode container path).roots.Groups OrderedMap.entries fun document =>
      ((arena.addNode container path).graph.roots document).map Node.entry := by
  have fresh := find?_within_vacant framed around vacant
  simp only [graph_addNode, Graph.roots_addNode]
  cases container with
  | none =>
    have index : (arena.addNode none path).roots =
        arena.roots.alter path.document (·.insert path.tip (.mk arena.nextNode)) := rfl
    rw [index]
    refine tidy.roots.alter rfl (fun other differs => ?_) ?_ fun roots same => ?_
    · rw [if_neg fun here => differs here.1.symm, List.append_nil]
    · simp
    · rw [OrderedMap.entries_insert_of_fresh (find?_eq_none_of_entries same fresh), same, if_pos ⟨rfl, rfl⟩,
        List.map_append]
      rfl
  | some outer =>
    refine tidy.roots.congr fun document => ?_
    rw [if_neg fun here => Option.some_ne_none _ here.2, List.append_nil]

theorem Tidy.contents_addNode (tidy : arena.Tidy) (framed : arena.graph.Framed)
    (around : Around arena.graph path container) (vacant : arena.graph.nodeAt? path = none) {cell : Cell}
    (among : cell ∈ (arena.addNode container path).nodes) :
    cell.contents.entries = ((arena.addNode container path).graph.contents cell.id).map Node.entry := by
  rw [graph_addNode, Graph.contents_addNode]
  obtain ⟨before, present, rfl⟩ | rfl := mem_nodes_addNode among
  · have contents := tidy.contents before present
    by_cases held : container = some before.id
    · have fresh := find?_within_vacant framed around vacant
      rw [held] at fresh
      simp only [held, ↓reduceIte, OrderedMap.entries_insert_of_fresh (find?_eq_none_of_entries contents fresh),
        contents, List.map_append]
      rfl
    · rw [if_neg held, if_neg held, List.append_nil]
      exact contents
  · rw [if_neg fun same => around.ne_next framed same rfl, List.append_nil]
    exact (congrArg (List.map Node.entry) framed.contents_next).symm

theorem Tidy.outbounds_addNode (tidy : arena.Tidy) (framed : arena.graph.Framed) {cell : Cell}
    (among : cell ∈ (arena.addNode container path).nodes) :
    cell.outbounds.entries = ((arena.addNode container path).graph.outbounds cell.id).map Edge.entry := by
  rw [graph_addNode]
  obtain ⟨before, present, rfl⟩ | rfl := mem_nodes_addNode among
  · have outbounds := tidy.outbounds before present
    split <;> exact outbounds
  · exact (congrArg (List.map Edge.entry) framed.outbounds_next).symm

/-- The indexes of the arena with one more node. -/
theorem Tidy.tidy_addNode (tidy : arena.Tidy) (framed : arena.graph.Framed)
    (around : Around arena.graph path container) (vacant : arena.graph.nodeAt? path = none) :
    (arena.addNode container path).Tidy where
  byPath := tidy.byPath_addNode vacant
  roots := tidy.roots_addNode framed around vacant
  bySubject := by
    have index : (arena.addNode container path).bySubject = arena.bySubject := by cases container <;> rfl
    rw [index, graph_addNode]
    exact tidy.bySubject.congr fun key => by rw [framed.named_addNode]
  contents _ := tidy.contents_addNode framed around vacant
  outbounds _ := tidy.outbounds_addNode framed

theorem Tidy.createNode_follows (tidy : arena.Tidy) (coherent : arena.graph.Coherent)
    (vacant : arena.graph.nodeAt? path = none) :
    Follows (fun x y => x.1 = y.1 ∧ Tracks x.2 y.2) (arena.createNode path) (arena.graph.createNode path) := by
  unfold createNode Graph.createNode
  rw [tidy.containerOf_eq]
  cases located : arena.graph.containerOf path with
  | error reason => exact .error reason
  | ok container =>
    have around : Around arena.graph path container := coherent.containerOf_ensures path container located
    have framed := coherent.framed_addNode vacant around.1 around.2
    have refreshed := (tidy.tidy_addNode coherent.toFramed around vacant).refresh_follows
      (graph_addNode arena container path ▸ framed) path
    rw [graph_addNode] at refreshed
    simp only [ok_bind, enlist_eq coherent.toFramed around]
    exact refreshed.bind fun _ _ tracks => .pure ⟨rfl, tracks⟩

end Creation

section Assertion

variable {cell : Cell} {subject : Name}

/-- The outbound edge of a name, by the index of the node. -/
theorem Tidy.find?_outbounds (tidy : arena.Tidy) (member : cell ∈ arena.nodes) (subject : Name) :
    cell.outbounds.find? subject = (arena.graph.outbound? cell.id subject).map Edge.id := by
  refine (find?_of_entries_eq (tidy.outbounds cell member) subject).trans ?_
  simp only [Graph.outbounds, List.find?_filter, Bool.decide_and, Bool.decide_eq_true]
  rfl

/-- The arena with one more edge, before its successors are looked up. -/
def addEdge (arena : Arena) (predecessor : Cell) (subject : Name) : Arena :=
  let id := EdgeId.mk arena.nextEdge
  let listed := arena.modifyNode predecessor.id fun cell =>
    { cell with outbounds := cell.outbounds.insert subject id }
  { listed with
    edges := listed.edges ++ [⟨id, predecessor.id, subject, ∅, []⟩]
    nextEdge := listed.nextEdge + 1
    bySubject := listed.bySubject.alter (predecessor.path.document, subject) (·.insert id) }

theorem graph_addEdge (arena : Arena) (predecessor : Cell) (subject : Name) :
    (arena.addEdge predecessor subject).graph = arena.graph.addVacantEdge predecessor.id subject := by
  let index (cell : Cell) : Cell := { cell with outbounds := cell.outbounds.insert subject (.mk arena.nextEdge) }
  have kept (cell : Cell) : (index cell).toNode = cell.toNode := rfl
  have nodes := congrArg Graph.nodes (graph_modifyNode_of_toNode arena predecessor.id kept)
  simp only [graph] at nodes
  simp only [graph, addEdge, Graph.addVacantEdge, Graph.mk.injEq]
  exact ⟨nodes, rfl, rfl, rfl, rfl, rfl, rfl⟩

theorem Tidy.bySubject_addEdge (tidy : arena.Tidy) (framed : arena.graph.Framed) (member : cell ∈ arena.nodes) :
    (arena.addEdge cell subject).bySubject.Groups OrderedSet.toList fun key =>
      ((arena.addEdge cell subject).graph.named key).map Edge.id := by
  have source : cell.toNode ∈ arena.graph.nodes := mem_nodes_graph.mpr ⟨cell, member, rfl⟩
  have index : (arena.addEdge cell subject).bySubject =
      arena.bySubject.alter (cell.path.document, subject) (·.insert (.mk arena.nextEdge)) := rfl
  rw [index, graph_addEdge]
  simp only [framed.named_addVacantEdge source]
  refine tidy.bySubject.alter rfl (fun other differs => ?_) ?_ fun ids same => ?_
  · rw [if_neg (Ne.symm differs), List.append_nil]
  · simp
  · have fresh : EdgeId.mk arena.nextEdge ∉ ids := by
      intro held
      rw [OrderedSet.mem_def, same] at held
      obtain ⟨edge, listed, id⟩ := List.mem_map.mp held
      exact framed.edgeId_ne_next (List.mem_filter.mp listed).1 id
    rw [OrderedSet.toList_insert, if_neg fresh, same, if_pos rfl, List.map_append]
    rfl

theorem Tidy.outbounds_addEdge (tidy : arena.Tidy) (vacant : arena.graph.outbound? cell.id subject = none)
    {other : Cell} (among : other ∈ (arena.addEdge cell subject).nodes) :
    other.outbounds.entries = ((arena.addEdge cell subject).graph.outbounds other.id).map Edge.entry := by
  rw [graph_addEdge, Graph.outbounds_addVacantEdge]
  obtain ⟨before, present, rfl⟩ := List.mem_map.mp among
  have outbounds := tidy.outbounds before present
  by_cases here : before.id = cell.id
  · have free := tidy.find?_outbounds present subject
    rw [here, vacant, Option.map_none] at free
    rw [if_pos here]
    simp only [here, ↓reduceIte, OrderedMap.entries_insert_of_fresh free, outbounds, List.map_append]
    rfl
  · rw [if_neg here, if_neg (Ne.symm here), List.append_nil]
    exact outbounds

/-- The indexes of the arena with one more edge. -/
theorem Tidy.tidy_addEdge (tidy : arena.Tidy) (framed : arena.graph.Framed) (member : cell ∈ arena.nodes)
    (vacant : arena.graph.outbound? cell.id subject = none) : (arena.addEdge cell subject).Tidy where
  byPath := by
    rw [graph_addEdge]
    exact tidy.byPath
  roots := by
    rw [graph_addEdge]
    exact tidy.roots
  bySubject := tidy.bySubject_addEdge framed member
  contents other among := by
    rw [graph_addEdge]
    obtain ⟨before, present, rfl⟩ := List.mem_map.mp among
    have contents := tidy.contents before present
    split <;> exact contents
  outbounds _ := tidy.outbounds_addEdge vacant

theorem Tidy.annotate_follows (tidy : arena.Tidy) (framed : arena.graph.Framed) {node : Node}
    (member : node ∈ arena.graph.nodes) (source : SpanId) (subject : Name) :
    Follows Tracks (arena.annotate node.id source subject) (arena.graph.annotate node.id source subject) := by
  obtain ⟨cell, present, rfl, met⟩ := exists_cell framed member
  have index := tidy.find?_outbounds present subject
  have asserted (mid : Arena) (id : EdgeId) : Resembles mid (mid.modifyEdge id fun edge =>
      { edge with sources := edge.sources.insert source }) :=
    resembles_modifyEdge id fun _ _ _ => rfl
  unfold annotate Graph.annotate
  rw [nodeOf_eq met, ok_bind, index]
  cases found : arena.graph.outbound? cell.id subject with
  | some edge => exact .ok (tidy.tracks_of_resembles (asserted arena edge.id) rfl)
  | none =>
    obtain ⟨mid, relinked, created⟩ := framed.createEdge_eq member found source
    have added := tidy.tidy_addEdge framed present found
    have follows := added.relink_follows
      (graph_addEdge arena cell subject ▸ framed.framed_addVacantEdge member found) (.mk arena.nextEdge)
    rw [graph_addEdge] at follows
    obtain ⟨next, made, rfl, nextTidy⟩ := follows.exists_left relinked
    have edge : arena.createEdge cell.id subject = .ok (.mk arena.nextEdge, next) := by
      rw [createEdge, nodeOf_eq met, ok_bind]
      change ((arena.addEdge cell subject).relink _ >>= _) = _
      rw [made]
      rfl
    simp only [Option.map_none, edge, created, ok_bind]
    exact .ok (nextTidy.tracks_of_resembles (asserted next _) rfl)

end Assertion
end Arena
end OutlineTypes
