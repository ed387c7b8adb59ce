import OutlineTypes.Proofs.Graph.Coherence

/-! Looking successors up again. A node that comes or goes changes what the scopes around an edge show
only if the refresh at its path selects that edge; after the refresh every edge is up to date. -/
namespace OutlineTypes

namespace TypePath

theorem of_container? {path outer : TypePath} (h : path.container? = some outer) :
    outer.document = path.document ∧ outer.names = path.names.dropLast ∧
      path.length = outer.length + 1 := by
  have child := eq_child_of_container? h
  have names : path.names = outer.names ++ [path.tip] := congrArg (·.names) child
  have document : path.document = outer.document := congrArg (·.document) child
  refine ⟨document.symm, ?_, ?_⟩
  · rw [names, List.dropLast_concat]
  · simp [length, names]

theorem container?_eq_none_iff {path : TypePath} : path.container? = none ↔ path.names.dropLast = [] := by
  have outer : path.names.dropLast.length = path.length - 1 := List.length_dropLast
  have positive := path.length_pos
  rw [← List.length_eq_zero_iff, outer]
  unfold container? isRoot
  split
  · rename_i root
    have : path.length = 1 := of_decide_eq_true root
    exact iff_of_true rfl (by omega)
  · rename_i nested
    have : path.length ≠ 1 := fun root => nested (decide_eq_true root)
    exact iff_of_false (by simp) (by omega)

theorem container?_eq_some_iff {path outer : TypePath} :
    path.container? = some outer ↔ outer.document = path.document ∧ outer.names = path.names.dropLast := by
  refine ⟨fun inside => ⟨(of_container? inside).1, (of_container? inside).2.1⟩, fun ⟨document, names⟩ => ?_⟩
  cases inside : path.container? with
  | none => exact absurd (names.trans (container?_eq_none_iff.mp inside)) outer.names_ne
  | some around =>
    obtain ⟨sameDocument, sameNames, _⟩ := of_container? inside
    rw [ext_names (document.trans sameDocument.symm) (names.trans sameNames.symm)]

/-- What a scope around `path` shows lies in a container that `path` lies within. -/
theorem of_longitude? {path target : TypePath} {longitude : Nat}
    (h : path.longitude? target = some longitude) :
    path.document = target.document ∧ target.container?.all path.isWithin := by
  unfold longitude? at h
  split at h
  · rename_i shown
    simp only [Bool.and_eq_true, decide_eq_true_eq] at shown
    obtain ⟨⟨document, _⟩, inside⟩ := shown
    refine ⟨document, ?_⟩
    cases inner : target.container? with
    | none => rfl
    | some outer =>
      obtain ⟨sameDocument, names, _⟩ := of_container? inner
      simp [isWithin, document, sameDocument, names, inside]
  · contradiction

/-- The path of this name in the scope that lies `longitude` scopes out. -/
def inScope (path : TypePath) (longitude : Nat) (subject : Name) : TypePath where
  document := path.document
  names := path.names.take (path.length - longitude - 1) ++ [subject]
  names_ne := by simp

@[simp] theorem tip_inScope (path : TypePath) (longitude : Nat) (subject : Name) :
    (path.inScope longitude subject).tip = subject := by
  simp [tip, inScope]

theorem longitude?_eq_some_iff {path target : TypePath} {longitude : Nat} :
    path.longitude? target = some longitude ↔
      longitude < path.length ∧ target = path.inScope longitude target.tip := by
  have positive := target.length_pos
  have names : target.names = target.names.dropLast ++ [target.tip] :=
    (List.dropLast_concat_getLast target.names_ne).symm
  have shorter : target.names.dropLast.length = target.length - 1 := List.length_dropLast
  unfold longitude?
  constructor
  · intro shown
    split at shown
    · rename_i visible
      cases shown
      simp only [Bool.and_eq_true, decide_eq_true_eq] at visible
      obtain ⟨⟨document, shallow⟩, inside⟩ := visible
      refine ⟨by omega, ext_names document.symm ?_⟩
      have outer := List.prefix_iff_eq_take.mp (List.isPrefixOf_iff_prefix.mp inside)
      have count : path.length - (path.length - target.length) - 1 = target.names.dropLast.length := by
        omega
      simp only [inScope]
      rw [count, ← outer]
      exact names
    · contradiction
  · rintro ⟨bound, same⟩
    have length : target.length = path.length - longitude := by
      have := congrArg (·.names.length) same
      simp only [inScope, List.length_append, List.length_take, List.length_singleton] at this
      simp only [length] at this bound ⊢
      omega
    have outer : target.names.dropLast = path.names.take (path.length - longitude - 1) := by
      rw [same, inScope, List.dropLast_concat]
    have inside : target.names.dropLast.isPrefixOf path.names := by
      rw [outer, List.isPrefixOf_iff_prefix]
      exact List.take_prefix _ _
    have document : path.document = target.document := congrArg (·.document) same.symm
    have shallow : target.length ≤ path.length := by omega
    simp only [document, shallow, inside, decide_true, Bool.and_self, ↓reduceIte, Option.some.injEq]
    omega

end TypePath

namespace Graph

/-- The nodes named `subject` that any scope around `path` shows. -/
def shown (graph : Graph) (path : TypePath) (subject : Name) : List Successor :=
  graph.nodes.filterMap fun node =>
    if node.path.tip = subject then
      (path.longitude? node.path).map fun longitude => Successor.mk node.id longitude
    else none

theorem visible_eq (graph : Graph) (path : TypePath) (subject : Name) :
    graph.visible path subject = (List.range path.length).filterMap fun longitude =>
      (graph.shown path subject).find? (·.longitude = longitude) := by
  simp only [visible, shown, List.filterMap_filter, decide_eq_true_eq]

theorem visible_congr {graph other : Graph} {path : TypePath} {subject : Name}
    (h : other.shown path subject = graph.shown path subject) :
    other.visible path subject = graph.visible path subject := by
  rw [visible_eq, visible_eq, h]

theorem SameShape.visible {graph other : Graph} (same : SameShape graph other) (path : TypePath)
    (subject : Name) : other.visible path subject = graph.visible path subject := by
  refine visible_congr ?_
  have factor (g : Graph) : g.shown path subject = (g.nodes.map Node.shape).filterMap fun node =>
      if node.path.tip = subject then
        (path.longitude? node.path).map fun longitude => Successor.mk node.id longitude
      else none := by
    rw [List.filterMap_map]
    rfl
  rw [factor, factor, same.nodes]

theorem SameShape.upToDate {graph other : Graph} (same : SameShape graph other) {edge : Edge}
    (h : graph.UpToDate edge) : other.UpToDate edge := by
  intro node member id
  obtain ⟨before, present, shape⟩ := same.node_of_mem member
  have sameId : before.id = node.id := congrArg (·.id) shape
  have samePath : before.path = node.path := congrArg (·.path) shape
  rw [same.visible, ← samePath]
  exact h before present (sameId.trans id)

theorem Alike.upToDate {graph other : Graph} (alike : Alike graph other) {edge : Edge}
    (h : graph.UpToDate edge) : other.UpToDate edge := alike.sameShape.upToDate h

/-- Each scope shows the node of this name at the path inside it, if there is one. -/
theorem Framed.visible_eq_nodeAt? {graph : Graph} (framed : graph.Framed) (path : TypePath)
    (subject : Name) : graph.visible path subject = (List.range path.length).filterMap fun longitude =>
      (graph.nodeAt? (path.inScope longitude subject)).map fun node => ⟨node.id, longitude⟩ := by
  rw [visible_eq]
  refine List.filterMap_congr fun longitude member => ?_
  have bound := List.mem_range.mp member
  have origin {successor : Successor} (among : successor ∈ graph.shown path subject)
      (here : successor.longitude = longitude) :
      ∃ node, graph.nodeAt? (path.inScope longitude subject) = some node ∧ successor = ⟨node.id, longitude⟩ := by
    obtain ⟨node, listed, shown⟩ := List.mem_filterMap.mp among
    split at shown
    · rename_i tip
      obtain ⟨longitude, reached, rfl⟩ := Option.map_eq_some_iff.mp shown
      cases here
      have path := (TypePath.longitude?_eq_some_iff.mp reached).2
      exact ⟨node, framed.nodeAt?_eq_some_iff.mpr ⟨listed, tip ▸ path⟩, rfl⟩
    · contradiction
  cases found : graph.nodeAt? (path.inScope longitude subject) with
  | none =>
    rw [Option.map_none, List.find?_eq_none]
    intro successor among here
    obtain ⟨node, present, _⟩ := origin among (of_decide_eq_true here)
    rw [found] at present
    contradiction
  | some node =>
    obtain ⟨listed, at_⟩ := framed.nodeAt?_eq_some_iff.mp found
    have tip : node.path.tip = subject := by rw [at_, TypePath.tip_inScope]
    have reached : path.longitude? node.path = some longitude :=
      TypePath.longitude?_eq_some_iff.mpr ⟨bound, by rw [tip]; exact at_⟩
    have among : Successor.mk node.id longitude ∈ graph.shown path subject :=
      List.mem_filterMap.mpr ⟨node, listed, by simp [tip, reached]⟩
    cases met : (graph.shown path subject).find? (·.longitude = longitude) with
    | none => simpa using List.find?_eq_none.mp met _ among
    | some successor =>
      obtain ⟨again, present, rfl⟩ :=
        origin (List.mem_of_find?_eq_some met) (by simpa using List.find?_some met)
      cases found.symm.trans present
      rfl

/-- What a path sees stands in one of the scopes around it. -/
theorem Framed.mem_visible_iff {graph : Graph} (framed : graph.Framed) {path : TypePath} {subject : Name}
    {successor : Successor} : successor ∈ graph.visible path subject ↔
      successor.longitude < path.length ∧ ∃ node ∈ graph.nodes, node.id = successor.node ∧
        node.path = path.inScope successor.longitude subject := by
  rw [framed.visible_eq_nodeAt?, List.mem_filterMap]
  constructor
  · rintro ⟨longitude, inside, shown⟩
    obtain ⟨node, there, rfl⟩ := Option.map_eq_some_iff.mp shown
    obtain ⟨member, at_⟩ := framed.nodeAt?_eq_some_iff.mp there
    exact ⟨List.mem_range.mp inside, node, member, rfl, at_⟩
  · rintro ⟨inside, node, member, id, at_⟩
    refine ⟨successor.longitude, List.mem_range.mpr inside, ?_⟩
    rw [framed.nodeAt?_eq_some_iff.mpr ⟨member, at_⟩, Option.map_some, id]

/-- A successor of an edge of a node stands in a scope around the node. -/
theorem Coherent.mem_successors {graph : Graph} (coherent : graph.Coherent) {node : Node} {edge : Edge}
    (member : node ∈ graph.nodes) (outbound : edge ∈ graph.outbounds node.id) {successor : Successor}
    (listed : successor ∈ edge.successors) :
    successor.longitude < node.path.length ∧ ∃ other ∈ graph.nodes, other.id = successor.node ∧
      other.path = node.path.inScope successor.longitude edge.subject := by
  obtain ⟨among, predecessor⟩ := List.mem_filter.mp outbound
  rw [coherent.successors edge among node member (of_decide_eq_true predecessor).symm] at listed
  exact coherent.mem_visible_iff.mp listed

/-- Nodes that come or go and that no scope around `path` shows under this name. -/
theorem visible_of_hidden {graph other : Graph} {path : TypePath} {subject : Name} (gone : Node → Bool)
    (nodes : graph.nodes = other.nodes.filter fun node => !gone node)
    (hidden : ∀ node ∈ other.nodes, gone node → node.path.tip = subject →
      path.longitude? node.path = none) :
    other.visible path subject = graph.visible path subject := by
  refine visible_congr ?_
  rw [shown, shown, nodes, List.filterMap_filter]
  refine List.filterMap_congr fun node member => ?_
  cases leaves : gone node with
  | false => rfl
  | true =>
    simp only [Bool.not_true, Bool.false_eq_true, ↓reduceIte]
    split
    · rename_i tip
      rw [hidden node member leaves tip, Option.map_none]
    · rfl

section Refresh

variable {graph : Graph}

/-- The container of a node is a node of the graph. -/
theorem Framed.exists_of_container (framed : graph.Framed) {node : Node} (member : node ∈ graph.nodes) {id : NodeId}
    (inside : node.container = some id) : ∃ around ∈ graph.nodes, around.id = id := by
  cases path : node.path.container? with
  | none => simp [framed.roots node member path] at inside
  | some outer =>
    obtain ⟨around, among, _, container⟩ := framed.containers node member outer path
    cases inside.symm.trans container
    exact ⟨around, among, rfl⟩

theorem Framed.outward_ok (framed : graph.Framed) (bound : Nat) {container : Option NodeId}
    (held : ∀ id, container = some id → ∃ node ∈ graph.nodes, node.id = id) :
    graph.outward bound container = .ok () := by
  induction bound generalizing container with
  | zero => simp [outward]
  | succ bound ih =>
    cases container with
    | none => simp [outward]
    | some id =>
      obtain ⟨node, member, rfl⟩ := held id rfl
      simp only [outward, framed.nodeOf_id member]
      exact ih fun _ => framed.exists_of_container member

theorem Framed.successorsOf_id (framed : graph.Framed) {node : Node} (member : node ∈ graph.nodes)
    (subject : Name) :
    graph.successorsOf node.id subject = .ok (graph.visible node.path subject) := by
  have outward := framed.outward_ok node.path.length fun _ => framed.exists_of_container member
  simp only [successorsOf, framed.nodeOf_id member, ok_bind, outward]
  rfl

@[simp] theorem id_receive (edge : Edge) (node : Node) : (receive edge node).id = node.id := rfl

@[simp] theorem bare_receive (edge : Edge) (node : Node) : (receive edge node).bare = node.bare := rfl

theorem mem_inbounds_receive {edge : Edge} {node : Node} {id : EdgeId} :
    id ∈ (receive edge node).inbounds ↔
      (id ≠ edge.id ∧ id ∈ node.inbounds) ∨ (id = edge.id ∧ edge.lists node.id) := by
  simp only [receive]
  by_cases lists : edge.lists node.id <;> simp [lists]

theorem nodes_link (edge : Edge) : (graph.link edge).nodes = graph.nodes.map (receive edge) := rfl

theorem edges_link (edge : Edge) : (graph.link edge).edges =
    graph.edges.map fun other => if other.id = edge.id then edge else other := rfl

theorem Framed.alike_link (framed : graph.Framed) {edge old : Edge} (member : old ∈ graph.edges)
    (bare : edge.bare = old.bare) : Alike graph (graph.link edge) := by
  have sameId : edge.id = old.id := congrArg (·.id) bare
  refine ⟨?_, ?_, rfl, rfl, rfl, rfl, rfl⟩
  · rw [nodes_link, List.map_map]
    exact List.map_congr_left fun node _ => bare_receive edge node
  · rw [edges_link, List.map_map]
    refine List.map_congr_left fun other among => ?_
    by_cases same : other.id = edge.id
    · have : other = old := eq_of_key_eq framed.edgeIds among member (same.trans sameId)
      simp [this, sameId, bare]
    · simp [same]

theorem mem_edges_link {edge other : Edge} (member : other ∈ (graph.link edge).edges) :
    other = edge ∨ (other ∈ graph.edges ∧ other.id ≠ edge.id) := by
  rw [edges_link] at member
  obtain ⟨before, among, rfl⟩ := List.mem_map.mp member
  by_cases same : before.id = edge.id
  · exact .inl (by simp [same])
  · exact .inr ⟨by simpa [same] using among, by simp [same]⟩

theorem mem_edges_link_of_mem {edge other : Edge} (among : other ∈ graph.edges)
    (apart : other.id ≠ edge.id) : other ∈ (graph.link edge).edges := by
  rw [edges_link]
  exact List.mem_map.mpr ⟨other, among, by simp [apart]⟩

theorem self_mem_edges_link {edge old : Edge} (member : old ∈ graph.edges) (same : old.id = edge.id) :
    edge ∈ (graph.link edge).edges := by
  rw [edges_link]
  exact List.mem_map.mpr ⟨old, member, by simp [same]⟩

theorem Framed.framed_link (framed : graph.Framed) {edge old : Edge} (member : old ∈ graph.edges)
    (bare : edge.bare = old.bare) : (graph.link edge).Framed := by
  have sameId : old.id = edge.id := (congrArg (·.id) bare).symm
  refine (framed.alike_link member bare).sameShape.framed framed fun node among id => ?_
  rw [nodes_link] at among
  obtain ⟨before, present, rfl⟩ := List.mem_map.mp among
  rw [mem_inbounds_receive, id_receive, framed.inbounds before present id]
  constructor
  · rintro (⟨apart, other, found, rfl, lists⟩ | ⟨rfl, lists⟩)
    · exact ⟨other, mem_edges_link_of_mem found apart, rfl, lists⟩
    · exact ⟨edge, self_mem_edges_link member sameId, rfl, lists⟩
  · rintro ⟨other, found, rfl, lists⟩
    rcases mem_edges_link found with rfl | ⟨found, apart⟩
    · exact .inr ⟨rfl, lists⟩
    · exact .inl ⟨apart, other, found, rfl, lists⟩

/-- A relink brings one edge up to date and leaves the others alone. -/
theorem Framed.relink_succeeds (framed : graph.Framed) (id : EdgeId) :
    Succeeds (graph.relink id) fun next => next.Framed ∧ Alike graph next ∧
      ∀ edge ∈ next.edges, (edge.id = id ∧ next.UpToDate edge) ∨ (edge.id ≠ id ∧ edge ∈ graph.edges) := by
  unfold relink
  cases found : graph.edge? id with
  | none =>
    refine .ok ⟨framed, .refl graph, fun edge member => .inr ⟨?_, member⟩⟩
    exact edge?_eq_none_iff.mp found edge member
  | some edge =>
    obtain ⟨member, rfl⟩ := framed.edge?_eq_some_iff.mp found
    obtain ⟨node, among, predecessor⟩ := framed.predecessors edge member
    have successors : graph.successorsOf edge.predecessor edge.subject =
        .ok (graph.visible node.path edge.subject) := predecessor ▸ framed.successorsOf_id among _
    simp only [successors, ok_bind]
    have bare : Edge.bare { edge with successors := graph.visible node.path edge.subject } =
        edge.bare := rfl
    have alike := framed.alike_link member bare
    refine .ok ⟨framed.framed_link member bare, alike, fun other present => ?_⟩
    rcases mem_edges_link present with rfl | ⟨present, apart⟩
    · refine .inl ⟨rfl, alike.upToDate fun other found same => ?_⟩
      rw [eq_of_key_eq framed.nodeIds found among (same.trans predecessor.symm)]
    · exact .inr ⟨apart, present⟩

theorem Framed.relinkAll_succeeds (framed : graph.Framed) (ids : List EdgeId)
    (others : ∀ edge ∈ graph.edges, edge.id ∉ ids → graph.UpToDate edge) :
    Succeeds (ids.foldlM relink graph) fun next => next.Coherent ∧ Alike graph next := by
  let inv (done : List EdgeId) (next : Graph) := next.Framed ∧ Alike graph next ∧
    ∀ edge ∈ next.edges, next.UpToDate edge ∨ (edge.id ∉ done ∧ edge ∈ graph.edges)
  have all : Succeeds (ids.foldlM relink graph) (inv ids) := Succeeds.foldlM inv
    ⟨framed, .refl graph, fun edge member => .inr ⟨by simp, member⟩⟩
    (fun done id rest state split holds => by
      obtain ⟨framed, alike, fresh⟩ := holds
      refine (framed.relink_succeeds id).mono fun next result => ?_
      obtain ⟨nextFramed, step, each⟩ := result
      refine ⟨nextFramed, alike.trans step, fun edge member => ?_⟩
      rcases each edge member with ⟨_, now⟩ | ⟨apart, before⟩
      · exact .inl now
      · rcases fresh edge before with now | ⟨undone, original⟩
        · exact .inl (step.upToDate now)
        · exact .inr ⟨by simp [undone, apart], original⟩)
  refine all.mono fun next result => ?_
  obtain ⟨nextFramed, alike, fresh⟩ := result
  refine ⟨⟨nextFramed, fun edge member => ?_⟩, alike⟩
  rcases fresh edge member with now | ⟨undone, original⟩
  · exact now
  · exact alike.upToDate (others edge original undone)

/-- An edge whose scopes show something at `path` is one that the refresh at `path` selects. -/
theorem Framed.sees_of_shown (framed : graph.Framed) {edge : Edge} {node : Node} {path : TypePath}
    {longitude : Nat} (member : node ∈ graph.nodes) (predecessor : node.id = edge.predecessor)
    (tip : path.tip = edge.subject) (shown : node.path.longitude? path = some longitude) :
    graph.sees path.document path.tip path.container? edge := by
  obtain ⟨document, within⟩ := TypePath.of_longitude? shown
  simp [sees, tip, ← predecessor, framed.node?_id member, document, within]

/-- After a refresh at the path of a node that came or went, every edge is up to date. -/
theorem Framed.refresh_succeeds (framed : graph.Framed) (path : TypePath)
    (others : ∀ edge ∈ graph.edges, ∀ node ∈ graph.nodes, node.id = edge.predecessor →
      (path.tip = edge.subject → node.path.longitude? path = none) →
      edge.successors = graph.visible node.path edge.subject) :
    Succeeds (graph.refresh path) fun next => next.Coherent ∧ Alike graph next := by
  refine framed.relinkAll_succeeds _ fun edge member unseen node among predecessor => ?_
  refine others edge member node among predecessor fun tip => ?_
  cases shown : node.path.longitude? path with
  | none => rfl
  | some longitude =>
    have sees := framed.sees_of_shown among predecessor tip shown
    refine absurd (List.mem_map.mpr ⟨edge, ?_, rfl⟩) unseen
    exact List.mem_filter.mpr ⟨member, sees⟩

end Refresh

end Graph
end OutlineTypes
