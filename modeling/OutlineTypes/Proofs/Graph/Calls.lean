import OutlineTypes.Proofs.Graph.Change

/-! Calls on a graph, of any documents, parents and regions. What a call finds in the graph need not fit
its document; a call that does not fail keeps the graph coherent all the same. -/
namespace OutlineTypes.Graph

variable {graph : Graph}

section Inclusion

theorem Coherent.containerOf_ensures (coherent : graph.Coherent) (path : TypePath) :
    Ensures (graph.containerOf path) fun container =>
      (path.container? = none → container = none) ∧
      ∀ outer, path.container? = some outer →
        ∃ around ∈ graph.nodes, around.path = outer ∧ container = some around.id := by
  intro container eq
  refine (coherent.containerOf_succeeds fun outer inside => ?_).post_of_eq eq
  cases around : graph.nodeAt? outer with
  | some node => exact ⟨node, coherent.nodeAt?_eq_some_iff.mp around⟩
  | none =>
    simp only [containerOf, inside, around] at eq
    contradiction

/-- A path is declared only where the node around it is there. -/
theorem Coherent.hasNode_of_declare (coherent : graph.Coherent) {path outer : TypePath} {span : SpanId}
    {result : NodeId × Graph} (declared : graph.declare path span = .ok result)
    (inside : path.container? = some outer) : graph.HasNode outer := by
  cases found : graph.nodeAt? path with
  | some node =>
    obtain ⟨member, rfl⟩ := coherent.nodeAt?_eq_some_iff.mp found
    exact coherent.hasNode_of_container? ⟨node, member, rfl⟩ inside
  | none =>
    cases located : graph.containerOf path with
    | ok container =>
      obtain ⟨around, member, path, _⟩ := (coherent.containerOf_ensures path container located).2 outer inside
      exact ⟨around, member, path⟩
    | error reason =>
      simp only [declare, found, createNode, located] at declared
      contradiction

theorem Placed.place_ensures {done : List Document.Placement} {state : Graph × OrderedSet NodeId}
    (placed : Placed graph done state) (placement : Document.Placement) :
    Ensures (place state placement) (Placed graph (done ++ [placement])) := by
  intro next eq
  refine (placed.place_succeeds placement fun outer inside => ?_).post_of_eq eq
  rw [← placed.hasNode]
  unfold place at eq
  cases declared : state.1.declare placement.path placement.span.id with
  | error reason => simp [declared] at eq
  | ok result => exact placed.coherent.hasNode_of_declare declared inside

theorem Coherent.include_ensures (coherent : graph.Coherent) (document : Document) (region : List Nat) :
    Ensures (graph.includeRegion document region)
      (Included graph document (placementsOf document region)) := by
  unfold includeRegion
  have placing : Ensures ((placementsOf document region).foldlM place (graph, ∅))
      (Placed graph (placementsOf document region)) :=
    Ensures.foldlM (Placed graph) coherent.placed_nil fun _ placement _ _ _ placed =>
      placed.place_ensures placement
  exact placing.bind fun state placed => (placed.include_succeeds document).ensures

end Inclusion

section Disposal

/-- What it means to have taken a node out: it is in the graph, its outbound edges go first, and nothing is
left in it when it goes. -/
structure Removed (graph : Graph) (node : Node) (mid next : Graph) : Prop where
  member : node ∈ graph.nodes
  edges : ((graph.outbounds node.id).map Edge.id).foldlM removeEdge graph = .ok mid
  coherent : mid.Coherent
  alike : Alike (graph.keepEdges (·.predecessor ≠ node.id)) mid
  vacant : ∀ other ∈ mid.nodes, other.container ≠ some node.id
  silent : ∀ edge ∈ mid.edges, edge.predecessor ≠ node.id
  refreshed : refresh (mid.keepNodes (·.id ≠ node.id)) node.path = .ok next

/-- The outbound edges of a node all go. -/
theorem Coherent.removeOutbounds_succeeds (coherent : graph.Coherent) (id : NodeId) :
    Succeeds (((graph.outbounds id).map Edge.id).foldlM removeEdge graph) fun mid =>
      mid.Coherent ∧ Alike (graph.keepEdges (·.predecessor ≠ id)) mid ∧ ∀ edge ∈ mid.edges, edge.predecessor ≠ id := by
  refine (coherent.removeEdges_succeed ((graph.outbounds id).map Edge.id)).mono fun mid ⟨mid_coherent, alike⟩ => ?_
  have outbound : graph.keepEdges (·.id ∉ (graph.outbounds id).map Edge.id) =
      graph.keepEdges (·.predecessor ≠ id) := by
    simp only [keepEdges]
    congr 1
    refine List.filter_congr fun edge listed => ?_
    rw [decide_eq_decide, not_iff_not, List.mem_map]
    constructor
    · rintro ⟨other, among, same⟩
      obtain ⟨present, leaves⟩ := mem_outbounds.mp among
      rwa [← eq_of_key_eq coherent.edgeIds present listed same]
    · exact fun leaves => ⟨edge, mem_outbounds.mpr ⟨listed, leaves⟩, rfl⟩
  rw [outbound] at alike
  refine ⟨mid_coherent, alike, fun edge listed => ?_⟩
  obtain ⟨before, kept, edgeBare⟩ := alike.edge_of_mem listed
  have predecessor : before.predecessor = edge.predecessor := congrArg (·.predecessor) edgeBare
  rw [← predecessor]
  simpa using (mem_edges_keepEdges.mp kept).2

theorem Coherent.removeNode_removes (coherent : graph.Coherent) (id : NodeId) :
    Ensures (graph.removeNode id) fun next => ∃ node mid, node.id = id ∧ Removed graph node mid next := by
  unfold removeNode
  cases found : graph.node? id with
  | none =>
    simp only [nodeOf, found]
    exact .error _
  | some node =>
    obtain ⟨member, rfl⟩ := coherent.node?_eq_some_iff.mp found
    obtain ⟨mid, edges, mid_coherent, alike, silent⟩ := coherent.removeOutbounds_succeeds node.id
    simp only [nodeOf, found, ok_bind, edges]
    split
    · rename_i vacant
      refine fun next refreshed => ⟨node, mid, rfl, member, edges, mid_coherent, alike, ?_, silent, refreshed⟩
      simpa [Graph.contents, List.filter_eq_nil_iff] using vacant
    · exact .error _

/-- A node goes with its outbound edges. -/
theorem Coherent.removeNode_ensures (coherent : graph.Coherent) (id : NodeId) :
    Ensures (graph.removeNode id) fun next => next.Coherent ∧
      Alike ((graph.keepEdges (·.predecessor ≠ id)).keepNodes (·.id ≠ id)) next := by
  refine (coherent.removeNode_removes id).mono fun next h => ?_
  obtain ⟨node, mid, rfl, removed⟩ := h
  obtain ⟨now, present, bare⟩ := removed.alike.symm.node_of_mem removed.member
  have id : now.id = node.id := congrArg (·.id) bare
  have path : now.path = node.path := congrArg (·.path) bare
  have dropped := removed.coherent.dropNode_succeeds present (id ▸ removed.vacant) (id ▸ removed.silent)
  rw [id, path] at dropped
  obtain ⟨next_coherent, alike⟩ := dropped.post_of_eq removed.refreshed
  exact ⟨next_coherent, (removed.alike.keepNodes fun _ => rfl).trans alike⟩

theorem Coherent.removeNodes_ensure (coherent : graph.Coherent) (ids : List NodeId) :
    Ensures (ids.foldlM removeNode graph) fun next => next.Coherent ∧
      Alike ((graph.keepEdges (·.predecessor ∉ ids)).keepNodes (·.id ∉ ids)) next := by
  refine Ensures.foldlM (fun done next => next.Coherent ∧
    Alike ((graph.keepEdges (·.predecessor ∉ done)).keepNodes (·.id ∉ done)) next) ?_ ?_
  · have all : (graph.keepEdges (·.predecessor ∉ ([] : List NodeId))).keepNodes (·.id ∉ ([] : List NodeId)) =
        graph := by
      simp [keepEdges, keepNodes]
    rw [all]
    exact ⟨coherent, .refl graph⟩
  · intro done id rest mid _ holds
    refine (holds.1.removeNode_ensures id).mono fun next step => ⟨step.1, ?_⟩
    have twice : ((((graph.keepEdges (·.predecessor ∉ done)).keepNodes (·.id ∉ done)).keepEdges
        (·.predecessor ≠ id)).keepNodes (·.id ≠ id)) =
          (graph.keepEdges (·.predecessor ∉ done ++ [id])).keepNodes (·.id ∉ done ++ [id]) := by
      simp only [keepEdges, keepNodes, List.filter_filter]
      congr 1 <;> exact List.filter_congr fun _ _ => by simp [and_comm]
    rw [← twice]
    exact ((holds.2.keepEdges fun _ => rfl).keepNodes fun _ => rfl).trans step.2

/-- Everything is declared or asserted by some span. -/
structure Populated (graph : Graph) : Prop where
  nodes : ∀ node ∈ graph.nodes, node.declarations.isEmpty = false
  edges : ∀ edge ∈ graph.edges, edge.sources.isEmpty = false

theorem Coherent.dispose_ensures (coherent : graph.Coherent) (accounted : graph.Accounted) :
    Ensures graph.dispose fun next => next.Coherent ∧ next.Populated := by
  unfold dispose
  refine (coherent.removeEmptied_succeeds accounted).ensures.bind fun mid pruned => ?_
  refine (pruned.coherent.removeNodes_ensure _).mono fun next result => ⟨result.1, ?_, ?_⟩
  · intro node member
    obtain ⟨before, kept, bare⟩ := result.2.node_of_mem member
    obtain ⟨listed, stays⟩ := mem_nodes_keepNodes.mp kept
    have declarations : before.declarations = node.declarations := congrArg (·.declarations) bare
    rw [← declarations, ← Bool.not_eq_true]
    intro vacant
    have gone := (pruned.mem_vacantNodes accounted).mpr ⟨listed, vacant⟩
    exact of_decide_eq_true stays (List.mem_map_of_mem gone)
  · intro edge listed
    obtain ⟨before, kept, bare⟩ := result.2.edge_of_mem listed
    have sources : before.sources = edge.sources := congrArg (·.sources) bare
    rw [← sources]
    exact pruned.edges before (mem_edges_keepEdges.mp kept).1

end Disposal

section Scopes

/-- The scope that lies so many scopes out from a node: its container, the container of that, and so on.
The document root, which is no node, is the last. -/
inductive ScopeOf (graph : Graph) (node : Node) : Nat → Option NodeId → Prop where
  | nearest : ScopeOf graph node 0 node.container
  | outward {longitude : Nat} {around : Node} (inner : ScopeOf graph node longitude (some around.id))
      (member : around ∈ graph.nodes) : ScopeOf graph node (longitude + 1) around.container

/-- What stands directly in a scope of this document. -/
def within (graph : Graph) (document : DocumentId) : Option NodeId → List Node
  | some id => graph.contents id
  | none => graph.roots document

variable {node : Node}

theorem mem_contents {id : NodeId} : node ∈ graph.contents id ↔ node ∈ graph.nodes ∧ node.container = some id := by
  simp [contents]

theorem mem_roots {document : DocumentId} :
    node ∈ graph.roots document ↔ node ∈ graph.nodes ∧ node.path.document = document ∧ node.container = none := by
  simp [roots]

theorem Framed.container?_of_container (framed : graph.Framed) {around : Node} (member : node ∈ graph.nodes)
    (outer : around ∈ graph.nodes) (held : node.container = some around.id) :
    node.path.container? = some around.path := by
  cases inside : node.path.container? with
  | none => simp [framed.roots node member inside] at held
  | some path =>
    obtain ⟨other, listed, rfl, container⟩ := framed.containers node member path inside
    rw [eq_of_key_eq framed.nodeIds listed outer (Option.some.inj (container.symm.trans held))]

theorem Framed.container?_eq_none (framed : graph.Framed) (member : node ∈ graph.nodes)
    (held : node.container = none) : node.path.container? = none := by
  cases inside : node.path.container? with
  | none => rfl
  | some path =>
    obtain ⟨other, _, _, container⟩ := framed.containers node member path inside
    simp [container] at held

/-- What stands directly in a node. -/
theorem Framed.mem_contents_iff (framed : graph.Framed) {around : Node} (outer : around ∈ graph.nodes) :
    node ∈ graph.contents around.id ↔ node ∈ graph.nodes ∧ node.path.container? = some around.path := by
  rw [mem_contents]
  refine and_congr_right fun member => ⟨framed.container?_of_container member outer, fun inside => ?_⟩
  obtain ⟨other, listed, path, container⟩ := framed.containers node member _ inside
  rw [container, eq_of_key_eq framed.paths listed outer path]

theorem Framed.mem_roots_iff (framed : graph.Framed) {document : DocumentId} :
    node ∈ graph.roots document ↔
      node ∈ graph.nodes ∧ node.path.document = document ∧ node.path.container? = none := by
  rw [mem_roots]
  refine and_congr_right fun member => and_congr_right fun _ => ?_
  exact ⟨framed.container?_eq_none member, framed.roots node member⟩

/-- The scope is the node at these names, or the document root if there are none. -/
def StandsAt (graph : Graph) (document : DocumentId) (names : List Name) : Option NodeId → Prop
  | none => names = []
  | some id => ∃ around ∈ graph.nodes, around.id = id ∧ around.path.document = document ∧
      around.path.names = names

theorem Framed.standsAt_container (framed : graph.Framed) (member : node ∈ graph.nodes) :
    graph.StandsAt node.path.document node.path.names.dropLast node.container := by
  cases inside : node.path.container? with
  | none =>
    rw [framed.roots node member inside]
    exact TypePath.container?_eq_none_iff.mp inside
  | some outer =>
    obtain ⟨around, listed, rfl, held⟩ := framed.containers node member outer inside
    obtain ⟨document, names, _⟩ := TypePath.of_container? inside
    rw [held]
    exact ⟨around, listed, rfl, document, names⟩

theorem Framed.scopeOf_standsAt (framed : graph.Framed) (member : node ∈ graph.nodes) {longitude : Nat}
    {scope : Option NodeId} (around : graph.ScopeOf node longitude scope) :
    longitude < node.path.length ∧
      graph.StandsAt node.path.document (node.path.names.take (node.path.length - longitude - 1)) scope := by
  induction around with
  | nearest =>
    refine ⟨node.path.length_pos, ?_⟩
    have stands := framed.standsAt_container member
    rwa [List.dropLast_eq_take] at stands
  | @outward longitude around _ listed ih =>
    obtain ⟨bound, other, present, same, document, names⟩ := ih
    cases eq_of_key_eq framed.nodeIds present listed same
    have long : 0 < around.path.names.length := around.path.length_pos
    rw [names, List.length_take, ← TypePath.length] at long
    refine ⟨by omega, ?_⟩
    have stands := framed.standsAt_container listed
    rw [document, names, List.dropLast_take (by rw [← TypePath.length]; omega)] at stands
    rwa [show node.path.length - (longitude + 1) - 1 = node.path.length - longitude - 1 - 1 by omega]

/-- Around a node stand as many scopes as its path has names. -/
theorem Framed.exists_scopeOf (framed : graph.Framed) (member : node ∈ graph.nodes) {longitude : Nat}
    (bound : longitude < node.path.length) : ∃ scope, graph.ScopeOf node longitude scope := by
  induction longitude with
  | zero => exact ⟨_, .nearest⟩
  | succ longitude ih =>
    obtain ⟨scope, around⟩ := ih (Nat.lt_of_succ_lt bound)
    obtain ⟨_, stands⟩ := framed.scopeOf_standsAt member around
    cases scope with
    | none =>
      have names : node.path.names.take (node.path.length - longitude - 1) = [] := stands
      rw [List.take_eq_nil_iff] at names
      have := names.resolve_right node.path.names_ne
      omega
    | some id =>
      obtain ⟨other, listed, rfl, _⟩ := stands
      exact ⟨_, .outward around listed⟩

theorem Framed.mem_within_iff (framed : graph.Framed) {document : DocumentId} {names : List Name}
    {scope : Option NodeId} (stands : graph.StandsAt document names scope) :
    node ∈ graph.within document scope ↔
      node ∈ graph.nodes ∧ node.path.document = document ∧ node.path.names.dropLast = names := by
  cases scope with
  | none =>
    cases (stands : names = [])
    rw [within, framed.mem_roots_iff]
    exact and_congr_right fun _ => and_congr_right fun _ => TypePath.container?_eq_none_iff
  | some id =>
    obtain ⟨around, listed, rfl, rfl, rfl⟩ := stands
    rw [within, framed.mem_contents_iff listed]
    rw [TypePath.container?_eq_some_iff, eq_comm, @eq_comm _ around.path.names]

/-- The node that an edge means in the scope so many scopes out. -/
theorem Coherent.mem_successors_iff (coherent : graph.Coherent) {edge : Edge} (listed : edge ∈ graph.edges)
    (member : node ∈ graph.nodes) (predecessor : node.id = edge.predecessor) {successor : Successor} :
    successor ∈ edge.successors ↔ ∃ scope, graph.ScopeOf node successor.longitude scope ∧
      ∃ found ∈ graph.within node.path.document scope, found.path.tip = edge.subject ∧
        found.id = successor.node := by
  have framed := coherent.toFramed
  rw [coherent.successors edge listed node member predecessor, framed.mem_visible_iff]
  constructor
  · rintro ⟨bound, found, present, id, path⟩
    obtain ⟨scope, around⟩ := framed.exists_scopeOf member bound
    obtain ⟨_, stands⟩ := framed.scopeOf_standsAt member around
    refine ⟨scope, around, found, (framed.mem_within_iff stands).mpr ⟨present, ?_, ?_⟩, ?_, id⟩
    · exact congrArg (·.document) path
    · rw [path, TypePath.inScope, List.dropLast_concat]
    · rw [path, TypePath.tip_inScope]
  · rintro ⟨scope, around, found, inside, tip, id⟩
    obtain ⟨bound, stands⟩ := framed.scopeOf_standsAt member around
    obtain ⟨listed, document, names⟩ := (framed.mem_within_iff stands).mp inside
    have path : found.path = node.path.inScope successor.longitude edge.subject := by
      refine TypePath.ext_names document ((List.dropLast_concat_getLast found.path.names_ne).symm.trans ?_)
      simp only [TypePath.inScope, ← tip, names]
      rfl
    exact ⟨bound, found, listed, id, path⟩

theorem Coherent.pairwise_successors (coherent : graph.Coherent) {edge : Edge} (listed : edge ∈ graph.edges) :
    edge.successors.Pairwise fun nearer further => nearer.longitude < further.longitude := by
  obtain ⟨node, member, predecessor⟩ := coherent.predecessors edge listed
  rw [coherent.successors edge listed node member predecessor, coherent.visible_eq_nodeAt?]
  refine List.Pairwise.filterMap _ ?_ List.pairwise_lt_range
  intro nearer further before first one second two
  obtain ⟨_, _, rfl⟩ := Option.map_eq_some_iff.mp one
  obtain ⟨_, _, rfl⟩ := Option.map_eq_some_iff.mp two
  exact before

end Scopes

section Calls

theorem excludeRegion_keeps (coherent : graph.Coherent) (accounted : graph.Accounted) (document : Document)
    (region : List Nat) :
    (graph.excludeRegion document region).Coherent ∧ (graph.excludeRegion document region).Accounted := by
  have reduced := coherent.reduced_excludeRegion document region
  exact ⟨reduced.respanned.coherent coherent, reduced.accounted accounted⟩

/-- A region is brought in, and what is still empty after that is disposed of. -/
theorem revalidate_disposes (coherent : graph.Coherent) (accounted : graph.Accounted) (document : Document)
    (parents : List StatementId) :
    Ensures (graph.revalidate document parents) fun next => ∃ region last, document.region parents = .ok region ∧
      Included { graph with pending := none } document (placementsOf document region) last ∧ last.Accounted ∧
        last.dispose = .ok next := by
  intro next done
  unfold revalidate at done
  split at done
  · let start : Graph := { graph with pending := none }
    have respanned : Respanned graph start := ⟨rfl, rfl, rfl, rfl⟩
    have start_accounted : start.Accounted := ⟨accounted.nodes, accounted.edges⟩
    obtain ⟨region, placed, onward⟩ := exists_ok_of_bind done
    obtain ⟨last, brought, disposed⟩ := exists_ok_of_bind onward
    have included := (respanned.coherent coherent).include_ensures document region last brought
    exact ⟨region, last, placed, included, included.accounted start_accounted, disposed⟩
  · contradiction

theorem revalidate_ensures (coherent : graph.Coherent) (accounted : graph.Accounted) (document : Document)
    (parents : List StatementId) :
    Ensures (graph.revalidate document parents) fun next => next.Coherent ∧ next.Populated := by
  refine (revalidate_disposes coherent accounted document parents).mono ?_
  rintro next ⟨_, last, _, included, counted, disposed⟩
  exact included.coherent.dispose_ensures counted next disposed

theorem Populated.accounted (populated : graph.Populated) : graph.Accounted where
  nodes node member vacant := by simp [populated.nodes node member] at vacant
  edges edge listed vacant := by simp [populated.edges edge listed] at vacant

/-- Whatever the document, the parents and the region, a call that ends well keeps a graph coherent. -/
theorem call_ensures (coherent : graph.Coherent) (accounted : graph.Accounted) (request : Call) :
    Ensures (graph.call request) fun next => next.Coherent ∧ next.Accounted := by
  cases request with
  | invalidate document parents =>
    simp only [call, invalidate]
    split
    · exact .error _
    · let start : Graph := { graph with pending := some document.id }
      have respanned : Respanned graph start := ⟨rfl, rfl, rfl, rfl⟩
      have start_accounted : start.Accounted := ⟨accounted.nodes, accounted.edges⟩
      refine (Ensures.anything _).bind fun region _ => .pure ?_
      exact excludeRegion_keeps (respanned.coherent coherent) start_accounted document region
  | revalidate document parents =>
    exact (revalidate_ensures coherent accounted document parents).mono fun next result =>
      ⟨result.1, result.2.accounted⟩
  | inclusion document region =>
    exact (coherent.include_ensures document region).mono fun next included =>
      ⟨included.coherent, included.accounted accounted⟩
  | exclusion document region => exact .ok (excludeRegion_keeps coherent accounted document region)

theorem accounted_empty : empty.Accounted := ⟨by simp [empty], by simp [empty]⟩

theorem callAll_ensures (calls : List Call) :
    Ensures (empty.callAll calls) fun graph => graph.Coherent ∧ graph.Accounted :=
  Ensures.foldlM (fun _ (graph : Graph) => graph.Coherent ∧ graph.Accounted) ⟨coherent_empty, accounted_empty⟩
    fun _ request _ _ _ holds => call_ensures holds.1 holds.2 request

/-- After a revalidation nothing is empty. -/
theorem populated_of_revalidate {calls : List Call} (reached : empty.callAll calls = .ok graph) {document : Document}
    {parents : List StatementId} (last : calls.getLast? = some (.revalidate document parents)) : graph.Populated := by
  obtain ⟨before, rfl⟩ := List.getLast?_eq_some_iff.mp last
  rw [callAll, List.foldlM_append] at reached
  refine (callAll_ensures before).bind (fun mid holds => ?_) graph reached
  rw [List.foldlM_cons]
  exact ((revalidate_ensures holds.1 holds.2 document parents).mono fun _ result => result.2).bind
    fun _ populated => .ok populated

end Calls

end OutlineTypes.Graph
