import OutlineTypes.Proofs.Graph.Calls

/-! Round trips. What the lines of a document have said once and say again brings back no node and no edge:
all of them stayed where they were, and only their spans are put back. -/
namespace OutlineTypes

/-- The nodes differ in the order of their spans at most. -/
structure Node.Same (node now : Node) : Prop where
  id : now.id = node.id
  path : now.path = node.path
  container : now.container = node.container
  declarations : ∀ span, span ∈ now.declarations ↔ span ∈ node.declarations
  inbounds : ∀ id, id ∈ now.inbounds ↔ id ∈ node.inbounds

/-- The edges differ in the order of their sources at most. -/
structure Edge.Same (edge now : Edge) : Prop where
  id : now.id = edge.id
  predecessor : now.predecessor = edge.predecessor
  subject : now.subject = edge.subject
  sources : ∀ source, source ∈ now.sources ↔ source ∈ edge.sources
  successors : now.successors = edge.successors

namespace Graph

/-- The graph holds all that the lines of the document declare, and at the paths of these all that the lines
behind any declaration annotate. -/
structure Includes (graph : Graph) (document : Document) : Prop where
  declares : ∀ index, ∀ placement ∈ document.placements index, graph.Declares placement.path placement.span.id
  asserts : ∀ index, ∀ placement ∈ document.placements index, ∀ subject source,
    graph.AnnotatedBy document placement.path subject source → graph.Asserts placement.path subject source

/-- The same nodes and edges in the same order, with the same spans, stand in the same scopes. -/
structure Restored (graph next : Graph) : Prop where
  nodes : List.Forall₂ Node.Same graph.nodes next.nodes
  edges : List.Forall₂ Edge.Same graph.edges next.edges
  contents : ∀ id, List.Forall₂ Node.Same (graph.contents id) (next.contents id)
  roots : ∀ document, List.Forall₂ Node.Same (graph.roots document) (next.roots document)
  nextNode : next.nextNode = graph.nextNode
  nextEdge : next.nextEdge = graph.nextEdge
  pending : next.pending = graph.pending

/-- The call leaves all lines of the document in the graph. -/
def Call.Brings (document : Document) : Call → Prop
  | .inclusion other region => other = document ∧ ∀ index, index < document.length → index ∈ region
  | .revalidate other parents => other = document ∧ parents = []
  | .invalidate _ _ | .exclusion _ _ => False

variable {graph mid next : Graph} {document : Document} {region : List Nat}

section Restating

theorem updateNode_respans (graph : Graph) (id : NodeId) (change : Node → OrderedSet SpanId) :
    Ensures (graph.updateNode id fun node => { node with declarations := change node }) (Respanned graph) :=
  (Ensures.anything _).bind fun _ _ => .pure (respanned_modifyNode graph id change)

/-- A path that has a node gets no other. -/
theorem declare_respans {path : TypePath} (there : graph.HasNode path) (span : SpanId) :
    Ensures (graph.declare path span) fun result => Respanned graph result.2 := by
  obtain ⟨node, member, same⟩ := there
  unfold declare
  cases found : graph.nodeAt? path with
  | none => exact absurd same (nodeAt?_eq_none_iff.mp found node member)
  | some node =>
    simp only [pure_bind]
    exact (updateNode_respans graph node.id _).bind fun _ respanned => .pure respanned

/-- Where all paths have nodes already, placing makes none. -/
theorem placeAll_respans {placements : List Document.Placement}
    (there : ∀ placement ∈ placements, graph.HasNode placement.path) (touched : OrderedSet NodeId) :
    Ensures (placements.foldlM place (graph, touched)) fun state => Respanned graph state.1 := by
  refine Ensures.foldlM_of_forall (fun state : Graph × OrderedSet NodeId => Respanned graph state.1)
    (.refl graph) fun placement member state respanned => ?_
  have still := (respanned.sameShape.hasNode_iff _).mpr (there placement member)
  exact (declare_respans still placement.span.id).bind fun result more => .pure (respanned.trans more)

/-- A node with an edge of the subject gets no other such edge. -/
theorem annotate_respans {id : NodeId} {subject : Name}
    (there : ∃ edge ∈ graph.edges, edge.predecessor = id ∧ edge.subject = subject) (source : SpanId) :
    Ensures (graph.annotate id source subject) fun next => next.nodes = graph.nodes ∧ Respanned graph next := by
  obtain ⟨edge, listed, same⟩ := there
  unfold annotate
  cases found : graph.outbound? id subject with
  | none => exact absurd same (outbound?_eq_none_iff.mp found edge listed)
  | some edge => exact .ok ⟨rfl, respanned_modifyEdge _ _ _⟩

/-- Every annotation that these nodes get from the document has its edge already. -/
def Answered (graph : Graph) (document : Document) (ids : List NodeId) : Prop :=
  ∀ node ∈ graph.nodes, node.id ∈ ids → ∀ gloss ∈ document.annotationsOf node.declarations.toList,
    ∃ edge ∈ graph.edges, edge.predecessor = node.id ∧ edge.subject = gloss.subject

theorem annotateEach_respans {ids : List NodeId} (answered : graph.Answered document ids) :
    Ensures (ids.foldlM (annotateAll document) graph) fun next =>
      next.nodes = graph.nodes ∧ Respanned graph next := by
  refine Ensures.foldlM_of_forall (fun next => next.nodes = graph.nodes ∧ Respanned graph next)
    ⟨rfl, .refl graph⟩ fun id among mid start => ?_
  unfold annotateAll nodeOf
  split
  · rename_i node found
    have member := List.mem_of_find?_eq_some found
    obtain rfl : node.id = id := by simpa using List.find?_some found
    rw [ok_bind]
    refine Ensures.foldlM_of_forall (fun next => next.nodes = graph.nodes ∧ Respanned graph next) start
      fun gloss annotated state here => ?_
    obtain ⟨edge, listed, leaves, named⟩ := answered node (start.1 ▸ member) among gloss annotated
    obtain ⟨now, present, _, predecessor, subject, _⟩ := here.2.symm.edge_of_mem listed
    refine (annotate_respans ⟨now, present, predecessor.trans leaves, subject.trans named⟩ gloss.id).mono
      fun next more => ⟨more.1.trans here.1, here.2.trans more.2⟩
  · exact .error _

end Restating

section Restored

/-- The graphs have the same nodes and edges, and say the same. -/
structure Restated (graph next : Graph) : Prop where
  respanned : Respanned graph next
  declares : ∀ p s, next.Declares p s ↔ graph.Declares p s
  asserts : ∀ p subject source, next.Asserts p subject source ↔ graph.Asserts p subject source

theorem Restated.trans (first : Restated graph mid) (second : Restated mid next) : Restated graph next where
  respanned := first.respanned.trans second.respanned
  declares p s := (second.declares p s).trans (first.declares p s)
  asserts p subject source := (second.asserts p subject source).trans (first.asserts p subject source)

theorem Restated.annotatedBy_iff (restated : Restated graph next) (path : TypePath) (subject : Name)
    (source : SpanId) : next.AnnotatedBy document path subject source ↔
      graph.AnnotatedBy document path subject source := by
  simp only [AnnotatedBy, restated.declares]

theorem Restated.includes (restated : Restated graph next) (includes : graph.Includes document) :
    next.Includes document where
  declares index placement member := (restated.declares _ _).mpr (includes.declares index placement member)
  asserts index placement member subject source annotated := (restated.asserts _ _ _).mpr
    (includes.asserts index placement member subject source ((restated.annotatedBy_iff _ _ _).mp annotated))

theorem Restated.sameNodes (restated : Restated graph next) (coherent : graph.Coherent) (keep : Node → Bool)
    (silent : ∀ node : Node, keep { node with declarations := ∅ } = keep node) :
    List.Forall₂ Node.Same (graph.nodes.filter keep) (next.nodes.filter keep) := by
  have factor (g : Graph) : (g.nodes.filter keep).map (fun node => { node with declarations := ∅ }) =
      (g.nodes.map fun node => { node with declarations := ∅ }).filter keep := by
    rw [List.filter_map]
    simp only [Function.comp_def, silent]
  refine forall₂_of_map_eq (by rw [factor, factor, restated.respanned.nodes]) fun node before now after same => ?_
  injection same with id container path _ inbounds
  have here := (List.mem_filter.mp before).1
  have there := (List.mem_filter.mp after).1
  refine ⟨id.symm, path.symm, container.symm, fun span => ?_, fun edge => by rw [inbounds]⟩
  rw [← (restated.respanned.coherent coherent).declares_iff_mem_declarations there, ← path, restated.declares,
    coherent.declares_iff_mem_declarations here]

theorem Restated.sameEdges (restated : Restated graph next) (coherent : graph.Coherent) :
    List.Forall₂ Edge.Same graph.edges next.edges := by
  refine forall₂_of_map_eq restated.respanned.edges.symm fun edge before now after same => ?_
  injection same with id predecessor subject _ successors
  obtain ⟨node, member, leaves⟩ := coherent.predecessors edge before
  obtain ⟨again, present, nodeId, path, _⟩ := restated.respanned.symm.node_of_mem member
  refine ⟨id.symm, predecessor.symm, subject.symm, fun source => ?_, successors.symm⟩
  have leavesToo : now.predecessor = again.id := by rw [← predecessor, ← leaves, nodeId]
  rw [← (restated.respanned.coherent coherent).asserts_iff_mem_sources after present leavesToo, path, ← subject,
    restated.asserts, coherent.asserts_iff_mem_sources before member leaves.symm]

theorem Restated.restored (restated : Restated graph next) (coherent : graph.Coherent)
    (pending : next.pending = graph.pending) : Restored graph next where
  nodes := by simpa using restated.sameNodes coherent (fun _ => true) fun _ => rfl
  edges := restated.sameEdges coherent
  contents id := restated.sameNodes coherent _ fun _ => rfl
  roots document := restated.sameNodes coherent _ fun _ => rfl
  nextNode := restated.respanned.nextNode
  nextEdge := restated.respanned.nextEdge
  pending := pending

theorem Restated.populated (restated : Restated graph next) (coherent : graph.Coherent)
    (populated : graph.Populated) : next.Populated where
  nodes now member := by
    have same := restated.sameNodes coherent (fun _ => true) fun _ => rfl
    obtain ⟨node, before, alike⟩ := exists_mem_left_of_forall₂ same (by simpa using member)
    obtain ⟨span, declared⟩ := OrderedSet.exists_mem_of_isEmpty_eq_false
      (populated.nodes node (List.mem_filter.mp before).1)
    exact OrderedSet.isEmpty_eq_false_of_mem ((alike.declarations span).mpr declared)
  edges now listed := by
    obtain ⟨edge, before, alike⟩ := exists_mem_left_of_forall₂ (restated.sameEdges coherent) listed
    obtain ⟨source, asserted⟩ := OrderedSet.exists_mem_of_isEmpty_eq_false (populated.edges edge before)
    exact OrderedSet.isEmpty_eq_false_of_mem ((alike.sources source).mpr asserted)

end Restored

section RoundTrip

/-- What is left of a graph without the declarations and the annotations of a region. -/
abbrev Trimmed (graph : Graph) (document : Document) (region : List Nat) : Graph → Prop :=
  Reduced graph
    (fun p s => ∃ placement ∈ region.flatMap document.placements, p = placement.path ∧ s = placement.span.id)
    (fun p subject source => ∃ placement ∈ region.flatMap document.placements,
      p = placement.path ∧ placement.Carries subject source)

theorem mem_placementsOf_iff {placement : Document.Placement} :
    placement ∈ placementsOf document region ↔ placement ∈ region.flatMap document.placements := by
  rw [mem_placementsOf, List.mem_flatMap]

/-- A span brings the annotations of its own line. -/
theorem Includes.carries_annotatedBy (includes : graph.Includes document) (sound : document.Sound) {index : Nat}
    {placement : Document.Placement} (member : placement ∈ document.placements index) {subject : Name}
    {source : SpanId} (carries : placement.Carries subject source) :
    graph.AnnotatedBy document placement.path subject source := by
  have declared := (Document.mem_placements_iff_factor.mp member).2.2.1
  have among := Document.mem_statements_of_placement member
  refine ⟨placement.span.id, includes.declares index placement member, placement.statement,
    sound.get?_of_statement?.mpr ⟨among, ?_⟩, carries⟩
  exact (sound.statement_of_declared among declared).symm

theorem Includes.restates (includes : graph.Includes document) (sound : document.Sound)
    (trimmed : graph.Trimmed document region mid) (respanned : Respanned mid next)
    (included : Included mid document (placementsOf document region) next) : Restated graph next := by
  have declares (p : TypePath) (s : SpanId) : next.Declares p s ↔ graph.Declares p s := by
    rw [included.declares, trimmed.declares]
    simp only [mem_placementsOf_iff]
    constructor
    · rintro (⟨before, _⟩ | ⟨placement, among, rfl, rfl⟩)
      · exact before
      · obtain ⟨index, _, member⟩ := List.mem_flatMap.mp among
        exact includes.declares index placement member
    · intro before
      by_cases taken : ∃ placement ∈ region.flatMap document.placements, p = placement.path ∧ s = placement.span.id
      · obtain ⟨placement, among, rfl, rfl⟩ := taken
        exact .inr ⟨placement, among, rfl, rfl⟩
      · exact .inl ⟨before, taken⟩
  have annotatedBy (p : TypePath) (subject : Name) (source : SpanId) :
      next.AnnotatedBy document p subject source ↔ graph.AnnotatedBy document p subject source := by
    simp only [AnnotatedBy, declares]
  refine ⟨trimmed.respanned.trans respanned, declares, fun p subject source => ?_⟩
  rw [included.asserts, trimmed.asserts, annotatedBy]
  simp only [mem_placementsOf_iff]
  constructor
  · rintro (⟨before, _⟩ | ⟨⟨placement, among, rfl⟩, annotated⟩)
    · exact before
    · obtain ⟨index, _, member⟩ := List.mem_flatMap.mp among
      exact includes.asserts index placement member subject source annotated
  · intro before
    by_cases taken : ∃ placement ∈ region.flatMap document.placements,
        p = placement.path ∧ placement.Carries subject source
    · obtain ⟨placement, among, rfl, carries⟩ := taken
      obtain ⟨index, _, member⟩ := List.mem_flatMap.mp among
      exact .inr ⟨⟨placement, among, rfl⟩, includes.carries_annotatedBy sound member carries⟩
    · exact .inl ⟨before, taken⟩

/-- Once the declarations are back, all edges that their annotations need are there. -/
theorem Includes.answered (includes : graph.Includes document)
    (trimmed : graph.Trimmed document region mid) {state : Graph × OrderedSet NodeId}
    (respanned : Respanned mid state.1) (placed : Placed mid (placementsOf document region) state) :
    state.1.Answered document state.2.toList := by
  intro node member touched gloss annotated
  obtain ⟨again, present, same, placement, listed, path⟩ := placed.touched node.id touched
  cases eq_of_key_eq placed.coherent.nodeIds present member same
  obtain ⟨index, _, at_⟩ := mem_placementsOf.mp listed
  have annotatedBy : graph.AnnotatedBy document placement.path gloss.subject gloss.id := by
    obtain ⟨span, declared, line, found, carries⟩ := mem_annotationsOf.mp annotated
    refine ⟨span, ?_, line, found, gloss, carries, rfl, rfl⟩
    have now : state.1.Declares placement.path span := ⟨node, member, path.symm, declared⟩
    rcases (placed.declares _ _).mp now with left | ⟨other, among, samePath, rfl⟩
    · exact ((trimmed.declares _ _).mp left).1
    · obtain ⟨there, _, stands⟩ := mem_placementsOf.mp among
      exact samePath ▸ includes.declares there other stands
  obtain ⟨before, among, samePath, edge, here, leaves, named, _⟩ :=
    includes.asserts index placement at_ _ _ annotatedBy
  obtain ⟨now, there, _, predecessor, subject, _⟩ :=
    (trimmed.respanned.trans respanned).symm.edge_of_mem here
  obtain ⟨still, standing, id, stillPath, _⟩ := (trimmed.respanned.trans respanned).symm.node_of_mem among
  refine ⟨now, there, ?_, subject.trans named⟩
  rw [predecessor, leaves, ← id]
  exact congrArg Node.id (eq_of_key_eq placed.coherent.paths standing member
    (stillPath.trans (samePath.trans path)))

/-- What was taken out of a graph that has all of a document comes back into it. -/
theorem Includes.include_succeeds (includes : graph.Includes document) (coherent : graph.Coherent)
    (sound : document.Sound) (trimmed : graph.Trimmed document region mid) :
    Succeeds (mid.includeRegion document region) fun next =>
      Restated graph next ∧ next.pending = mid.pending := by
  have mid_coherent := trimmed.respanned.coherent coherent
  have there : ∀ placement ∈ placementsOf document region, mid.HasNode placement.path := by
    intro placement listed
    obtain ⟨index, _, member⟩ := mem_placementsOf.mp listed
    exact (trimmed.respanned.sameShape.hasNode_iff _).mpr (includes.declares index placement member).hasNode
  have placing : Succeeds ((placementsOf document region).foldlM place (mid, ∅)) fun state =>
      Placed mid (placementsOf document region) state ∧ Respanned mid state.1 :=
    (mid_coherent.placeAll_succeeds _ fun _ placement _ split outer inside => .inl
      (mid_coherent.hasNode_of_container? (there placement (by rw [split]; simp)) inside)).and_ensures
        (placeAll_respans there ∅)
  unfold includeRegion
  refine placing.bind fun state h => ?_
  obtain ⟨placed, respanned⟩ := h
  have answered := includes.answered trimmed respanned placed
  refine ((placed.include_succeeds document).and_ensures (annotateEach_respans answered)).mono fun next h => ?_
  obtain ⟨included, _, more⟩ := h
  exact ⟨includes.restates sound trimmed (respanned.trans more) included, included.pending⟩

/-- Where nothing is empty, nothing is disposed of. -/
theorem Populated.dispose_eq (populated : graph.Populated) :
    graph.dispose = .ok { graph with emptiedNodes := ∅, emptiedEdges := ∅ } := by
  have edges : graph.emptiedEdges.toList.filter (fun id => (graph.edge? id).any (·.sources.isEmpty)) = [] := by
    rw [List.filter_eq_nil_iff]
    intro id _
    cases found : graph.edge? id with
    | none => simp
    | some edge => simp [populated.edges edge (List.mem_of_find?_eq_some found)]
  have nodes : (graph.emptiedNodes.toList.filterMap graph.node?).filter (·.declarations.isEmpty) = [] := by
    rw [List.filter_eq_nil_iff]
    intro node listed
    obtain ⟨id, _, found⟩ := List.mem_filterMap.mp listed
    simp [populated.nodes node (List.mem_of_find?_eq_some found)]
  simp only [dispose, edges, List.foldlM_nil, pure_bind]
  exact congrArg (fun vacant => ((stableSort (fun a b => decide (b.path.length ≤ a.path.length)) vacant).map
    Node.id).foldlM removeNode { graph with emptiedNodes := ∅, emptiedEdges := ∅ }) nodes

/-- Announcing a change of a whole document and changing nothing takes nothing out of a graph without
anything empty. -/
theorem Includes.change_succeeds (includes : graph.Includes document) (coherent : graph.Coherent)
    (sound : document.Sound) (populated : graph.Populated) (idle : graph.pending = none) :
    Succeeds (graph.change document document []) fun next =>
      Restated graph next ∧ next.pending = graph.pending := by
  let announced : Graph := { graph with pending := some document.id }
  have respanned : Respanned graph announced := ⟨rfl, rfl, rfl, rfl⟩
  have reduced := (respanned.coherent coherent).reduced_excludeRegion document (List.range document.length)
  let mid : Graph := { announced.excludeRegion document (List.range document.length) with pending := none }
  have trimmed : graph.Trimmed document (List.range document.length) mid :=
    ⟨⟨reduced.respanned.nodes, reduced.respanned.edges, reduced.respanned.nextNode, reduced.respanned.nextEdge⟩,
      fun accounted => ⟨(reduced.accounted ⟨accounted.nodes, accounted.edges⟩).nodes,
        (reduced.accounted ⟨accounted.nodes, accounted.edges⟩).edges⟩,
      reduced.declares, reduced.asserts, idle.symm⟩
  have invalidated : graph.invalidate document [] =
      .ok (announced.excludeRegion document (List.range document.length)) := by
    simp only [invalidate, idle]
    rfl
  have pending : (announced.excludeRegion document (List.range document.length)).pending = some document.id :=
    reduced.pending
  simp only [change, invalidated, ok_bind, revalidate, pending, ↓reduceIte]
  refine Succeeds.bind (Succeeds.ok rfl : Succeeds (document.region []) (· = List.range document.length))
    fun _ whole => ?_
  subst whole
  refine (includes.include_succeeds coherent sound trimmed).bind fun last h => ?_
  obtain ⟨restated, same⟩ := h
  rw [(restated.populated coherent populated).dispose_eq]
  refine .ok ⟨⟨?_, restated.declares, restated.asserts⟩, same.trans idle.symm⟩
  exact ⟨restated.respanned.nodes, restated.respanned.edges, restated.respanned.nextNode,
    restated.respanned.nextEdge⟩

end RoundTrip

section Bringing

theorem lt_length_of_mem_placements {index : Nat} {placement : Document.Placement}
    (member : placement ∈ document.placements index) : index < document.length :=
  (List.getElem?_eq_some_iff.mp (Document.mem_placements_iff_factor.mp member).1).1

/-- A graph that says just what a document says includes it. -/
theorem Mirrors.includes (mirrors : graph.Mirrors document) (sound : document.Sound) :
    graph.Includes document where
  declares index placement member :=
    (mirrors.declares _ _ (Document.document_of_mem_placements member)).mpr
      (Document.declares_iff.mpr ⟨index, placement, member, rfl, rfl⟩)
  asserts index placement member subject source annotated := by
    have ours := Document.document_of_mem_placements member
    rw [mirrors.asserts _ _ _ ours]
    exact (annotatedBy_iff sound (fun s => mirrors.declares _ s ours) subject source).mp annotated

theorem Included.includes (included : Included graph document (placementsOf document region) next)
    (all : ∀ index, index < document.length → index ∈ region) : next.Includes document := by
  have listed {index : Nat} {placement : Document.Placement} (member : placement ∈ document.placements index) :
      placement ∈ placementsOf document region :=
    mem_placementsOf.mpr ⟨index, all index (lt_length_of_mem_placements member), member⟩
  refine ⟨fun index placement member => ?_, fun index placement member subject source annotated => ?_⟩
  · exact (included.declares _ _).mpr (.inr ⟨placement, listed member, rfl, rfl⟩)
  · exact (included.asserts _ _ _).mpr (.inr ⟨⟨placement, listed member, rfl⟩, annotated⟩)

/-- Disposal takes nothing that a span declares, and no annotation of it. -/
theorem Coherent.dispose_keeps (coherent : graph.Coherent) (accounted : graph.Accounted) :
    Ensures graph.dispose fun next => next.pending = graph.pending ∧
      (∀ p s, next.Declares p s ↔ graph.Declares p s) ∧
      ∀ p subject source, (∃ s, graph.Declares p s) → graph.Asserts p subject source →
        next.Asserts p subject source := by
  unfold dispose
  refine (coherent.removeEmptied_succeeds accounted).ensures.bind fun mid pruned => ?_
  refine (pruned.coherent.removeNodes_ensure _).mono fun next h => ?_
  obtain ⟨_, alike⟩ := h
  have stays {node : Node} (member : node ∈ mid.nodes) {span : SpanId} (declared : span ∈ node.declarations) :
      node.id ∉ (mid.vacantNodes graph.emptiedNodes).map Node.id := by
    intro gone
    obtain ⟨other, among, same⟩ := List.mem_map.mp gone
    obtain ⟨listed, vacant⟩ := (pruned.mem_vacantNodes accounted).mp among
    cases eq_of_key_eq pruned.coherent.nodeIds listed member same
    exact OrderedSet.isEmpty_iff.mp vacant span declared
  refine ⟨alike.pending.trans pruned.alike.pending, fun p s => ?_, fun p subject source declared asserted => ?_⟩
  · rw [alike.declares_iff, ← pruned.declares]
    constructor
    · rintro ⟨node, member, rest⟩
      exact ⟨node, (mem_nodes_keepNodes.mp member).1, rest⟩
    · rintro ⟨node, member, path, declared⟩
      exact ⟨node, mem_nodes_keepNodes.mpr ⟨member, decide_eq_true (stays member declared)⟩, path, declared⟩
  · obtain ⟨span, declared⟩ := declared
    rw [alike.asserts_iff]
    obtain ⟨node, member, rfl, edge, listed, leaves, rest⟩ := (pruned.asserts _ _ _).mpr asserted
    have kept := stays member
      ((pruned.coherent.declares_iff_mem_declarations member).mp ((pruned.declares _ _).mpr declared))
    exact ⟨node, mem_nodes_keepNodes.mpr ⟨member, decide_eq_true kept⟩, rfl, edge,
      mem_edges_keepEdges.mpr ⟨listed, decide_eq_true (leaves ▸ kept)⟩, leaves, rest⟩

theorem revalidate_includes (coherent : graph.Coherent) (accounted : graph.Accounted) (document : Document) :
    Ensures (graph.revalidate document []) fun next => next.Includes document := by
  refine (revalidate_disposes coherent accounted document []).mono ?_
  rintro next ⟨_, last, whole, included, counted, disposed⟩
  cases whole
  have includes := included.includes fun index bound => List.mem_range.mpr bound
  obtain ⟨_, declares, asserts⟩ := included.coherent.dispose_keeps counted next disposed
  refine ⟨fun index placement member => ?_, fun index placement member subject source annotated => ?_⟩
  · exact (declares _ _).mpr (includes.declares index placement member)
  · simp only [AnnotatedBy, declares] at annotated
    exact asserts _ _ _ ⟨_, includes.declares index placement member⟩
      (includes.asserts index placement member subject source annotated)

theorem revalidate_rests (coherent : graph.Coherent) (accounted : graph.Accounted) (document : Document)
    (parents : List StatementId) : Ensures (graph.revalidate document parents) fun next => next.pending = none := by
  refine (revalidate_disposes coherent accounted document parents).mono ?_
  rintro next ⟨_, last, _, included, counted, disposed⟩
  exact (included.coherent.dispose_keeps counted next disposed).1.trans included.pending

end Bringing

section Notes

/-- Nothing new is noted as empty, or as under way. -/
structure SameNotes (graph next : Graph) : Prop where
  nodes : next.emptiedNodes = graph.emptiedNodes
  edges : next.emptiedEdges = graph.emptiedEdges
  pending : next.pending = graph.pending

theorem SameNotes.refl (graph : Graph) : SameNotes graph graph := ⟨rfl, rfl, rfl⟩

theorem SameNotes.trans (first : SameNotes graph mid) (second : SameNotes mid next) : SameNotes graph next :=
  ⟨second.nodes.trans first.nodes, second.edges.trans first.edges, second.pending.trans first.pending⟩

theorem refresh_notes (graph : Graph) (path : TypePath) : Ensures (graph.refresh path) (SameNotes graph) := by
  refine Ensures.foldlM_of_forall (SameNotes graph) (.refl graph) fun id _ state same => ?_
  unfold relink
  split
  · exact .ok same
  · exact (Ensures.anything _).bind fun _ _ => .pure (same.trans ⟨rfl, rfl, rfl⟩)

theorem createNode_notes (graph : Graph) (path : TypePath) :
    Ensures (graph.createNode path) fun result => SameNotes graph result.2 := by
  unfold createNode
  refine (Ensures.anything _).bind fun container _ => (refresh_notes _ path).bind fun next same => ?_
  exact .pure ⟨same.nodes, same.edges, same.pending⟩

theorem updateNode_notes (graph : Graph) (id : NodeId) (change : Node → Node) :
    Ensures (graph.updateNode id change) (SameNotes graph) :=
  (Ensures.anything _).bind fun _ _ => .pure ⟨rfl, rfl, rfl⟩

theorem declare_notes (graph : Graph) (path : TypePath) (span : SpanId) :
    Ensures (graph.declare path span) fun result => SameNotes graph result.2 := by
  unfold declare
  cases graph.nodeAt? path with
  | some node =>
    simp only [pure_bind]
    exact (updateNode_notes graph _ _).bind fun _ same => .pure same
  | none =>
    refine (createNode_notes graph path).bind fun result same => ?_
    exact (updateNode_notes result.2 _ _).bind fun _ more => .pure (same.trans more)

theorem place_notes (state : Graph × OrderedSet NodeId) (placement : Document.Placement) :
    Ensures (place state placement) fun next => SameNotes state.1 next.1 :=
  (declare_notes state.1 placement.path placement.span.id).bind fun _ same => .pure same

theorem annotate_notes (graph : Graph) (id : NodeId) (source : SpanId) (subject : Name) :
    Ensures (graph.annotate id source subject) (SameNotes graph) := by
  unfold annotate
  split
  · exact .ok ⟨rfl, rfl, rfl⟩
  · exact (Ensures.anything _).bind fun _ _ => .pure ⟨rfl, rfl, rfl⟩

theorem includeRegion_notes (graph : Graph) (document : Document) (region : List Nat) :
    Ensures (graph.includeRegion document region) (SameNotes graph) := by
  unfold includeRegion
  have placed : Ensures ((placementsOf document region).foldlM place (graph, ∅)) fun state => SameNotes graph state.1 :=
    Ensures.foldlM_of_forall (fun state : Graph × OrderedSet NodeId => SameNotes graph state.1) (.refl graph)
      fun placement _ state same => (place_notes state placement).mono fun _ => same.trans
  refine placed.bind fun state start => ?_
  refine Ensures.foldlM_of_forall (SameNotes graph) start fun id _ mid same => ?_
  refine (Ensures.anything _).bind fun node _ => ?_
  exact Ensures.foldlM_of_forall (SameNotes graph) same fun gloss _ next so =>
    (annotate_notes next id gloss.id gloss.subject).mono fun _ => so.trans

/-- Only inclusions, from nothing, leave nothing empty. -/
theorem inclusions_populate {calls : List Call} (only : ∀ call ∈ calls, ∃ other region, call = .inclusion other region) :
    Ensures (empty.callAll calls) fun graph => graph.Populated ∧ graph.pending = none := by
  have notes : Ensures (empty.callAll calls) (SameNotes empty) := by
    refine Ensures.foldlM_of_forall (SameNotes empty) (.refl empty) fun call member graph same => ?_
    obtain ⟨other, region, rfl⟩ := only call member
    exact (includeRegion_notes graph other region).mono fun _ => same.trans
  refine ((callAll_ensures calls).and notes).mono fun graph h => ?_
  obtain ⟨⟨_, accounted⟩, same⟩ := h
  refine ⟨⟨?_, ?_⟩, same.pending⟩
  · intro node member
    rw [← Bool.not_eq_true]
    intro vacant
    simpa [same.nodes, empty] using accounted.nodes node member vacant
  · intro edge listed
    rw [← Bool.not_eq_true]
    intro vacant
    simpa [same.edges, empty] using accounted.edges edge listed vacant

end Notes

/-- Calls that end in a revalidation, or that only include, leave nothing empty and no change under way. -/
theorem populated_of_calls {calls : List Call} (tidy : (∃ other parents, calls.getLast? = some (.revalidate other parents)) ∨
    ∀ call ∈ calls, ∃ other region, call = .inclusion other region) :
    Ensures (empty.callAll calls) fun graph => graph.Populated ∧ graph.pending = none := by
  rcases tidy with ⟨other, parents, last⟩ | only
  · obtain ⟨before, rfl⟩ := List.getLast?_eq_some_iff.mp last
    rw [callAll, List.foldlM_append]
    refine (callAll_ensures before).bind fun mid h => ?_
    obtain ⟨coherent, accounted⟩ := h
    rw [List.foldlM_cons]
    exact ((revalidate_ensures coherent accounted other parents).and
      (revalidate_rests coherent accounted other parents)).bind fun _ h => .ok ⟨h.1.2, h.2⟩
  · exact inclusions_populate only

theorem includes_of_calls {calls : List Call} {last : Call} (ends : calls.getLast? = some last)
    (brings : last.Brings document) : Ensures (empty.callAll calls) fun graph => graph.Includes document := by
  obtain ⟨before, rfl⟩ := List.getLast?_eq_some_iff.mp ends
  rw [callAll, List.foldlM_append]
  refine (callAll_ensures before).bind fun mid h => ?_
  obtain ⟨coherent, accounted⟩ := h
  have brought : Ensures (mid.call last) (·.Includes document) := by
    cases last with
    | inclusion other region =>
      obtain ⟨rfl, all⟩ := brings
      exact (coherent.include_ensures other region).mono fun _ included => included.includes all
    | revalidate other parents =>
      obtain ⟨rfl, rfl⟩ := brings
      exact revalidate_includes coherent accounted other
    | invalidate | exclusion => exact brings.elim
  rw [List.foldlM_cons]
  exact brought.bind fun _ includes => .ok includes

/-- Whatever lines of a document go out of a graph that has it in full, they come back and leave the graph as it
was, and an empty change of the document then disposes of nothing. Calls that end by bringing all of a document,
or all that it says and no more, put it into the graph in full. -/
theorem exclusion_is_undone (calls : List Call) (graph : Graph) (reached : empty.callAll calls = .ok graph)
    (document : Document) (sound : document.Sound) :
    (∀ last, calls.getLast? = some last → last.Brings document → graph.Includes document) ∧
    (graph.Mirrors document → graph.Includes document) ∧
    ((∃ other parents, calls.getLast? = some (.revalidate other parents)) ∨
      (∀ call ∈ calls, ∃ other region, call = .inclusion other region) → graph.Populated ∧ graph.pending = none) ∧
    (graph.Includes document → ∀ region, ∃ next,
      (graph.excludeRegion document region).includeRegion document region = .ok next ∧ Restored graph next ∧
        (graph.Populated → graph.pending = none →
          ∃ last, next.change document document [] = .ok last ∧ Restored graph last)) := by
  obtain ⟨coherent, _⟩ := callAll_ensures calls graph reached
  refine ⟨fun last ends brings => includes_of_calls ends brings graph reached,
    fun mirrors => mirrors.includes sound, fun tidy => populated_of_calls tidy graph reached,
    fun includes region => ?_⟩
  have trimmed := coherent.reduced_excludeRegion document region
  obtain ⟨next, included, restated, pending⟩ := includes.include_succeeds coherent sound trimmed
  have same : next.pending = graph.pending := pending.trans trimmed.pending
  refine ⟨next, included, restated.restored coherent same, fun populated idle => ?_⟩
  have next_coherent := restated.respanned.coherent coherent
  obtain ⟨last, changed, more, still⟩ := (restated.includes includes).change_succeeds next_coherent sound
    (restated.populated coherent populated) (same.trans idle)
  exact ⟨last, changed, (restated.trans more).restored coherent (still.trans same)⟩

/-- A document with a line that declares two paths, and lines inside it. -/
def fannedOut : Document := Document.ofText ⟨0⟩ 4 "A, B : C\n\tD : A\nC : B\nB : A"

/-- Containers go while their contents stay, and a line goes that shares its path with one that stays. -/
theorem gapped_region_restored : ∃ graph next last,
    empty.callAll [.invalidate (fannedOut.replace []) [], .revalidate fannedOut []] = .ok graph ∧
      (graph.excludeRegion fannedOut [3, 0, 0, 9]).includeRegion fannedOut [3, 0, 0, 9] = .ok next ∧
        Restored graph next ∧ next.change fannedOut fannedOut [] = .ok last ∧ Restored graph last ∧
          graph.nodes.length = 5 ∧ next ≠ graph ∧
            ((graph.excludeRegion fannedOut [3, 0, 0, 9]).nodes.filter (·.declarations.isEmpty)).length = 2 := by
  let calls : List Call := [.invalidate (fannedOut.replace []) [], .revalidate fannedOut []]
  have evaluated : (empty.callAll calls).bind (fun graph =>
      ((graph.excludeRegion fannedOut [3, 0, 0, 9]).includeRegion fannedOut [3, 0, 0, 9]).map fun next =>
        (graph.nodes.length, decide (next = graph),
          ((graph.excludeRegion fannedOut [3, 0, 0, 9]).nodes.filter (·.declarations.isEmpty)).length)) =
        .ok (5, false, 2) := by
    decide +kernel
  cases reached : empty.callAll calls with
  | error reason => simp [reached, Except.bind] at evaluated
  | ok graph =>
    obtain ⟨brought, _, tidy, undone⟩ := exclusion_is_undone calls graph reached fannedOut
      (Document.sound_ofText ⟨0⟩ 4 _)
    obtain ⟨populated, idle⟩ := tidy (.inl ⟨_, _, rfl⟩)
    obtain ⟨next, included, restored, settles⟩ := undone (brought _ rfl ⟨rfl, rfl⟩) [3, 0, 0, 9]
    obtain ⟨last, changed, again⟩ := settles populated idle
    simp only [reached, Except.bind, included, Except.map, Except.ok.injEq, Prod.mk.injEq,
      decide_eq_false_iff_not] at evaluated
    exact ⟨graph, next, last, rfl, included, restored, changed, again, evaluated⟩

end Graph
end OutlineTypes
