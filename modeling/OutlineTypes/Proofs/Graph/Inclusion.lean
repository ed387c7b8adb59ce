import OutlineTypes.Graph
import OutlineTypes.Proofs.Graph.Content
import OutlineTypes.Proofs.Graph.Identity
import OutlineTypes.Proofs.Ordered

/-! Including a region. It adds to a graph what the lines of the region declare, and every annotation of
every statement that declares one of their paths. It succeeds if containers come before their contents. -/
namespace OutlineTypes

namespace Graph

variable {graph : Graph}

theorem declares_addNode (container : Option NodeId) (path p : TypePath) (span : SpanId) :
    (graph.addNode container path).Declares p span ↔ graph.Declares p span := by
  constructor
  · rintro ⟨node, member, same, declared⟩
    rcases mem_nodes_addNode.mp member with before | rfl
    · exact ⟨node, before, same, declared⟩
    · simp at declared
  · rintro ⟨node, member, rest⟩
    exact ⟨node, mem_nodes_addNode.mpr (.inl member), rest⟩

theorem Framed.asserts_addNode (framed : graph.Framed) (container : Option NodeId) (path p : TypePath)
    (subject : Name) (source : SpanId) :
    (graph.addNode container path).Asserts p subject source ↔ graph.Asserts p subject source := by
  constructor
  · rintro ⟨node, member, same, edge, among, predecessor, rest⟩
    rcases mem_nodes_addNode.mp member with before | rfl
    · exact ⟨node, before, same, edge, among, predecessor, rest⟩
    · obtain ⟨old, present, id⟩ := framed.predecessors edge among
      have below := framed.nodesBelow old present
      rw [id, predecessor] at below
      exact absurd below (Nat.lt_irrefl _)
  · rintro ⟨node, member, rest⟩
    exact ⟨node, mem_nodes_addNode.mpr (.inl member), rest⟩

theorem hasNode_addNode (container : Option NodeId) (path p : TypePath) :
    (graph.addNode container path).HasNode p ↔ graph.HasNode p ∨ p = path := by
  simp only [HasNode, mem_nodes_addNode]
  constructor
  · rintro ⟨other, before | rfl, rfl⟩
    · exact .inl ⟨other, before, rfl⟩
    · exact .inr rfl
  · rintro (⟨other, before, same⟩ | rfl)
    · exact ⟨other, .inl before, same⟩
    · exact ⟨_, .inr rfl, rfl⟩

/-- A node that gets a span need not be noted. -/
theorem accounted_insert (id : NodeId) (span : SpanId)
    (nodes : ∀ node ∈ graph.nodes, node.id ≠ id → node.declarations.isEmpty → node.id ∈ graph.emptiedNodes)
    (edges : ∀ edge ∈ graph.edges, edge.sources.isEmpty → edge.id ∈ graph.emptiedEdges) :
    (graph.modifyNode id fun node => { node with declarations := node.declarations.insert span }).Accounted where
  nodes now present vacant := by
    obtain ⟨before, among, rfl⟩ := mem_nodes_modifyNode.mp present
    by_cases same : before.id = id
    · simp [same, OrderedSet.isEmpty_insert] at vacant
    · simp only [same, ↓reduceIte] at vacant ⊢
      exact nodes before among same vacant
  edges := edges

/-- What it means to have declared a path. -/
structure Declared (graph : Graph) (path : TypePath) (span : SpanId) (result : NodeId × Graph) :
    Prop where
  coherent : result.2.Coherent
  accounted : graph.Accounted → result.2.Accounted
  grows : Grows graph result.2
  node : ∃ node ∈ result.2.nodes, node.id = result.1 ∧ node.path = path
  keeps : ∀ node ∈ graph.nodes, ∃ now ∈ result.2.nodes, now.id = node.id ∧ now.path = node.path
  hasNode : ∀ p, result.2.HasNode p ↔ graph.HasNode p ∨ p = path
  declares : ∀ p s, result.2.Declares p s ↔ graph.Declares p s ∨ (p = path ∧ s = span)
  asserts : ∀ p subject source, result.2.Asserts p subject source ↔ graph.Asserts p subject source
  pending : result.2.pending = graph.pending
  edges : result.2.edges.map Edge.bare = graph.edges.map Edge.bare
  /-- The span comes last. -/
  listed : ∀ before : SpanId → SpanId → Prop,
    (∀ node ∈ graph.nodes, node.declarations.toList.Pairwise before) →
      (∀ s, graph.Declares path s → s = span ∨ before s span) →
        ∀ node ∈ result.2.nodes, node.declarations.toList.Pairwise before

/-- Adding a span to a node that is there. -/
theorem Coherent.declared_modifyNode (coherent : graph.Coherent) {node : Node}
    (member : node ∈ graph.nodes) (span : SpanId) :
    Declared graph node.path span (node.id, graph.modifyNode node.id fun node =>
      { node with declarations := node.declarations.insert span }) := by
  have respanned := respanned_modifyNode graph node.id fun node =>
    node.declarations.insert span
  refine ⟨respanned.coherent coherent, fun accounted => ?_, respanned.sameShape.grows, ?_, ?_, ?_, ?_,
    fun p subject source => asserts_modifyNode _ _ p subject source, rfl, rfl, ?_⟩
  · exact accounted_insert _ _ (fun node among _ => accounted.nodes node among) accounted.edges
  · exact ⟨_, mem_nodes_modifyNode.mpr ⟨node, member, rfl⟩, by simp, by simp⟩
  · intro other among
    refine ⟨_, mem_nodes_modifyNode.mpr ⟨other, among, rfl⟩, ?_⟩
    by_cases same : other.id = node.id <;> simp [same]
  · intro p
    rw [respanned.sameShape.hasNode_iff]
    exact ⟨.inl, fun h => h.elim id fun same => ⟨node, member, same.symm⟩⟩
  · intro p s
    rw [coherent.declares_modifyNode member, OrderedSet.mem_insert]
    by_cases same : p = node.path
    · subst same
      simp [coherent.declares_iff_mem_declarations member]
    · simp [same]
  · intro before sorted last now present
    obtain ⟨old, among, rfl⟩ := mem_nodes_modifyNode.mp present
    by_cases same : old.id = node.id
    · cases eq_of_key_eq coherent.nodeIds among member same
      simp only [↓reduceIte]
      refine OrderedSet.pairwise_insert (sorted node member) fun s declared => ?_
      exact last s ⟨node, member, rfl, declared⟩
    · simp only [same, ↓reduceIte]
      exact sorted old among

/-- Adding a span to the node that was just created for it. -/
theorem Coherent.declared_created (coherent : graph.Coherent) {mid : Graph} (created : mid.Coherent)
    {container : Option NodeId} {path : TypePath} (alike : Alike (graph.addNode container path) mid) {node : Node}
    (member : node ∈ mid.nodes) (id : node.id = .mk graph.nextNode) (same : node.path = path) (span : SpanId) :
    Declared graph path span (node.id, mid.modifyNode node.id fun node =>
      { node with declarations := node.declarations.insert span }) := by
  have declared := created.declared_modifyNode member span
  rw [same] at declared
  have origin {now : Node} (present : now ∈ mid.nodes) : ∃ old, old.bare = now.bare ∧
      (old ∈ graph.nodes ∨ old = ⟨.mk graph.nextNode, container, path, ∅, ∅⟩) := by
    obtain ⟨old, listed, bare⟩ := alike.node_of_mem present
    exact ⟨old, bare, mem_nodes_addNode.mp listed⟩
  refine ⟨declared.coherent, fun accounted => accounted_insert _ _ ?_ ?_,
    ((graph.grows_addNode container path).trans alike.sameShape.grows).trans declared.grows, declared.node,
    ?_, ?_, ?_, ?_, declared.pending.trans alike.pending, declared.edges.trans alike.edges, ?_⟩
  · -- Of all nodes the new one alone had no span, and now it has one.
    intro now present apart vacant
    obtain ⟨old, bare, original | rfl⟩ := origin present
    · have oldId : old.id = now.id := congrArg (·.id) bare
      have declarations : old.declarations = now.declarations := congrArg (·.declarations) bare
      rw [alike.emptiedNodes, ← oldId]
      exact accounted.nodes old original (declarations ▸ vacant)
    · have newId : NodeId.mk graph.nextNode = now.id := congrArg (·.id) bare
      exact absurd (newId.symm.trans id.symm) apart
  · intro edge present vacant
    obtain ⟨old, listed, bare⟩ := alike.edge_of_mem present
    have oldId : old.id = edge.id := congrArg (·.id) bare
    have sources : old.sources = edge.sources := congrArg (·.sources) bare
    rw [alike.emptiedEdges, ← oldId]
    exact accounted.edges old listed (sources ▸ vacant)
  · intro other among
    obtain ⟨between, present, bare⟩ := alike.symm.node_of_mem (mem_nodes_addNode.mpr (.inl among))
    obtain ⟨now, listed, nowId, nowPath⟩ := declared.keeps between present
    exact ⟨now, listed, nowId.trans (congrArg (·.id) bare), nowPath.trans (congrArg (·.path) bare)⟩
  · intro p
    rw [declared.hasNode, alike.sameShape.hasNode_iff, hasNode_addNode]
    tauto
  · intro p s
    rw [declared.declares, alike.declares_iff, declares_addNode]
  · intro p subject source
    rw [declared.asserts, alike.asserts_iff, coherent.asserts_addNode]
  · intro before sorted last
    refine declared.listed before (fun now present => ?_) fun s earlier => last s ?_
    · obtain ⟨old, bare, original | rfl⟩ := origin present
      · have declarations : old.declarations = now.declarations := congrArg (·.declarations) bare
        exact declarations ▸ sorted old original
      · have declarations : ∅ = now.declarations := congrArg (·.declarations) bare
        exact declarations ▸ .nil
    · rwa [alike.declares_iff, declares_addNode] at earlier

/-- What is like a graph with a node added holds the new node. -/
theorem Alike.exists_added {container : Option NodeId} {path : TypePath} {mid : Graph}
    (alike : Alike (graph.addNode container path) mid) :
    ∃ node ∈ mid.nodes, node.id = .mk graph.nextNode ∧ node.path = path := by
  have new : ⟨.mk graph.nextNode, container, path, ∅, ∅⟩ ∈ (graph.addNode container path).nodes :=
    mem_nodes_addNode.mpr (.inr rfl)
  obtain ⟨node, member, bare⟩ := alike.symm.node_of_mem new
  exact ⟨node, member, congrArg (·.id) bare, congrArg (·.path) bare⟩

theorem Coherent.declare_succeeds (coherent : graph.Coherent) {path : TypePath} (span : SpanId)
    (located : ∀ outer, path.container? = some outer → graph.HasNode outer) :
    Succeeds (graph.declare path span) (Declared graph path span) := by
  unfold declare
  cases found : graph.nodeAt? path with
  | some node =>
    obtain ⟨member, rfl⟩ := coherent.nodeAt?_eq_some_iff.mp found
    simp only [pure_bind, updateNode, coherent.nodeOf_id member, ok_bind]
    exact .pure (coherent.declared_modifyNode member span)
  | none =>
    refine (coherent.createNode_succeeds found located).bind fun ⟨newId, mid⟩ outcome => ?_
    obtain ⟨id, created, container, alike⟩ := outcome
    obtain ⟨node, member, nodeId, nodePath⟩ := alike.exists_added
    obtain rfl : node.id = newId := nodeId.trans id.symm
    simp only [updateNode, created.nodeOf_id member, ok_bind]
    exact .pure (coherent.declared_created created alike member nodeId nodePath span)

/-- What it means to have annotated nodes: edges come and gain sources, and nodes stay as they are. -/
structure Annotated (graph : Graph) (asserted : TypePath → Name → SpanId → Prop) (next : Graph) :
    Prop where
  coherent : next.Coherent
  accounted : graph.Accounted → next.Accounted
  grows : Grows graph next
  nodes : next.nodes.map Node.bare = graph.nodes.map Node.bare
  asserts : ∀ p subject source,
    next.Asserts p subject source ↔ graph.Asserts p subject source ∨ asserted p subject source
  pending : next.pending = graph.pending

theorem Annotated.node_after {asserted : TypePath → Name → SpanId → Prop} {next : Graph}
    (annotated : Annotated graph asserted next) {node : Node} (member : node ∈ graph.nodes) :
    ∃ now ∈ next.nodes, now.bare = node.bare := by
  have bare : node.bare ∈ graph.nodes.map Node.bare := List.mem_map_of_mem member
  rw [← annotated.nodes] at bare
  exact List.mem_map.mp bare

theorem Coherent.annotated_refl (coherent : graph.Coherent) :
    Annotated graph (fun _ _ _ => False) graph :=
  ⟨coherent, id, .refl graph, rfl, fun _ _ _ => by simp, rfl⟩

theorem Annotated.trans {first second : TypePath → Name → SpanId → Prop} {mid next : Graph}
    (h : Annotated graph first mid) (k : Annotated mid second next) :
    Annotated graph (fun p subject source => first p subject source ∨ second p subject source) next where
  coherent := k.coherent
  accounted accounted := k.accounted (h.accounted accounted)
  grows := h.grows.trans k.grows
  nodes := k.nodes.trans h.nodes
  asserts p subject source := by rw [k.asserts, h.asserts, or_assoc]
  pending := k.pending.trans h.pending

theorem Annotated.congr {first second : TypePath → Name → SpanId → Prop} {next : Graph}
    (h : Annotated graph first next)
    (same : ∀ p subject source, first p subject source ↔ second p subject source) :
    Annotated graph second next where
  coherent := h.coherent
  accounted := h.accounted
  grows := h.grows
  nodes := h.nodes
  asserts p subject source := by rw [h.asserts, same]
  pending := h.pending

theorem accounted_addEdge (accounted : graph.Accounted) (predecessor : NodeId) (source : SpanId)
    (subject : Name) : (graph.addEdge predecessor source subject).Accounted where
  nodes := accounted.nodes
  edges edge present vacant := by
    rcases mem_edges_addEdge.mp present with before | rfl
    · exact accounted.edges edge before vacant
    · simp [OrderedSet.ofList, OrderedSet.insertAll, OrderedSet.isEmpty_insert] at vacant

theorem Coherent.annotate_succeeds (coherent : graph.Coherent) {node : Node}
    (member : node ∈ graph.nodes) (span : SpanId) (name : Name) :
    Succeeds (graph.annotate node.id span name)
      (Annotated graph fun p subject source => p = node.path ∧ subject = name ∧ source = span) := by
  unfold annotate
  cases found : graph.outbound? node.id name with
  | some edge =>
    obtain ⟨listed, predecessor, rfl⟩ := coherent.outbound?_eq_some_iff.mp found
    have respanned := respanned_modifyEdge graph edge.id fun edge =>
      edge.sources.insert span
    refine .ok ⟨respanned.coherent coherent, fun accounted => ⟨accounted.nodes, ?_⟩,
      respanned.sameShape.grows, rfl, ?_, rfl⟩
    · intro now present vacant
      obtain ⟨before, among, rfl⟩ := mem_edges_modifyEdge.mp present
      by_cases same : before.id = edge.id
      · simp [same, OrderedSet.isEmpty_insert] at vacant
      · simp only [same, ↓reduceIte] at vacant ⊢
        exact accounted.edges before among vacant
    · intro p subject source
      rw [coherent.asserts_modifyEdge listed member predecessor, OrderedSet.mem_insert]
      by_cases same : p = node.path ∧ subject = edge.subject
      · obtain ⟨rfl, rfl⟩ := same
        simp [coherent.asserts_iff_mem_sources listed member predecessor]
      · have apart : ¬(p = node.path ∧ subject = edge.subject ∧ source = span) :=
          fun h => same ⟨h.1, h.2.1⟩
        simp only [same, not_false_eq_true, true_and, apart, or_false]
        exact ⟨fun h => h.elim (fun h => absurd ⟨h.1, h.2.1⟩ same) id, .inr⟩
  | none =>
    refine (coherent.createEdge_succeeds member span found).mono fun next created => ?_
    obtain ⟨created, alike⟩ := created
    refine ⟨created, fun accounted => alike.accounted (accounted_addEdge accounted _ _ _),
      (graph.grows_addEdge node.id span name).trans alike.sameShape.grows, alike.nodes, fun p subject source => ?_, alike.pending⟩
    rw [alike.asserts_iff]
    constructor
    · rintro ⟨other, among, rfl, edge, present, id, rfl, asserted⟩
      rcases mem_edges_addEdge.mp present with before | rfl
      · exact .inl ⟨other, among, rfl, edge, before, id, rfl, asserted⟩
      · refine .inr ⟨?_, rfl, by simpa using asserted⟩
        rw [eq_of_key_eq coherent.nodeIds among member id.symm]
    · rintro (⟨other, among, rfl, edge, present, rest⟩ | ⟨rfl, rfl, rfl⟩)
      · exact ⟨other, among, rfl, edge, mem_edges_addEdge.mpr (.inl present), rest⟩
      · exact ⟨node, member, rfl, _, mem_edges_addEdge.mpr (.inr rfl), rfl, rfl, by simp⟩

theorem mem_annotationsOf {document : Document} {declarations : List SpanId} {gloss : Span} :
    gloss ∈ document.annotationsOf declarations ↔
      ∃ span ∈ declarations, ∃ statement,
        document.statement? span.statement = some statement ∧ gloss ∈ statement.annotations := by
  simp only [Document.annotationsOf, List.mem_flatMap, ← OrderedSet.mem_def, OrderedSet.mem_ofList,
    List.mem_map]
  constructor
  · rintro ⟨id, ⟨span, member, rfl⟩, annotated⟩
    split at annotated
    · rename_i statement found
      exact ⟨span, member, statement, found, annotated⟩
    · simp at annotated
  · rintro ⟨span, member, statement, found, annotated⟩
    exact ⟨span.statement, ⟨span, member, rfl⟩, by simpa only [found] using annotated⟩

/-- The annotations of a statement that declares the path. -/
def AnnotatedBy (graph : Graph) (document : Document) (path : TypePath) (subject : Name)
    (source : SpanId) : Prop :=
  ∃ span, graph.Declares path span ∧ ∃ statement,
    document.statement? span.statement = some statement ∧
      ∃ gloss ∈ statement.annotations, gloss.subject = subject ∧ gloss.id = source

theorem Coherent.annotateAll_succeeds (coherent : graph.Coherent) {node : Node}
    (member : node ∈ graph.nodes) (document : Document) :
    Succeeds (annotateAll document graph node.id) (Annotated graph fun p subject source =>
      p = node.path ∧ graph.AnnotatedBy document p subject source) := by
  unfold annotateAll
  simp only [coherent.nodeOf_id member, ok_bind]
  let annotations := document.annotationsOf node.declarations.toList
  let inv (done : List Span) := Annotated graph fun p subject source =>
    p = node.path ∧ ∃ span ∈ done, span.subject = subject ∧ span.id = source
  have fold : Succeeds (annotations.foldlM (fun graph span => graph.annotate node.id span.id span.subject)
      graph) (inv annotations) := Succeeds.foldlM inv
    (coherent.annotated_refl.congr (by simp))
    (fun done span rest mid split annotated => by
      obtain ⟨now, present, bare⟩ := annotated.node_after member
      have id : now.id = node.id := congrArg (·.id) bare
      have path : now.path = node.path := congrArg (·.path) bare
      rw [← id]
      refine (annotated.coherent.annotate_succeeds present span.id span.subject).mono fun next more => ?_
      refine (annotated.trans more).congr fun p subject source => ?_
      rw [path]
      constructor
      · rintro (⟨rfl, other, among, rfl, rfl⟩ | ⟨rfl, rfl, rfl⟩)
        · exact ⟨rfl, other, by simp [among], rfl, rfl⟩
        · exact ⟨rfl, span, by simp, rfl, rfl⟩
      · rintro ⟨rfl, other, among, rfl, rfl⟩
        rcases List.mem_append.mp among with among | among
        · exact .inl ⟨rfl, other, among, rfl, rfl⟩
        · cases List.mem_singleton.mp among
          exact .inr ⟨rfl, rfl, rfl⟩)
  refine fold.mono fun next annotated => annotated.congr fun p subject source => ?_
  refine and_congr_right fun path => ?_
  subst path
  constructor
  · rintro ⟨gloss, among, rfl, rfl⟩
    obtain ⟨span, declared, statement, found, annotated⟩ := mem_annotationsOf.mp among
    exact ⟨span, ⟨node, member, rfl, declared⟩, statement, found, gloss, annotated, rfl, rfl⟩
  · rintro ⟨span, ⟨other, present, path, declared⟩, statement, found, gloss, annotated, rfl, rfl⟩
    rw [eq_of_key_eq coherent.paths present member path] at declared
    exact ⟨gloss, mem_annotationsOf.mpr ⟨span, declared, statement, found, annotated⟩, rfl, rfl⟩

/-- The placements of a region in the order in which they are declared. -/
def placementsOf (document : Document) (region : List Nat) : List Document.Placement :=
  (document.byDepth region).flatMap document.placements

/-- What it means to have declared placements; `touched` are the nodes at their paths. -/
structure Placed (graph : Graph) (placements : List Document.Placement)
    (state : Graph × OrderedSet NodeId) : Prop where
  coherent : state.1.Coherent
  accounted : graph.Accounted → state.1.Accounted
  grows : Grows graph state.1
  touched : ∀ id ∈ state.2, ∃ node ∈ state.1.nodes, node.id = id ∧
    ∃ placement ∈ placements, placement.path = node.path
  covered : ∀ placement ∈ placements, ∃ node ∈ state.1.nodes, node.path = placement.path ∧
    node.id ∈ state.2
  hasNode : ∀ p, state.1.HasNode p ↔
    graph.HasNode p ∨ ∃ placement ∈ placements, placement.path = p
  declares : ∀ p s, state.1.Declares p s ↔
    graph.Declares p s ∨ ∃ placement ∈ placements, placement.path = p ∧ placement.span.id = s
  asserts : ∀ p subject source, state.1.Asserts p subject source ↔ graph.Asserts p subject source
  pending : state.1.pending = graph.pending
  edges : state.1.edges.map Edge.bare = graph.edges.map Edge.bare
  /-- Spans that are placed in order are listed in order. -/
  listed : ∀ before : SpanId → SpanId → Prop,
    (∀ node ∈ graph.nodes, node.declarations.toList.Pairwise before) →
      (∀ placement ∈ placements, ∀ s, graph.Declares placement.path s →
        s = placement.span.id ∨ before s placement.span.id) →
        placements.Pairwise (fun first second => first.path = second.path →
          first.span.id = second.span.id ∨ before first.span.id second.span.id) →
          ∀ node ∈ state.1.nodes, node.declarations.toList.Pairwise before

theorem Coherent.placed_nil (coherent : graph.Coherent) : Placed graph [] (graph, ∅) := by
  constructor <;> simp [coherent, Grows.refl]

theorem Placed.place_succeeds {done : List Document.Placement} {state : Graph × OrderedSet NodeId}
    (placed : Placed graph done state) (placement : Document.Placement)
    (located : ∀ outer, placement.path.container? = some outer →
      graph.HasNode outer ∨ ∃ before ∈ done, before.path = outer) :
    Succeeds (place state placement) (Placed graph (done ++ [placement])) := by
  unfold place
  have around : ∀ outer, placement.path.container? = some outer → state.1.HasNode outer :=
    fun outer inside => (placed.hasNode outer).mpr (located outer inside)
  refine (placed.coherent.declare_succeeds placement.span.id around).bind fun result declared => ?_
  refine .pure ⟨declared.coherent, fun accounted => declared.accounted (placed.accounted accounted),
    placed.grows.trans declared.grows, ?_, ?_, ?_, ?_, ?_, declared.pending.trans placed.pending, declared.edges.trans placed.edges, ?_⟩
  · intro id member
    rcases OrderedSet.mem_insert.mp member with before | rfl
    · obtain ⟨node, among, rfl, earlier, listed, path⟩ := placed.touched id before
      obtain ⟨now, present, nowId, nowPath⟩ := declared.keeps node among
      exact ⟨now, present, nowId, earlier, by simp [listed], path.trans nowPath.symm⟩
    · obtain ⟨node, among, nodeId, path⟩ := declared.node
      exact ⟨node, among, nodeId, placement, by simp, path.symm⟩
  · intro other member
    rcases List.mem_append.mp member with before | new
    · obtain ⟨node, among, path, listed⟩ := placed.covered other before
      obtain ⟨now, present, nowId, nowPath⟩ := declared.keeps node among
      exact ⟨now, present, nowPath.trans path, by simp [nowId, listed]⟩
    · obtain ⟨node, among, nodeId, path⟩ := declared.node
      rw [List.mem_singleton.mp new]
      exact ⟨node, among, path, by simp [nodeId]⟩
  · intro p
    rw [declared.hasNode, placed.hasNode]
    simp only [List.mem_append, List.mem_singleton, or_and_right, exists_or, exists_eq_left, or_assoc,
      @eq_comm _ p]
  · intro p s
    rw [declared.declares, placed.declares]
    simp only [List.mem_append, List.mem_singleton, or_and_right, exists_or, exists_eq_left, or_assoc,
      @eq_comm _ p, @eq_comm _ s]
  · intro p subject source
    rw [declared.asserts, placed.asserts]
  · intro before sorted earlier ordered
    obtain ⟨ordered, _, last⟩ := List.pairwise_append.mp ordered
    refine declared.listed before ?_ fun s declares => ?_
    · exact placed.listed before sorted (fun other member => earlier other (List.mem_append_left _ member)) ordered
    · rcases (placed.declares _ s).mp declares with old | ⟨other, member, path, rfl⟩
      · exact earlier placement (by simp) s old
      · exact last other member placement List.mem_cons_self path

theorem Coherent.placeAll_succeeds (coherent : graph.Coherent) (placements : List Document.Placement)
    (ordered : ∀ done placement rest, placements = done ++ placement :: rest →
      ∀ outer, placement.path.container? = some outer →
        graph.HasNode outer ∨ ∃ before ∈ done, before.path = outer) :
    Succeeds (placements.foldlM place (graph, ∅)) (Placed graph placements) :=
  Succeeds.foldlM (Placed graph) coherent.placed_nil fun done placement rest _ split placed =>
    placed.place_succeeds placement (ordered done placement rest split)

/-- What it means to have included a region. -/
structure Included (graph : Graph) (document : Document) (placements : List Document.Placement)
    (next : Graph) : Prop where
  coherent : next.Coherent
  accounted : graph.Accounted → next.Accounted
  grows : Grows graph next
  declares : ∀ p s, next.Declares p s ↔
    graph.Declares p s ∨ ∃ placement ∈ placements, placement.path = p ∧ placement.span.id = s
  asserts : ∀ p subject source, next.Asserts p subject source ↔ graph.Asserts p subject source ∨
    ((∃ placement ∈ placements, placement.path = p) ∧ next.AnnotatedBy document p subject source)
  pending : next.pending = graph.pending

/-- Once the placements are declared, the nodes at their paths are annotated one by one. -/
theorem Placed.annotate_succeeds {placements : List Document.Placement} {state : Graph × OrderedSet NodeId}
    (placed : Placed graph placements state) (document : Document) :
    Succeeds (state.2.toList.foldlM (annotateAll document) state.1) (Annotated state.1 fun p subject source =>
      (∃ node ∈ state.1.nodes, node.path = p ∧ node.id ∈ state.2.toList) ∧
        state.1.AnnotatedBy document p subject source) := by
  refine Succeeds.foldlM (fun done => Annotated state.1 fun p subject source =>
    (∃ node ∈ state.1.nodes, node.path = p ∧ node.id ∈ done) ∧ state.1.AnnotatedBy document p subject source)
      (placed.coherent.annotated_refl.congr (by simp)) fun done id rest mid split annotated => ?_
  obtain ⟨node, among, rfl, _⟩ := placed.touched id (by simp [OrderedSet.mem_def, split])
  obtain ⟨now, present, bare⟩ := annotated.node_after among
  have nowId : now.id = node.id := congrArg (·.id) bare
  have nowPath : now.path = node.path := congrArg (·.path) bare
  rw [← nowId]
  refine (annotated.coherent.annotateAll_succeeds present document).mono fun next more => ?_
  refine (annotated.trans more).congr fun p subject source => ?_
  have same : mid.AnnotatedBy document p subject source ↔ state.1.AnnotatedBy document p subject source := by
    simp only [AnnotatedBy, declares_congr annotated.nodes]
  rw [same, nowPath, ← or_and_right]
  refine and_congr_left fun _ => ?_
  constructor
  · rintro (⟨other, listed, rfl, member⟩ | rfl)
    · exact ⟨other, listed, rfl, by simp [member]⟩
    · exact ⟨node, among, rfl, by simp [nowId]⟩
  · rintro ⟨other, listed, rfl, member⟩
    rcases List.mem_append.mp member with member | member
    · exact .inl ⟨other, listed, rfl, member⟩
    · refine .inr ?_
      rw [eq_of_key_eq placed.coherent.nodeIds listed among ((List.mem_singleton.mp member).trans nowId)]

theorem Placed.include_succeeds {placements : List Document.Placement} {state : Graph × OrderedSet NodeId}
    (placed : Placed graph placements state) (document : Document) :
    Succeeds (state.2.toList.foldlM (annotateAll document) state.1) (Included graph document placements) := by
  refine (placed.annotate_succeeds document).mono fun next annotated => ?_
  have declares (p : TypePath) (s : SpanId) : next.Declares p s ↔ state.1.Declares p s :=
    declares_congr annotated.nodes p s
  refine ⟨annotated.coherent, fun accounted => annotated.accounted (placed.accounted accounted),
    placed.grows.trans annotated.grows, ?_, ?_, annotated.pending.trans placed.pending⟩
  · intro p s
    rw [declares, placed.declares]
  · intro p subject source
    rw [annotated.asserts, placed.asserts]
    refine or_congr_right (and_congr ?_ (by simp only [AnnotatedBy, declares]))
    constructor
    · rintro ⟨node, among, rfl, member⟩
      obtain ⟨other, listed, same, placement, declared, path⟩ := placed.touched node.id member
      rw [eq_of_key_eq placed.coherent.nodeIds listed among same] at path
      exact ⟨placement, declared, path⟩
    · rintro ⟨placement, declared, rfl⟩
      obtain ⟨node, among, path, member⟩ := placed.covered placement declared
      exact ⟨node, among, path, member⟩

theorem Coherent.includeRegion_succeeds (coherent : graph.Coherent) (document : Document)
    (region : List Nat)
    (ordered : ∀ done placement rest, placementsOf document region = done ++ placement :: rest →
      ∀ outer, placement.path.container? = some outer →
        graph.HasNode outer ∨ ∃ before ∈ done, before.path = outer) :
    Succeeds (graph.includeRegion document region)
      (Included graph document (placementsOf document region)) := by
  unfold includeRegion
  exact (coherent.placeAll_succeeds _ ordered).bind fun state placed => placed.include_succeeds document

end Graph
end OutlineTypes
