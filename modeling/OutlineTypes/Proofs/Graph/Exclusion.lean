import OutlineTypes.Graph
import OutlineTypes.Proofs.Document.Placement
import OutlineTypes.Proofs.Graph.Content

/-! Excluding a region. It takes from a graph what the lines of the region declare and annotate. Nodes and
edges stay, and those that are left without spans are noted for disposal. -/
namespace OutlineTypes.Graph

variable {graph : Graph}

/-- What it means to have taken sources from edges. -/
structure Detached (graph : Graph) (asserted : TypePath → Name → SpanId → Prop) (next : Graph) :
    Prop where
  respanned : Respanned graph next
  nodes : next.nodes = graph.nodes
  emptiedNodes : next.emptiedNodes = graph.emptiedNodes
  accounted : (∀ edge ∈ graph.edges, edge.sources.isEmpty → edge.id ∈ graph.emptiedEdges) →
    ∀ edge ∈ next.edges, edge.sources.isEmpty → edge.id ∈ next.emptiedEdges
  asserts : ∀ p subject source,
    next.Asserts p subject source ↔ graph.Asserts p subject source ∧ ¬asserted p subject source
  pending : next.pending = graph.pending

/-- A source taken from one edge, with a note if none is left. -/
theorem Framed.detached_resource (framed : graph.Framed) {edge : Edge} {node : Node}
    (listed : edge ∈ graph.edges) (member : node ∈ graph.nodes)
    (predecessor : edge.predecessor = node.id) (span : SpanId) {emptied : OrderedSet EdgeId}
    (keeps : ∀ id ∈ graph.emptiedEdges, id ∈ emptied)
    (notes : (edge.sources.erase span).isEmpty → edge.id ∈ emptied) :
    Detached graph (fun p subject source => p = node.path ∧ subject = edge.subject ∧ source = span)
      { graph.modifyEdge edge.id fun other => { other with sources := edge.sources.erase span } with
        emptiedEdges := emptied } := by
  have respanned := respanned_modifyEdge graph edge.id fun _ => edge.sources.erase span
  refine ⟨⟨rfl, respanned.edges, rfl, rfl⟩, rfl, rfl, fun accounted => ?_,
    fun p subject source => ?_, rfl⟩
  · intro now present vacant
    obtain ⟨before, among, rfl⟩ := mem_edges_modifyEdge.mp present
    by_cases same : before.id = edge.id
    · simp only [same, ↓reduceIte] at vacant ⊢
      exact notes vacant
    · simp only [same, ↓reduceIte] at vacant ⊢
      exact keeps _ (accounted before among vacant)
  · refine Iff.trans (framed.asserts_modifyEdge listed member predecessor
      (fun _ => edge.sources.erase span) p subject source) ?_
    rw [OrderedSet.mem_erase]
    by_cases here : p = node.path ∧ subject = edge.subject
    · obtain ⟨rfl, rfl⟩ := here
      simp [framed.asserts_iff_mem_sources listed member predecessor, and_comm]
    · have apart : ¬(p = node.path ∧ subject = edge.subject ∧ source = span) :=
        fun h => here ⟨h.1, h.2.1⟩
      simp only [here, not_false_eq_true, true_and, apart, and_true]
      exact ⟨fun h => h.elim (fun h => absurd ⟨h.1, h.2.1⟩ here) id, .inr⟩

theorem Framed.detached_detach (framed : graph.Framed) {node : Node} (member : node ∈ graph.nodes)
    (span : SpanId) (name : Name) :
    Detached graph (fun p subject source => p = node.path ∧ subject = name ∧ source = span)
      (graph.detach node.id span name) := by
  unfold detach
  cases found : graph.outbound? node.id name with
  | none =>
    refine ⟨.refl graph, rfl, rfl, id, fun p subject source => ?_, rfl⟩
    refine ⟨fun asserted => ⟨asserted, ?_⟩, And.left⟩
    rintro ⟨rfl, rfl, rfl⟩
    obtain ⟨other, among, path, edge, listed, id, subject, _⟩ := asserted
    rw [eq_of_key_eq framed.paths among member path] at id
    exact outbound?_eq_none_iff.mp found edge listed ⟨id, subject⟩
  | some edge =>
    obtain ⟨listed, predecessor, rfl⟩ := framed.outbound?_eq_some_iff.mp found
    simp only
    split
    · exact framed.detached_resource listed member predecessor span
        (fun id noted => OrderedSet.mem_insert.mpr (.inl noted)) fun _ => by simp
    · rename_i full
      exact framed.detached_resource listed member predecessor span (fun id noted => noted)
        fun vacant => absurd vacant full

theorem Coherent.detached_detachAll (coherent : graph.Coherent) {node : Node}
    (member : node ∈ graph.nodes) (annotations : List Span) :
    Detached graph
      (fun p subject source => p = node.path ∧
        ∃ gloss ∈ annotations, gloss.subject = subject ∧ gloss.id = source)
      (annotations.foldl (fun graph span => graph.detach node.id span.id span.subject) graph) := by
  induction annotations generalizing graph with
  | nil => exact ⟨.refl graph, rfl, rfl, id, by simp, rfl⟩
  | cons span annotations ih =>
    have first := coherent.detached_detach member span.id span.subject
    have rest := ih (first.respanned.coherent coherent) (first.nodes ▸ member)
    refine ⟨first.respanned.trans rest.respanned, rest.nodes.trans first.nodes,
      rest.emptiedNodes.trans first.emptiedNodes, fun accounted => rest.accounted (first.accounted accounted),
      fun p subject source => ?_, rest.pending.trans first.pending⟩
    rw [List.foldl_cons, rest.asserts, first.asserts, and_assoc, ← not_or]
    refine and_congr_right fun _ => not_congr ?_
    simp only [List.mem_cons, or_and_right, exists_or, exists_eq_left, ← and_or_left, @eq_comm _ subject,
      @eq_comm _ source]

/-- What it means to have taken spans out of a graph. -/
structure Reduced (graph : Graph) (declared : TypePath → SpanId → Prop)
    (asserted : TypePath → Name → SpanId → Prop) (next : Graph) : Prop where
  respanned : Respanned graph next
  accounted : graph.Accounted → next.Accounted
  declares : ∀ p s, next.Declares p s ↔ graph.Declares p s ∧ ¬declared p s
  asserts : ∀ p subject source,
    next.Asserts p subject source ↔ graph.Asserts p subject source ∧ ¬asserted p subject source
  pending : next.pending = graph.pending

/-- Nothing is taken out at a path without a node. -/
theorem reduced_refl {placement : Document.Placement} (nothing : ¬graph.HasNode placement.path) :
    Reduced graph (fun p s => p = placement.path ∧ s = placement.span.id)
      (fun p subject source => p = placement.path ∧ placement.Carries subject source) graph := by
  refine ⟨.refl graph, id, fun p s => ⟨fun declares => ⟨declares, ?_⟩, And.left⟩,
    fun p subject source => ⟨fun asserts => ⟨asserts, ?_⟩, And.left⟩, rfl⟩
  · rintro ⟨rfl, _⟩
    exact nothing declares.hasNode
  · rintro ⟨rfl, _⟩
    obtain ⟨node, member, same, _⟩ := asserts
    exact nothing ⟨node, member, same⟩

theorem Coherent.declares_modifyNode_erase (coherent : graph.Coherent) {node : Node} (member : node ∈ graph.nodes)
    (span : SpanId) (p : TypePath) (s : SpanId) :
    (graph.modifyNode node.id fun other =>
        { other with declarations := node.declarations.erase span }).Declares p s ↔
      graph.Declares p s ∧ ¬(p = node.path ∧ s = span) := by
  rw [coherent.declares_modifyNode member (fun _ => node.declarations.erase span), OrderedSet.mem_erase]
  by_cases here : p = node.path
  · subst here
    rw [coherent.declares_iff_mem_declarations member]
    simp [and_comm]
  · simp [here]

theorem Coherent.detached_modifyNode (coherent : graph.Coherent) {node : Node} (member : node ∈ graph.nodes)
    (rest : OrderedSet SpanId) (annotations : List Span) :
    Detached (graph.modifyNode node.id fun other => { other with declarations := rest })
      (fun p subject source => p = node.path ∧
        ∃ gloss ∈ annotations, gloss.subject = subject ∧ gloss.id = source)
      (annotations.foldl (fun graph span => graph.detach node.id span.id span.subject)
        (graph.modifyNode node.id fun other => { other with declarations := rest })) := by
  have respanned := respanned_modifyNode graph node.id fun _ => rest
  have now : { node with declarations := rest } ∈
      (graph.modifyNode node.id fun other => { other with declarations := rest }).nodes :=
    mem_nodes_modifyNode.mpr ⟨node, member, by simp⟩
  exact (respanned.coherent coherent).detached_detachAll now annotations

/-- A node without its span and the span's annotations, where `emptied` are the nodes that may be vacant. -/
theorem Coherent.reduced_detachAll (coherent : graph.Coherent) {node : Node} (member : node ∈ graph.nodes)
    {placement : Document.Placement} (path : node.path = placement.path) {emptied : OrderedSet NodeId}
    (keeps : ∀ id ∈ graph.emptiedNodes, id ∈ emptied)
    (notes : (node.declarations.erase placement.span.id).isEmpty → node.id ∈ emptied) :
    Reduced graph (fun p s => p = placement.path ∧ s = placement.span.id)
      (fun p subject source => p = placement.path ∧ placement.Carries subject source)
      { placement.statement.annotations.foldl (fun graph span => graph.detach node.id span.id span.subject)
          (graph.modifyNode node.id fun other =>
            { other with declarations := node.declarations.erase placement.span.id }) with
        emptiedNodes := emptied } := by
  let rest := node.declarations.erase placement.span.id
  let mid := graph.modifyNode node.id fun other => { other with declarations := rest }
  have detached := coherent.detached_modifyNode member rest placement.statement.annotations
  have all := (respanned_modifyNode graph node.id fun _ => rest).trans detached.respanned
  refine ⟨⟨all.nodes, all.edges, all.nextNode, all.nextEdge⟩, fun accounted => ⟨?_, ?_⟩, ?_, ?_,
    detached.pending⟩
  · intro other present vacant
    have present : other ∈ mid.nodes := detached.nodes ▸ present
    obtain ⟨before, among, rfl⟩ := mem_nodes_modifyNode.mp present
    by_cases same : before.id = node.id
    · simp only [same, ↓reduceIte] at vacant ⊢
      exact notes vacant
    · simp only [same, ↓reduceIte] at vacant ⊢
      exact keeps _ (accounted.nodes before among vacant)
  · exact detached.accounted accounted.edges
  · intro p s
    rw [← path, ← coherent.declares_modifyNode_erase member]
    exact declares_congr (congrArg (List.map Node.bare) detached.nodes) p s
  · intro p subject source
    refine Iff.trans (detached.asserts p subject source) ?_
    rw [asserts_modifyNode, path]
    rfl

theorem Coherent.reduced_withdraw (coherent : graph.Coherent) (placement : Document.Placement) :
    Reduced graph (fun p s => p = placement.path ∧ s = placement.span.id)
      (fun p subject source => p = placement.path ∧ placement.Carries subject source)
      (graph.withdraw placement.path placement.span.id placement.statement.annotations) := by
  unfold withdraw
  cases found : graph.nodeAt? placement.path with
  | none =>
    refine reduced_refl ?_
    rintro ⟨node, member, same⟩
    exact nodeAt?_eq_none_iff.mp found node member same
  | some node =>
    obtain ⟨member, path⟩ := coherent.nodeAt?_eq_some_iff.mp found
    have detached := coherent.detached_modifyNode member (node.declarations.erase placement.span.id)
      placement.statement.annotations
    simp only
    split
    · refine coherent.reduced_detachAll member path (fun id noted => ?_) fun _ => by simp
      rw [OrderedSet.mem_insert, detached.emptiedNodes]
      exact .inl noted
    · rename_i full
      exact coherent.reduced_detachAll member path (fun id noted => by rwa [detached.emptiedNodes])
        fun vacant => absurd vacant full

theorem Coherent.reduced_excludeRegion (coherent : graph.Coherent) (document : Document)
    (region : List Nat) :
    Reduced graph
      (fun p s => ∃ placement ∈ region.flatMap document.placements,
        p = placement.path ∧ s = placement.span.id)
      (fun p subject source => ∃ placement ∈ region.flatMap document.placements,
        p = placement.path ∧ placement.Carries subject source)
      (graph.excludeRegion document region) := by
  unfold excludeRegion
  induction region.flatMap document.placements generalizing graph with
  | nil => exact ⟨.refl graph, id, by simp, by simp, rfl⟩
  | cons placement placements ih =>
    have first := coherent.reduced_withdraw placement
    have rest := ih (first.respanned.coherent coherent)
    refine ⟨first.respanned.trans rest.respanned,
      fun accounted => rest.accounted (first.accounted accounted), ?_, ?_, rest.pending.trans first.pending⟩
    · intro p s
      rw [List.foldl_cons, rest.declares, first.declares, and_assoc, ← not_or]
      simp only [List.mem_cons, or_and_right, exists_or, exists_eq_left]
    · intro p subject source
      rw [List.foldl_cons, rest.asserts, first.asserts, and_assoc, ← not_or]
      simp only [List.mem_cons, or_and_right, exists_or, exists_eq_left]

end OutlineTypes.Graph
