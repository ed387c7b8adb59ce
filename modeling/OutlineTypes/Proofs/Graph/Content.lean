import OutlineTypes.Proofs.Graph.Creation

/-! What a graph says: which spans declare a path and which spans assert an annotation of it. Declaring
and annotating add to this, withdrawing takes from it, and whatever is left empty is accounted for. -/
namespace OutlineTypes.Graph

variable {graph other : Graph}

def HasNode (graph : Graph) (path : TypePath) : Prop := ∃ node ∈ graph.nodes, node.path = path

/-- The span declares the path. -/
def Declares (graph : Graph) (path : TypePath) (span : SpanId) : Prop :=
  ∃ node ∈ graph.nodes, node.path = path ∧ span ∈ node.declarations

/-- The span annotates what stands at the path with this name. -/
def Asserts (graph : Graph) (path : TypePath) (subject : Name) (source : SpanId) : Prop :=
  ∃ node ∈ graph.nodes, node.path = path ∧
    ∃ edge ∈ graph.edges, edge.predecessor = node.id ∧ edge.subject = subject ∧ source ∈ edge.sources

/-- Nodes and edges without spans are noted for disposal. -/
structure Accounted (graph : Graph) : Prop where
  nodes : ∀ node ∈ graph.nodes, node.declarations.isEmpty → node.id ∈ graph.emptiedNodes
  edges : ∀ edge ∈ graph.edges, edge.sources.isEmpty → edge.id ∈ graph.emptiedEdges

theorem Declares.hasNode {path : TypePath} {span : SpanId} (h : graph.Declares path span) :
    graph.HasNode path := by
  obtain ⟨node, member, same, _⟩ := h
  exact ⟨node, member, same⟩

theorem Framed.declares_iff_mem_declarations (framed : graph.Framed) {node : Node}
    (member : node ∈ graph.nodes) {span : SpanId} :
    graph.Declares node.path span ↔ span ∈ node.declarations := by
  constructor
  · rintro ⟨other, among, path, declared⟩
    rwa [eq_of_key_eq framed.paths among member path] at declared
  · exact fun declared => ⟨node, member, rfl, declared⟩

theorem Framed.asserts_iff_mem_sources (framed : graph.Framed) {edge : Edge} {node : Node}
    (listed : edge ∈ graph.edges) (member : node ∈ graph.nodes)
    (predecessor : edge.predecessor = node.id) {source : SpanId} :
    graph.Asserts node.path edge.subject source ↔ source ∈ edge.sources := by
  constructor
  · rintro ⟨other, among, path, old, present, id, subject, asserted⟩
    rw [eq_of_key_eq framed.paths among member path] at id
    have key : (old.predecessor, old.subject) = (edge.predecessor, edge.subject) := by
      rw [id, subject, predecessor]
    rwa [eq_of_key_eq framed.assertions present listed key] at asserted
  · exact fun asserted => ⟨node, member, rfl, edge, listed, predecessor, rfl, asserted⟩

section Alike

theorem SameShape.hasNode_iff (same : SameShape graph other) (path : TypePath) :
    other.HasNode path ↔ graph.HasNode path := by
  have paths (g : Graph) : g.HasNode path ↔ path ∈ g.nodes.map Node.path := by simp [HasNode]
  rw [paths, paths, same.map_nodes (f := Node.path) fun _ => rfl]

theorem declares_congr (nodes : other.nodes.map Node.bare = graph.nodes.map Node.bare)
    (path : TypePath) (span : SpanId) : other.Declares path span ↔ graph.Declares path span := by
  have bare (g : Graph) : g.Declares path span ↔
      ∃ node ∈ g.nodes.map Node.bare, node.path = path ∧ span ∈ node.declarations := by
    simp [Declares, Node.bare]
  rw [bare, bare, nodes]

theorem asserts_congr (nodes : other.nodes.map Node.shape = graph.nodes.map Node.shape)
    (edges : other.edges.map Edge.bare = graph.edges.map Edge.bare) (path : TypePath)
    (subject : Name) (source : SpanId) :
    other.Asserts path subject source ↔ graph.Asserts path subject source := by
  have bare (g : Graph) : g.Asserts path subject source ↔
      ∃ node ∈ g.nodes.map Node.shape, node.path = path ∧ ∃ edge ∈ g.edges.map Edge.bare,
        edge.predecessor = node.id ∧ edge.subject = subject ∧ source ∈ edge.sources := by
    simp [Asserts, Node.shape, Edge.bare]
  rw [bare, bare, nodes, edges]

theorem Alike.declares_iff (alike : Alike graph other) (path : TypePath) (span : SpanId) :
    other.Declares path span ↔ graph.Declares path span := declares_congr alike.nodes path span

theorem Alike.asserts_iff (alike : Alike graph other) (path : TypePath) (subject : Name)
    (source : SpanId) : other.Asserts path subject source ↔ graph.Asserts path subject source :=
  asserts_congr alike.sameShape.nodes alike.edges path subject source

theorem Alike.accounted (alike : Alike graph other) (accounted : graph.Accounted) :
    other.Accounted where
  nodes node member vacant := by
    obtain ⟨before, present, bare⟩ := alike.node_of_mem member
    have id : before.id = node.id := congrArg (·.id) bare
    have declarations : before.declarations = node.declarations := congrArg (·.declarations) bare
    rw [alike.emptiedNodes, ← id]
    exact accounted.nodes before present (declarations ▸ vacant)
  edges edge member vacant := by
    obtain ⟨before, present, bare⟩ := alike.edge_of_mem member
    have id : before.id = edge.id := congrArg (·.id) bare
    have sources : before.sources = edge.sources := congrArg (·.sources) bare
    rw [alike.emptiedEdges, ← id]
    exact accounted.edges before present (sources ▸ vacant)

end Alike

section Respan

/-- The graphs differ in the spans of their nodes and edges, and in what is noted about them. -/
structure Respanned (graph other : Graph) : Prop where
  nodes : other.nodes.map (fun node => { node with declarations := ∅ }) =
    graph.nodes.map fun node => { node with declarations := ∅ }
  edges : other.edges.map (fun edge => { edge with sources := ∅ }) =
    graph.edges.map fun edge => { edge with sources := ∅ }
  nextNode : other.nextNode = graph.nextNode
  nextEdge : other.nextEdge = graph.nextEdge

theorem Respanned.refl (graph : Graph) : Respanned graph graph := ⟨rfl, rfl, rfl, rfl⟩

theorem Respanned.trans {third : Graph} (first : Respanned graph other)
    (second : Respanned other third) : Respanned graph third :=
  ⟨second.nodes.trans first.nodes, second.edges.trans first.edges,
    second.nextNode.trans first.nextNode, second.nextEdge.trans first.nextEdge⟩

theorem Respanned.sameShape (same : Respanned graph other) : SameShape graph other := by
  refine ⟨?_, ?_, same.nextNode, same.nextEdge⟩
  · have factor (g : Graph) : g.nodes.map Node.shape =
        (g.nodes.map fun node => { node with declarations := ∅ }).map Node.shape := by
      rw [List.map_map]
      rfl
    rw [factor, same.nodes, ← factor]
  · have factor (g : Graph) : g.edges.map Edge.shape =
        (g.edges.map fun edge => { edge with sources := ∅ }).map Edge.shape := by
      rw [List.map_map]
      rfl
    rw [factor, same.edges, ← factor]

theorem Respanned.edge_of_mem (same : Respanned graph other) {edge : Edge}
    (member : edge ∈ other.edges) :
    ∃ before ∈ graph.edges, before.id = edge.id ∧ before.predecessor = edge.predecessor ∧
      before.subject = edge.subject ∧ before.successors = edge.successors := by
  have silent : { edge with sources := ∅ } ∈
      other.edges.map fun edge => { edge with sources := ∅ } := List.mem_map_of_mem member
  rw [same.edges] at silent
  obtain ⟨before, present, eq⟩ := List.mem_map.mp silent
  injection eq with id predecessor subject _ successors
  exact ⟨before, present, id, predecessor, subject, successors⟩

theorem Respanned.node_of_mem (same : Respanned graph other) {node : Node}
    (member : node ∈ other.nodes) :
    ∃ before ∈ graph.nodes, before.id = node.id ∧ before.path = node.path ∧
      before.container = node.container ∧ before.inbounds = node.inbounds := by
  have silent : { node with declarations := ∅ } ∈
      other.nodes.map fun node => { node with declarations := ∅ } := List.mem_map_of_mem member
  rw [same.nodes] at silent
  obtain ⟨before, present, eq⟩ := List.mem_map.mp silent
  injection eq with id container path _ inbounds
  exact ⟨before, present, id, path, container, inbounds⟩

theorem Respanned.nodes_eq_nil (same : Respanned graph other) (vacant : graph.nodes = []) :
    other.nodes = [] :=
  List.eq_nil_iff_forall_not_mem.mpr fun _ member => by
    obtain ⟨before, present, _⟩ := same.node_of_mem member
    simp [vacant] at present

theorem Respanned.symm (same : Respanned graph other) : Respanned other graph :=
  ⟨same.nodes.symm, same.edges.symm, same.nextNode.symm, same.nextEdge.symm⟩

theorem Respanned.framed (same : Respanned graph other) (framed : graph.Framed) : other.Framed := by
  refine same.sameShape.framed framed fun node member id => ?_
  obtain ⟨before, present, nodeId, _, _, inbounds⟩ := same.node_of_mem member
  rw [← inbounds, framed.inbounds before present id]
  constructor
  · rintro ⟨edge, among, rfl, lists⟩
    obtain ⟨now, found, edgeId, _, _, successors⟩ := same.symm.edge_of_mem among
    refine ⟨now, found, edgeId, ?_⟩
    rwa [Edge.lists, successors, ← nodeId]
  · rintro ⟨edge, among, rfl, lists⟩
    obtain ⟨old, found, edgeId, _, _, successors⟩ := same.edge_of_mem among
    refine ⟨old, found, edgeId, ?_⟩
    rwa [Edge.lists, successors, nodeId]

/-- Coherence does not look at spans. -/
theorem Respanned.coherent (same : Respanned graph other) (coherent : graph.Coherent) :
    other.Coherent := by
  refine ⟨same.framed coherent.toFramed, fun edge member => ?_⟩
  obtain ⟨old, found, _, predecessor, subject, successors⟩ := same.edge_of_mem member
  have fresh := same.sameShape.upToDate (coherent.successors old found)
  intro node among id
  rw [← successors, ← subject]
  exact fresh node among (id.trans predecessor.symm)

theorem respanned_modifyNode (graph : Graph) (id : NodeId) (change : Node → OrderedSet SpanId) :
    Respanned graph (graph.modifyNode id fun node => { node with declarations := change node }) := by
  refine ⟨?_, rfl, rfl, rfl⟩
  simp only [modifyNode, List.map_map]
  refine List.map_congr_left fun node _ => ?_
  by_cases same : node.id = id <;> simp [same]

theorem respanned_modifyEdge (graph : Graph) (id : EdgeId) (change : Edge → OrderedSet SpanId) :
    Respanned graph (graph.modifyEdge id fun edge => { edge with sources := change edge }) := by
  refine ⟨rfl, ?_, rfl, rfl⟩
  simp only [modifyEdge, List.map_map]
  refine List.map_congr_left fun edge _ => ?_
  by_cases same : edge.id = id <;> simp [same]

theorem mem_nodes_modifyNode {id : NodeId} {change : Node → Node} {node : Node} :
    node ∈ (graph.modifyNode id change).nodes ↔
      ∃ before ∈ graph.nodes, node = if before.id = id then change before else before := by
  simp [modifyNode, eq_comm]

theorem mem_edges_modifyEdge {id : EdgeId} {change : Edge → Edge} {edge : Edge} :
    edge ∈ (graph.modifyEdge id change).edges ↔
      ∃ before ∈ graph.edges, edge = if before.id = id then change before else before := by
  simp [modifyEdge, eq_comm]

theorem Framed.declares_modifyNode (framed : graph.Framed) {node : Node}
    (member : node ∈ graph.nodes) (change : Node → OrderedSet SpanId) (path : TypePath)
    (span : SpanId) :
    (graph.modifyNode node.id fun node => { node with declarations := change node }).Declares path
        span ↔
      (path = node.path ∧ span ∈ change node) ∨ (path ≠ node.path ∧ graph.Declares path span) := by
  constructor
  · rintro ⟨now, present, rfl, declared⟩
    obtain ⟨before, among, rfl⟩ := mem_nodes_modifyNode.mp present
    by_cases same : before.id = node.id
    · cases eq_of_key_eq framed.nodeIds among member same
      exact .inl (by simpa using declared)
    · refine .inr ?_
      simp only [same, ↓reduceIte] at declared ⊢
      refine ⟨fun path => same ?_, before, among, rfl, declared⟩
      rw [eq_of_key_eq framed.paths among member path]
  · rintro (⟨rfl, declared⟩ | ⟨apart, before, among, rfl, declared⟩)
    · exact ⟨_, mem_nodes_modifyNode.mpr ⟨node, member, rfl⟩, by simpa using declared⟩
    · have other : before.id ≠ node.id := fun same =>
        apart (by rw [eq_of_key_eq framed.nodeIds among member same])
      exact ⟨_, mem_nodes_modifyNode.mpr ⟨before, among, rfl⟩, by simpa [other] using declared⟩

theorem asserts_modifyNode (id : NodeId) (change : Node → OrderedSet SpanId) (path : TypePath)
    (subject : Name) (source : SpanId) :
    (graph.modifyNode id fun node => { node with declarations := change node }).Asserts path subject
      source ↔ graph.Asserts path subject source :=
  asserts_congr (respanned_modifyNode graph id change).sameShape.nodes rfl path subject source

theorem Framed.asserts_modifyEdge (framed : graph.Framed) {edge : Edge} {node : Node}
    (member : edge ∈ graph.edges) (among : node ∈ graph.nodes) (predecessor : edge.predecessor = node.id)
    (change : Edge → OrderedSet SpanId) (path : TypePath) (subject : Name) (source : SpanId) :
    (graph.modifyEdge edge.id fun edge => { edge with sources := change edge }).Asserts path subject
        source ↔
      (path = node.path ∧ subject = edge.subject ∧ source ∈ change edge) ∨
      (¬(path = node.path ∧ subject = edge.subject) ∧ graph.Asserts path subject source) := by
  constructor
  · rintro ⟨found, present, rfl, now, listed, id, rfl, asserted⟩
    obtain ⟨before, old, rfl⟩ := mem_edges_modifyEdge.mp listed
    by_cases same : before.id = edge.id
    · cases eq_of_key_eq framed.edgeIds old member same
      simp only [↓reduceIte] at id asserted
      cases eq_of_key_eq framed.nodeIds present among (id.symm.trans predecessor)
      exact .inl ⟨rfl, by simp, asserted⟩
    · simp only [same, ↓reduceIte] at id asserted ⊢
      refine .inr ⟨?_, found, present, rfl, before, old, id, rfl, asserted⟩
      rintro ⟨path, subject⟩
      have node : found = node := eq_of_key_eq framed.paths present among path
      have key : (before.predecessor, before.subject) = (edge.predecessor, edge.subject) := by
        rw [id, node, predecessor, subject]
      exact same (by rw [eq_of_key_eq framed.assertions old member key])
  · rintro (⟨rfl, rfl, asserted⟩ | ⟨apart, found, present, rfl, before, old, id, rfl, asserted⟩)
    · exact ⟨node, among, rfl, _, mem_edges_modifyEdge.mpr ⟨edge, member, rfl⟩,
        by simpa using ⟨predecessor, asserted⟩⟩
    · have other : before.id ≠ edge.id := by
        intro same
        have edges := eq_of_key_eq framed.edgeIds old member same
        subst edges
        exact apart ⟨by rw [eq_of_key_eq framed.nodeIds present among (id.symm.trans predecessor)], rfl⟩
      exact ⟨found, present, rfl, _, mem_edges_modifyEdge.mpr ⟨before, old, rfl⟩,
        by simpa [other] using ⟨id, asserted⟩⟩

end Respan

end OutlineTypes.Graph
