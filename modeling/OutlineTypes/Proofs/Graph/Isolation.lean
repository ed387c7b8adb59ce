import OutlineTypes.Proofs.Graph.Calls

/-! Isolation. The nodes of one document and the edges out of them are a part of the graph that changes of
other documents leave as it is, down to the order in which things are listed. -/
namespace OutlineTypes

theorem OrderedSet.erase_eq_self [DecidableEq α] {s : OrderedSet α} {x : α} (absent : x ∉ s) : s.erase x = s :=
  ext_toList (List.erase_of_not_mem absent)

/-- Where changes do not concern the elements of a kind, these stay as they are. -/
theorem filter_map_of_fixed {p : α → Bool} {f : α → α} {xs : List α} (kind : ∀ x ∈ xs, p (f x) = p x)
    (fixed : ∀ x ∈ xs, p x → f x = x) : (xs.map f).filter p = xs.filter p := by
  induction xs with
  | nil => rfl
  | cons x xs ih =>
    rw [List.forall_mem_cons] at kind fixed
    rw [List.map_cons, List.filter_cons, List.filter_cons, kind.1, ih kind.2 fixed.2]
    split
    · rw [fixed.1 ‹_›]
    · rfl

namespace Graph

def nodesIn (graph : Graph) (document : DocumentId) : List Node :=
  graph.nodes.filter (·.path.document = document)

/-- The edges out of the nodes of a document. -/
def edgesIn (graph : Graph) (document : DocumentId) : List Edge :=
  graph.edges.filter fun edge => (graph.nodesIn document).any (·.id = edge.predecessor)

/-- The part of the graph that belongs to the document is the same in both. -/
structure Intact (document : DocumentId) (graph next : Graph) : Prop where
  nodes : next.nodesIn document = graph.nodesIn document
  edges : next.edgesIn document = graph.edgesIn document

/-- No node of the document has this number. -/
def Foreign (graph : Graph) (document : DocumentId) (id : NodeId) : Prop :=
  ∀ node ∈ graph.nodesIn document, node.id ≠ id

/-- No edge out of a node of the document has this number. -/
def ForeignEdge (graph : Graph) (document : DocumentId) (id : EdgeId) : Prop :=
  ∀ edge ∈ graph.edgesIn document, edge.id ≠ id

/-- Edges that come from elsewhere lead elsewhere. -/
def Parted (graph : Graph) (document : DocumentId) : Prop :=
  ∀ edge ∈ graph.edges, graph.Foreign document edge.predecessor →
    ∀ node ∈ graph.nodesIn document, edge.lists node.id = false

variable {graph mid next : Graph} {document : DocumentId}

theorem mem_nodesIn {node : Node} :
    node ∈ graph.nodesIn document ↔ node ∈ graph.nodes ∧ node.path.document = document := by
  simp [nodesIn]

theorem mem_edgesIn {edge : Edge} : edge ∈ graph.edgesIn document ↔
    edge ∈ graph.edges ∧ ∃ node ∈ graph.nodesIn document, node.id = edge.predecessor := by
  simp [edgesIn]

namespace Intact

theorem refl (document : DocumentId) (graph : Graph) : Intact document graph graph := ⟨rfl, rfl⟩

theorem trans (first : Intact document graph mid) (second : Intact document mid next) :
    Intact document graph next :=
  ⟨second.nodes.trans first.nodes, second.edges.trans first.edges⟩

theorem foreign (intact : Intact document graph next) {id : NodeId} :
    next.Foreign document id ↔ graph.Foreign document id := by
  rw [Foreign, Foreign, intact.nodes]

theorem foreignEdge (intact : Intact document graph next) {id : EdgeId} :
    next.ForeignEdge document id ↔ graph.ForeignEdge document id := by
  rw [ForeignEdge, ForeignEdge, intact.edges]

/-- Where the nodes of the document are the same, its edges are a matter of the list of edges alone. -/
theorem of_nodes (nodes : next.nodesIn document = graph.nodesIn document)
    (edges : next.edges.filter (fun edge => (graph.nodesIn document).any (·.id = edge.predecessor)) =
      graph.edgesIn document) : Intact document graph next := by
  refine ⟨nodes, ?_⟩
  rw [edgesIn, nodes]
  exact edges

/-- Changes of nodes of other documents. -/
theorem of_map_nodes {change : Node → Node} (edges : next.edges = graph.edges)
    (nodes : next.nodes = graph.nodes.map change)
    (document_eq : ∀ node ∈ graph.nodes, (change node).path.document = node.path.document)
    (fixed : ∀ node ∈ graph.nodesIn document, change node = node) : Intact document graph next := by
  refine of_nodes ?_ (by rw [edges, edgesIn])
  rw [nodesIn, nodes]
  refine filter_map_of_fixed (fun node member => by rw [document_eq node member]) fun node member ours => ?_
  exact fixed node (List.mem_filter.mpr ⟨member, ours⟩)

/-- Changes of edges out of other documents. -/
theorem of_map_edges {change : Edge → Edge} (nodes : next.nodes = graph.nodes)
    (edges : next.edges = graph.edges.map change)
    (predecessor : ∀ edge ∈ graph.edges, (change edge).predecessor = edge.predecessor)
    (fixed : ∀ edge ∈ graph.edgesIn document, change edge = edge) : Intact document graph next := by
  refine of_nodes (by rw [nodesIn, nodes, nodesIn]) ?_
  rw [edges]
  refine filter_map_of_fixed (fun edge listed => by rw [predecessor edge listed]) fun edge listed ours => ?_
  exact fixed edge (List.mem_filter.mpr ⟨listed, ours⟩)

end Intact

/-- Many changes that each leave the part of the document as it is. -/
theorem Coherent.foldlM_intact (coherent : graph.Coherent) {step : Graph → α → Except Fatal Graph} {xs : List α}
    (each : ∀ x ∈ xs, ∀ mid : Graph, mid.Coherent → Intact document graph mid →
      Ensures (step mid x) fun next => next.Coherent ∧ Intact document mid next) :
    Ensures (xs.foldlM step graph) fun next => next.Coherent ∧ Intact document graph next := by
  refine Ensures.foldlM_of_forall (fun next : Graph => next.Coherent ∧ Intact document graph next)
    ⟨coherent, .refl document graph⟩ fun x member mid before => ?_
  exact (each x member mid before.1 before.2).mono fun next h => ⟨h.1, before.2.trans h.2⟩

section Foreign

theorem Framed.foreign_of_mem (framed : graph.Framed) {node : Node} (member : node ∈ graph.nodes)
    (elsewhere : node.path.document ≠ document) : graph.Foreign document node.id := by
  intro other among same
  obtain ⟨listed, ours⟩ := mem_nodesIn.mp among
  rw [eq_of_key_eq framed.nodeIds listed member same] at ours
  exact elsewhere ours

theorem Foreign.elsewhere {node : Node} (member : node ∈ graph.nodes)
    (foreign : graph.Foreign document node.id) : node.path.document ≠ document :=
  fun ours => foreign node (mem_nodesIn.mpr ⟨member, ours⟩) rfl

theorem Framed.foreignEdge_of_mem (framed : graph.Framed) {edge : Edge} (listed : edge ∈ graph.edges)
    (foreign : graph.Foreign document edge.predecessor) : graph.ForeignEdge document edge.id := by
  intro other among same
  obtain ⟨present, node, member, leaves⟩ := mem_edgesIn.mp among
  rw [eq_of_key_eq framed.edgeIds present listed same] at leaves
  exact foreign node member leaves

theorem ForeignEdge.foreign {edge : Edge} (listed : edge ∈ graph.edges)
    (foreign : graph.ForeignEdge document edge.id) : graph.Foreign document edge.predecessor :=
  fun node member leaves => foreign edge (mem_edgesIn.mpr ⟨listed, node, member, leaves⟩) rfl

/-- From elsewhere no node of the document is seen. -/
theorem Framed.visible_elsewhere (framed : graph.Framed) {path : TypePath} (elsewhere : path.document ≠ document)
    {subject : Name} {successor : Successor} (shown : successor ∈ graph.visible path subject) {node : Node}
    (member : node ∈ graph.nodesIn document) : successor.node ≠ node.id := by
  intro same
  obtain ⟨listed, ours⟩ := mem_nodesIn.mp member
  obtain ⟨_, found, present, id, at_⟩ := framed.mem_visible_iff.mp shown
  cases eq_of_key_eq framed.nodeIds present listed (id.trans same)
  exact elsewhere ((congrArg TypePath.document at_).symm.trans ours)

theorem Coherent.parted (coherent : graph.Coherent) (document : DocumentId) : graph.Parted document := by
  intro edge listed foreign node member
  obtain ⟨source, present, predecessor⟩ := coherent.predecessors edge listed
  have elsewhere := Foreign.elsewhere present (predecessor ▸ foreign)
  refine List.any_eq_false.mpr fun successor shown => ?_
  rw [coherent.successors edge listed source present predecessor] at shown
  simpa using coherent.visible_elsewhere elsewhere shown member

/-- An edge from elsewhere is no inbound edge of the document. -/
theorem Framed.not_mem_inbounds (framed : graph.Framed) (parted : graph.Parted document) {id : EdgeId}
    (foreign : graph.ForeignEdge document id) {node : Node} (member : node ∈ graph.nodesIn document) :
    id ∉ node.inbounds := by
  rw [framed.inbounds node (mem_nodesIn.mp member).1 id]
  rintro ⟨edge, listed, rfl, lists⟩
  simp [parted edge listed (foreign.foreign listed) node member] at lists

theorem receive_eq_self {edge : Edge} {node : Node} (absent : edge.id ∉ node.inbounds)
    (unlisted : edge.lists node.id = false) : receive edge node = node := by
  simp only [receive, unlisted, Bool.false_eq_true, ↓reduceIte, OrderedSet.erase_eq_self absent]

end Foreign

section Refresh

/-- An edge from elsewhere may change its successors. -/
theorem Framed.intact_link (framed : graph.Framed) (parted : graph.Parted document) {edge old : Edge}
    (listed : old ∈ graph.edges) (bare : edge.bare = old.bare)
    (foreign : graph.Foreign document edge.predecessor)
    (apart : ∀ node ∈ graph.nodesIn document, edge.lists node.id = false) :
    Intact document graph (graph.link edge) ∧ (graph.link edge).Parted document := by
  have id : edge.id = old.id := congrArg (·.id) bare
  have predecessor : edge.predecessor = old.predecessor := congrArg (·.predecessor) bare
  have foreignEdge : graph.ForeignEdge document edge.id :=
    id ▸ framed.foreignEdge_of_mem listed (predecessor ▸ foreign)
  have edges : Intact document graph (graph.modifyEdge edge.id fun _ => edge) := by
    refine .of_map_edges rfl rfl (fun other present => ?_) fun other ours => if_neg (foreignEdge other ours)
    split
    · rename_i same
      rw [eq_of_key_eq framed.edgeIds present listed (same.trans id), predecessor]
    · rfl
  have nodes : Intact document (graph.modifyEdge edge.id fun _ => edge) (graph.link edge) :=
    .of_map_nodes rfl rfl (fun _ _ => rfl) fun node member =>
      receive_eq_self (framed.not_mem_inbounds parted foreignEdge member) (apart node member)
  have intact := edges.trans nodes
  refine ⟨intact, fun other present away node member => ?_⟩
  rw [intact.nodes] at member
  rcases mem_edges_link present with rfl | ⟨before, _⟩
  · exact apart node member
  · exact parted other before (intact.foreign.mp away) node member

theorem Framed.relink_intact (framed : graph.Framed) (parted : graph.Parted document) {id : EdgeId}
    (foreign : graph.ForeignEdge document id) :
    Ensures (graph.relink id) fun next => Intact document graph next ∧ next.Parted document := by
  unfold relink
  cases found : graph.edge? id with
  | none => exact .ok ⟨.refl document graph, parted⟩
  | some edge =>
    obtain ⟨listed, rfl⟩ := framed.edge?_eq_some_iff.mp found
    obtain ⟨node, member, predecessor⟩ := framed.predecessors edge listed
    have successors : graph.successorsOf edge.predecessor edge.subject =
        .ok (graph.visible node.path edge.subject) := predecessor ▸ framed.successorsOf_id member _
    simp only [successors, ok_bind]
    have away := foreign.foreign listed
    refine .ok (framed.intact_link parted listed rfl away fun other ours => List.any_eq_false.mpr ?_)
    intro successor shown
    simpa using framed.visible_elsewhere (Foreign.elsewhere member (predecessor ▸ away)) shown ours

theorem Framed.refresh_intact (framed : graph.Framed) (parted : graph.Parted document) {path : TypePath}
    (elsewhere : path.document ≠ document) : Ensures (graph.refresh path) (Intact document graph) := by
  let selected := (graph.edges.filter (graph.sees path.document path.tip path.container?)).map Edge.id
  have each : ∀ id ∈ selected, graph.ForeignEdge document id := by
    intro id member
    obtain ⟨edge, among, rfl⟩ := List.mem_map.mp member
    obtain ⟨listed, sees⟩ := List.mem_filter.mp among
    obtain ⟨node, present, predecessor⟩ := framed.predecessors edge listed
    have shared : node.path.document = path.document := by
      simp only [Graph.sees, ← predecessor, framed.node?_id present, Bool.and_eq_true,
        decide_eq_true_eq] at sees
      exact sees.2.1
    exact framed.foreignEdge_of_mem listed
      (predecessor ▸ framed.foreign_of_mem present (shared ▸ elsewhere))
  have fold : Ensures (selected.foldlM relink graph) fun next =>
      next.Framed ∧ next.Parted document ∧ Intact document graph next :=
    Ensures.foldlM (fun _ next => next.Framed ∧ next.Parted document ∧ Intact document graph next)
      ⟨framed, parted, .refl document graph⟩ fun done id rest mid split before => by
        obtain ⟨framed, parted, intact⟩ := before
        have foreign := intact.foreignEdge.mpr (each id (by simp [split]))
        refine ((framed.relink_succeeds id).ensures.and (framed.relink_intact parted foreign)).mono fun next h => ?_
        exact ⟨h.1.1, h.2.2, intact.trans h.2.1⟩
  exact fold.mono fun next h => h.2.2

end Refresh

section Creation

theorem Coherent.createNode_intact (coherent : graph.Coherent) {path : TypePath}
    (vacant : graph.nodeAt? path = none) (elsewhere : path.document ≠ document) :
    Ensures (graph.createNode path) fun result =>
      Intact document graph result.2 ∧ result.2.Foreign document result.1 := by
  unfold createNode
  refine (coherent.containerOf_ensures path).bind fun container held => ?_
  have framed := coherent.framed_addNode vacant held.1 held.2
  have added : Intact document graph (graph.addNode container path) := by
    refine .of_nodes ?_ rfl
    simp [nodesIn, addNode, elsewhere]
  have parted : (graph.addNode container path).Parted document := by
    intro edge listed away node member
    rw [added.nodes] at member
    exact coherent.parted document edge listed (added.foreign.mp away) node member
  refine (framed.refresh_intact parted elsewhere).bind fun next refreshed => .pure ?_
  have intact := added.trans refreshed
  refine ⟨intact, intact.foreign.mpr fun node member same => ?_⟩
  have below := coherent.nodesBelow node (mem_nodesIn.mp member).1
  rw [same] at below
  exact absurd below (Nat.lt_irrefl _)

theorem Coherent.declare_intact (coherent : graph.Coherent) {path : TypePath} (span : SpanId)
    (elsewhere : path.document ≠ document) :
    Ensures (graph.declare path span) fun result =>
      Intact document graph result.2 ∧ result.2.Foreign document result.1 := by
  have declares {id : NodeId} {mid : Graph} (intact : Intact document graph mid) (foreign : mid.Foreign document id) :
      Ensures (do
        let next ← mid.updateNode id fun node => { node with declarations := node.declarations.insert span }
        return (id, next)) fun result => Intact document graph result.2 ∧ result.2.Foreign document result.1 := by
    unfold updateNode
    refine Ensures.bind (?_ : Ensures _ (Intact document mid)) fun next declared => .pure ?_
    · refine (Ensures.anything _).bind fun _ _ => .pure (.of_map_nodes rfl rfl (fun node _ => ?_) fun node ours => ?_)
      · split <;> rfl
      · exact if_neg (foreign node ours)
    · exact ⟨intact.trans declared, declared.foreign.mpr foreign⟩
  unfold declare
  cases found : graph.nodeAt? path with
  | some node =>
    obtain ⟨member, rfl⟩ := coherent.nodeAt?_eq_some_iff.mp found
    exact declares (.refl document graph) (coherent.foreign_of_mem member elsewhere)
  | none =>
    exact (coherent.createNode_intact found elsewhere).bind fun result created => declares created.1 created.2

theorem Coherent.createEdge_intact (coherent : graph.Coherent) {id : NodeId}
    (foreign : graph.Foreign document id) (source : SpanId) (subject : Name) :
    Ensures (graph.createEdge id source subject) (Intact document graph) := by
  unfold createEdge
  cases found : graph.node? id with
  | none =>
    simp only [successorsOf, nodeOf, found]
    exact .error _
  | some node =>
    obtain ⟨member, rfl⟩ := coherent.node?_eq_some_iff.mp found
    simp only [coherent.successorsOf_id member, ok_bind]
    let edge : Edge := ⟨.mk graph.nextEdge, node.id, subject, .ofList [source], graph.visible node.path subject⟩
    have added : Intact document graph
        { graph with edges := graph.edges ++ [edge], nextEdge := graph.nextEdge + 1 } := by
      refine .of_nodes rfl ?_
      have silent : (graph.nodesIn document).any (·.id = edge.predecessor) = false := by
        simpa [edge, Foreign] using foreign
      rw [List.filter_append, List.filter_cons_of_neg (by simp [silent]), List.filter_nil, List.append_nil, edgesIn]
    refine .pure (added.trans (.of_map_nodes rfl rfl (fun _ _ => rfl) fun other ours => ?_))
    refine receive_eq_self ?_ (List.any_eq_false.mpr fun successor shown => ?_)
    · refine coherent.not_mem_inbounds (coherent.parted document) (fun old present same => ?_) ours
      exact coherent.edgeId_ne_next (mem_edgesIn.mp present).1 same
    · simpa using coherent.visible_elsewhere (foreign.elsewhere member) shown ours

theorem Coherent.annotate_keeps (coherent : graph.Coherent) (id : NodeId) (source : SpanId) (subject : Name) :
    Ensures (graph.annotate id source subject) Coherent := by
  cases found : graph.node? id with
  | some node =>
    obtain ⟨member, rfl⟩ := coherent.node?_eq_some_iff.mp found
    exact (coherent.annotate_succeeds member source subject).ensures.mono fun _ annotated => annotated.coherent
  | none =>
    have silent : graph.outbound? id subject = none := by
      refine outbound?_eq_none_iff.mpr fun edge listed leaves => ?_
      obtain ⟨node, member, predecessor⟩ := coherent.predecessors edge listed
      simp [coherent.node?_eq_some_iff.mpr ⟨member, predecessor.trans leaves.1⟩] at found
    simp only [annotate, silent, createEdge, successorsOf, nodeOf, found]
    exact .error _

theorem Coherent.annotate_intact (coherent : graph.Coherent) {id : NodeId} (foreign : graph.Foreign document id)
    (source : SpanId) (subject : Name) :
    Ensures (graph.annotate id source subject) (Intact document graph) := by
  unfold annotate
  cases found : graph.outbound? id subject with
  | some edge =>
    obtain ⟨listed, rfl, _⟩ := coherent.outbound?_eq_some_iff.mp found
    refine .ok (.of_map_edges rfl rfl (fun other _ => ?_) fun other ours => ?_)
    · split <;> rfl
    · exact if_neg (coherent.foreignEdge_of_mem listed foreign other ours)
  | none => exact coherent.createEdge_intact foreign source subject

theorem Coherent.annotateAll_intact (coherent : graph.Coherent) {id : NodeId} (foreign : graph.Foreign document id)
    (other : Document) :
    Ensures (annotateAll other graph id) fun next => next.Coherent ∧ Intact document graph next := by
  unfold annotateAll
  refine (Ensures.anything _).bind fun node _ => ?_
  refine coherent.foldlM_intact fun span _ mid coherent intact => ?_
  exact (coherent.annotate_keeps id span.id span.subject).and
    (coherent.annotate_intact (intact.foreign.mpr foreign) span.id span.subject)

/-- A region of another document comes in. -/
theorem Coherent.include_intact (coherent : graph.Coherent) {other : Document} (elsewhere : other.id ≠ document)
    (region : List Nat) : Ensures (graph.includeRegion other region) (Intact document graph) := by
  unfold includeRegion
  have placing : Ensures ((placementsOf other region).foldlM place (graph, ∅)) fun state =>
      state.1.Coherent ∧ Intact document graph state.1 ∧ ∀ id ∈ state.2, graph.Foreign document id := by
    refine Ensures.foldlM (fun done (state : Graph × OrderedSet NodeId) => state.1.Coherent ∧
      Intact document graph state.1 ∧ ∀ id ∈ state.2, graph.Foreign document id)
        ⟨coherent, .refl document graph, by simp⟩ fun done placement rest state split before => ?_
    obtain ⟨coherent, intact, touched⟩ := before
    have ours : placement.path.document = other.id := by
      have among : placement ∈ placementsOf other region := by simp [split]
      obtain ⟨index, _, member⟩ := mem_placementsOf.mp among
      exact Document.document_of_mem_placements member
    have declares : Ensures (state.1.declare placement.path placement.span.id) fun result =>
        result.2.Coherent ∧ Intact document state.1 result.2 ∧ result.2.Foreign document result.1 := by
      refine fun result eq => ⟨?_, coherent.declare_intact _ (ours ▸ elsewhere) result eq⟩
      exact ((coherent.declare_succeeds _ fun outer inside =>
        coherent.hasNode_of_declare eq inside).post_of_eq eq).coherent
    unfold place
    refine declares.bind fun result h => .pure ⟨h.1, intact.trans h.2.1, fun id member => ?_⟩
    rcases OrderedSet.mem_insert.mp member with before | rfl
    · exact touched id before
    · exact (intact.trans h.2.1).foreign.mp h.2.2
  refine placing.bind fun state placed => ?_
  obtain ⟨coherent, intact, touched⟩ := placed
  refine (coherent.foldlM_intact fun id member mid coherent onward => ?_).mono fun _ h => intact.trans h.2
  exact coherent.annotateAll_intact ((intact.trans onward).foreign.mpr (touched id member)) other

end Creation

section Removal

theorem Coherent.removeEdge_intact (coherent : graph.Coherent) {id : EdgeId}
    (foreign : graph.ForeignEdge document id) : Ensures (graph.removeEdge id) (Intact document graph) := by
  unfold removeEdge
  cases graph.edge? id with
  | none => exact .ok (.refl document graph)
  | some edge =>
    refine (Ensures.anything _).bind fun _ _ => .pure ?_
    have dropped : Intact document graph (graph.keepEdges (·.id ≠ id)) := by
      refine .of_nodes rfl ?_
      simp only [keepEdges, List.filter_filter]
      refine List.filter_congr fun other listed => ?_
      rw [Bool.and_eq_left_iff_imp]
      exact fun ours => decide_eq_true (foreign other (List.mem_filter.mpr ⟨listed, ours⟩))
    refine dropped.trans (.of_map_nodes rfl rfl (fun _ _ => rfl) fun node ours => ?_)
    rw [OrderedSet.erase_eq_self (coherent.not_mem_inbounds (coherent.parted document) foreign ours)]

theorem Coherent.removeEdges_intact (coherent : graph.Coherent) {ids : List EdgeId}
    (foreign : ∀ id ∈ ids, graph.ForeignEdge document id) :
    Ensures (ids.foldlM removeEdge graph) (Intact document graph) := by
  refine (coherent.foldlM_intact fun id member mid coherent intact => ?_).mono fun _ h => h.2
  have away := intact.foreignEdge.mpr (foreign id member)
  exact ((coherent.removeEdge_succeeds id).ensures.and (coherent.removeEdge_intact away)).mono
    fun next h => ⟨h.1.1, h.2⟩

theorem Coherent.removeNode_intact (coherent : graph.Coherent) {id : NodeId} (foreign : graph.Foreign document id) :
    Ensures (graph.removeNode id) (Intact document graph) := by
  refine fun next eq => ?_
  obtain ⟨node, mid, rfl, removed⟩ := coherent.removeNode_removes id next eq
  have edges : Intact document graph mid := by
    refine coherent.removeEdges_intact (fun id member => ?_) mid removed.edges
    obtain ⟨edge, outbound, rfl⟩ := List.mem_map.mp member
    obtain ⟨listed, leaves⟩ := mem_outbounds.mp outbound
    exact coherent.foreignEdge_of_mem listed (leaves ▸ foreign)
  have away := edges.foreign.mpr foreign
  have dropped : Intact document mid (mid.keepNodes (·.id ≠ node.id)) := by
    refine .of_nodes ?_ rfl
    simp only [nodesIn, keepNodes, List.filter_filter]
    refine List.filter_congr fun other listed => ?_
    rw [Bool.and_eq_left_iff_imp]
    exact fun ours => decide_eq_true (away other (List.mem_filter.mpr ⟨listed, ours⟩))
  have framed := removed.coherent.framed_dropNode removed.silent removed.vacant
  have parted : (mid.keepNodes (·.id ≠ node.id)).Parted document := by
    intro edge listed leaves other ours
    rw [dropped.nodes] at ours
    exact removed.coherent.parted document edge listed (dropped.foreign.mp leaves) other ours
  have refreshed := framed.refresh_intact parted (foreign.elsewhere removed.member) next removed.refreshed
  exact (edges.trans dropped).trans refreshed

theorem Coherent.removeNodes_intact (coherent : graph.Coherent) {ids : List NodeId}
    (foreign : ∀ id ∈ ids, graph.Foreign document id) :
    Ensures (ids.foldlM removeNode graph) (Intact document graph) := by
  refine (coherent.foldlM_intact fun id member mid coherent intact => ?_).mono fun _ h => h.2
  have away := intact.foreign.mpr (foreign id member)
  exact ((coherent.removeNode_ensures id).and (coherent.removeNode_intact away)).mono fun next h => ⟨h.1.1, h.2⟩

theorem Framed.detach_intact (framed : graph.Framed) {id : NodeId} (foreign : graph.Foreign document id)
    (source : SpanId) (subject : Name) : Intact document graph (graph.detach id source subject) := by
  unfold detach
  cases found : graph.outbound? id subject with
  | none => exact .refl document graph
  | some edge =>
    obtain ⟨listed, rfl, _⟩ := framed.outbound?_eq_some_iff.mp found
    have apart := framed.foreignEdge_of_mem listed foreign
    simp only
    split <;>
    · refine .of_map_edges rfl rfl (fun other _ => ?_) fun other ours => if_neg (apart other ours)
      split <;> rfl

theorem Coherent.detachAll_intact (coherent : graph.Coherent) {node : Node} (member : node ∈ graph.nodes)
    (elsewhere : node.path.document ≠ document) (annotations : List Span) : Intact document graph
      (annotations.foldl (fun graph span => graph.detach node.id span.id span.subject) graph) := by
  induction annotations generalizing graph with
  | nil => exact .refl document graph
  | cons span annotations ih =>
    have first := coherent.detached_detach member span.id span.subject
    have intact := coherent.detach_intact (coherent.foreign_of_mem member elsewhere) span.id span.subject
    exact intact.trans (ih (first.respanned.coherent coherent) (first.nodes ▸ member))

theorem Coherent.withdraw_intact (coherent : graph.Coherent) {path : TypePath} (elsewhere : path.document ≠ document)
    (span : SpanId) (annotations : List Span) : Intact document graph (graph.withdraw path span annotations) := by
  unfold withdraw
  cases found : graph.nodeAt? path with
  | none => exact .refl document graph
  | some node =>
    obtain ⟨member, rfl⟩ := coherent.nodeAt?_eq_some_iff.mp found
    have foreign := coherent.foreign_of_mem member elsewhere
    let rest := node.declarations.erase span
    let mid := graph.modifyNode node.id fun other => { other with declarations := rest }
    have withdrawn : Intact document graph mid := by
      refine .of_map_nodes rfl rfl (fun other _ => ?_) fun other ours => if_neg (foreign other ours)
      split <;> rfl
    have now : { node with declarations := rest } ∈ mid.nodes :=
      mem_nodes_modifyNode.mpr ⟨node, member, by simp⟩
    have coherent := (respanned_modifyNode graph node.id fun _ => rest).coherent coherent
    have detached := withdrawn.trans (coherent.detachAll_intact now elsewhere annotations)
    simp only
    split <;> exact ⟨detached.nodes, detached.edges⟩

/-- A region of another document goes out. -/
theorem Coherent.exclude_intact (coherent : graph.Coherent) {other : Document} (elsewhere : other.id ≠ document)
    (region : List Nat) : Intact document graph (graph.excludeRegion other region) := by
  unfold excludeRegion
  have ours : ∀ placement ∈ region.flatMap other.placements, placement.path.document ≠ document := by
    intro placement member
    obtain ⟨index, _, among⟩ := List.mem_flatMap.mp member
    rwa [Document.document_of_mem_placements among]
  generalize region.flatMap other.placements = placements at ours ⊢
  induction placements generalizing graph with
  | nil => exact .refl document graph
  | cons placement placements ih =>
    rw [List.forall_mem_cons] at ours
    have first := coherent.reduced_withdraw placement
    exact (coherent.withdraw_intact ours.1 _ _).trans (ih (first.respanned.coherent coherent) ours.2)

/-- Disposal takes nothing from a document of which nothing is empty. -/
theorem Coherent.dispose_intact (coherent : graph.Coherent) (accounted : graph.Accounted)
    (nodes : ∀ node ∈ graph.nodesIn document, node.declarations.isEmpty = false)
    (edges : ∀ edge ∈ graph.edgesIn document, edge.sources.isEmpty = false) :
    Ensures graph.dispose (Intact document graph) := by
  let cleared : Graph := { graph with emptiedEdges := ∅, emptiedNodes := ∅ }
  have clearing : Intact document graph cleared := ⟨rfl, rfl⟩
  have respanned : Respanned graph cleared := ⟨rfl, rfl, rfl, rfl⟩
  have emptied : ∀ id ∈ graph.emptiedEdges.toList.filter fun id => (graph.edge? id).any (·.sources.isEmpty),
      cleared.ForeignEdge document id := by
    intro id member other ours same
    obtain ⟨_, empty⟩ := List.mem_filter.mp member
    obtain ⟨listed, _⟩ := mem_edgesIn.mp ours
    have found : graph.edge? id = some other := coherent.edge?_eq_some_iff.mpr ⟨listed, same⟩
    simp [found, edges other ours] at empty
  unfold dispose
  refine ((coherent.removeEmptied_succeeds accounted).ensures.and
    ((respanned.coherent coherent).removeEdges_intact emptied)).bind fun mid h => ?_
  obtain ⟨pruned, removed⟩ := h
  have intact := clearing.trans removed
  refine (pruned.coherent.removeNodes_intact fun id member => ?_).mono fun next gone => intact.trans gone
  obtain ⟨node, vacant, rfl⟩ := List.mem_map.mp member
  obtain ⟨listed, empty⟩ := (pruned.mem_vacantNodes accounted).mp vacant
  refine pruned.coherent.foreign_of_mem listed fun ours => ?_
  have before := mem_nodesIn.mpr ⟨listed, ours⟩
  rw [intact.nodes] at before
  simp [nodes node before] at empty

end Removal

/-- A change of one document leaves the parts of all others as they are. -/
theorem Settled.change_intact (settled : graph.Settled) {old new : Document} (same : new.id = old.id)
    (elsewhere : new.id ≠ document) (parents : List StatementId) :
    Ensures (graph.change old new parents) (Intact document graph) := by
  let start : Graph := { graph with pending := some old.id }
  have respanned : Respanned graph start := ⟨rfl, rfl, rfl, rfl⟩
  have coherent := respanned.coherent settled.toCoherent
  have accounted : start.Accounted := ⟨settled.accounted.nodes, settled.accounted.edges⟩
  unfold change invalidate
  rw [settled.pending]
  refine Ensures.bind (?_ : Ensures _ fun next => next.Coherent ∧ next.Accounted ∧ Intact document graph next) ?_
  · refine (Ensures.anything _).bind fun region _ => .pure ?_
    have kept := excludeRegion_keeps coherent accounted old region
    have excluded : Intact document start (start.excludeRegion old region) :=
      coherent.exclude_intact (same ▸ elsewhere) region
    exact ⟨kept.1, kept.2, ⟨excluded.nodes, excluded.edges⟩⟩
  · rintro mid ⟨coherent, accounted, excluded⟩
    unfold revalidate
    split
    · let onward : Graph := { mid with pending := none }
      have respanned : Respanned mid onward := ⟨rfl, rfl, rfl, rfl⟩
      have onward_accounted : onward.Accounted := ⟨accounted.nodes, accounted.edges⟩
      have coherent := respanned.coherent coherent
      refine (Ensures.anything _).bind fun region _ => ?_
      refine ((coherent.include_ensures new region).and (coherent.include_intact elsewhere region)).bind
        fun last h => ?_
      obtain ⟨included, entered⟩ := h
      have intact : Intact document graph last := excluded.trans ⟨entered.nodes, entered.edges⟩
      have nodes : ∀ node ∈ last.nodesIn document, node.declarations.isEmpty = false := by
        rw [intact.nodes]
        exact fun node member => settled.nodes node (mem_nodesIn.mp member).1
      have edges : ∀ edge ∈ last.edgesIn document, edge.sources.isEmpty = false := by
        rw [intact.edges]
        exact fun edge listed => settled.edges edge (mem_edgesIn.mp listed).1
      exact (included.coherent.dispose_intact (included.accounted onward_accounted) nodes edges).mono
        fun next disposed => intact.trans disposed
    · exact .error _

end Graph
end OutlineTypes
