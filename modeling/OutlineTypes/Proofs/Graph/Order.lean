import OutlineTypes.Proofs.Document.Order
import OutlineTypes.Proofs.Graph.Disposal
import OutlineTypes.Proofs.Graph.Inclusion

/-! The order of a graph. A document that comes into a graph without nodes has its spans listed as they
stand in it, and the edges of each node in the order of their first sources. Disposal changes no order. -/
namespace OutlineTypes

namespace Edge

/-- A source of the first edge stands in front of every source of the second. -/
def Leads (document : Document) (first second : Edge) : Prop :=
  ∃ source ∈ first.sources.toList, ∀ other ∈ second.sources.toList, document.isBefore source other

instance (document : Document) (first second : Edge) : Decidable (Leads document first second) :=
  inferInstanceAs (Decidable (∃ source ∈ first.sources.toList, ∀ other ∈ second.sources.toList,
    document.isBefore source other))

theorem not_leads_self {document : Document} (edge : Edge) : ¬Leads document edge edge := by
  rintro ⟨source, listed, front⟩
  exact Document.not_isBefore_self source (front source listed)

theorem not_leads_of_leads {document : Document} {first second : Edge} (leads : Leads document first second) :
    ¬Leads document second first := by
  obtain ⟨source, listed, front⟩ := leads
  rintro ⟨other, among, frontToo⟩
  exact Document.not_isBefore_of_isBefore (front other among) (frontToo source listed)

end Edge

namespace Graph

variable {document : Document} {graph next : Graph} {edges : List Edge} {source : SpanId}

/-- These edges list their sources in order, and stand in the order of their first sources. -/
structure Lined (document : Document) (edges : List Edge) : Prop where
  sourced : ∀ edge ∈ edges, edge.sources.isEmpty = false
  sources : ∀ edge ∈ edges, edge.sources.toList.Pairwise fun first second => document.isBefore first second
  leads : edges.Pairwise (Edge.Leads document)

structure InOrder (document : Document) (graph : Graph) : Prop where
  declarations : ∀ node ∈ graph.nodes,
    node.declarations.toList.Pairwise fun first second => document.isBefore first second
  outbounds : ∀ node ∈ graph.nodes, Lined document (graph.outbounds node.id)

instance (document : Document) (edges : List Edge) : Decidable (Lined document edges) :=
  decidable_of_iff ((∀ edge ∈ edges, edge.sources.isEmpty = false) ∧
      (∀ edge ∈ edges, edge.sources.toList.Pairwise fun first second => document.isBefore first second) ∧
        edges.Pairwise (Edge.Leads document))
    ⟨fun h => ⟨h.1, h.2.1, h.2.2⟩, fun h => ⟨h.sourced, h.sources, h.leads⟩⟩

instance (document : Document) (graph : Graph) : Decidable (graph.InOrder document) :=
  decidable_of_iff ((∀ node ∈ graph.nodes,
      node.declarations.toList.Pairwise fun first second => document.isBefore first second) ∧
        ∀ node ∈ graph.nodes, Lined document (graph.outbounds node.id))
    ⟨fun h => ⟨h.1, h.2⟩, fun h => ⟨h.declarations, h.outbounds⟩⟩

section Annotations

theorem lined_nil (document : Document) : Lined document [] := by
  constructor <;> simp

/-- A later source may come to any of the edges. -/
theorem Lined.addSource (lined : Lined document edges)
    (later : ∀ edge ∈ edges, ∀ other ∈ edge.sources, document.isBefore other source) (id : EdgeId) :
    Lined document (edges.map fun edge =>
      if edge.id = id then { edge with sources := edge.sources.insert source } else edge) where
  sourced edge member := by
    obtain ⟨old, among, rfl⟩ := List.mem_map.mp member
    split
    · simp [OrderedSet.isEmpty_insert]
    · exact lined.sourced old among
  sources edge member := by
    obtain ⟨old, among, rfl⟩ := List.mem_map.mp member
    split
    · exact OrderedSet.pairwise_insert (lined.sources old among) fun other listed => .inr (later old among other listed)
    · exact lined.sources old among
  leads := by
    rw [List.pairwise_map]
    refine lined.leads.imp_of_mem fun {first second} here there ⟨origin, listed, front⟩ => ⟨origin, ?_, ?_⟩
    · split
      · exact OrderedSet.mem_insert.mpr (.inl listed)
      · exact listed
    · intro other among
      split at among
      · rcases OrderedSet.mem_insert.mp among with before | rfl
        · exact front other before
        · exact later first here origin listed
      · exact front other among

/-- An edge that a later source asserts may come last. -/
theorem Lined.append (lined : Lined document edges)
    (later : ∀ edge ∈ edges, ∀ other ∈ edge.sources, document.isBefore other source) {edge : Edge}
    (sources : edge.sources = .ofList [source]) : Lined document (edges ++ [edge]) := by
  have listed : edge.sources.toList = [source] := by rw [sources]; rfl
  constructor
  · intro other member
    rcases List.mem_append.mp member with before | last
    · exact lined.sourced other before
    · cases List.mem_singleton.mp last
      simp [OrderedSet.isEmpty, listed]
  · intro other member
    rcases List.mem_append.mp member with before | last
    · exact lined.sources other before
    · cases List.mem_singleton.mp last
      simp [listed]
  · refine List.pairwise_append.mpr ⟨lined.leads, List.pairwise_singleton _ _, fun first member second last => ?_⟩
    cases List.mem_singleton.mp last
    obtain ⟨origin, among⟩ := OrderedSet.exists_mem_of_isEmpty_eq_false (lined.sourced first member)
    refine ⟨origin, among, fun other only => ?_⟩
    rw [listed, List.mem_singleton] at only
    exact only ▸ later first member origin among

theorem mem_outbounds {edge : Edge} {node : NodeId} :
    edge ∈ graph.outbounds node ↔ edge ∈ graph.edges ∧ edge.predecessor = node := by
  simp [outbounds]

theorem outbounds_modifyEdge (graph : Graph) (id : EdgeId) (change : Edge → Edge)
    (predecessor : ∀ edge, (change edge).predecessor = edge.predecessor) (node : NodeId) :
    (graph.modifyEdge id change).outbounds node =
      (graph.outbounds node).map fun edge => if edge.id = id then change edge else edge := by
  simp only [outbounds, modifyEdge, List.filter_map]
  congr 1
  refine List.filter_congr fun edge _ => ?_
  simp only [Function.comp]
  split
  · rw [predecessor]
  · rfl

/-- The edges of one node after an annotation that comes later than all before. -/
structure Enters (document : Document) (graph : Graph) (id : NodeId) (source : SpanId) (next : Graph) :
    Prop where
  lined : Lined document (next.outbounds id)
  origin : ∀ edge ∈ next.outbounds id, ∀ other ∈ edge.sources,
    other = source ∨ ∃ old ∈ graph.outbounds id, other ∈ old.sources
  others : ∀ apart, apart ≠ id → next.outbounds apart = graph.outbounds apart

theorem Framed.annotate_ensures (framed : graph.Framed) {id : NodeId}
    (lined : Lined document (graph.outbounds id))
    (later : ∀ edge ∈ graph.outbounds id, ∀ other ∈ edge.sources, document.isBefore other source)
    (subject : Name) : Ensures (graph.annotate id source subject) (Enters document graph id source) := by
  unfold annotate
  cases found : graph.outbound? id subject with
  | some edge =>
    obtain ⟨listed, predecessor, _⟩ := framed.outbound?_eq_some_iff.mp found
    have outbounds := graph.outbounds_modifyEdge edge.id
      (fun edge => { edge with sources := edge.sources.insert source }) fun _ => rfl
    refine .ok ⟨?_, ?_, fun apart different => ?_⟩
    · rw [outbounds]
      exact lined.addSource later edge.id
    · intro now member other among
      rw [outbounds] at member
      obtain ⟨old, before, rfl⟩ := List.mem_map.mp member
      split at among
      · exact (OrderedSet.mem_insert.mp among).symm.imp_right fun earlier => ⟨old, before, earlier⟩
      · exact .inr ⟨old, before, among⟩
    · rw [outbounds]
      refine (List.map_congr_left fun other among => ?_).trans (List.map_id _)
      obtain ⟨present, leaves⟩ := mem_outbounds.mp among
      have elsewhere : other.id ≠ edge.id := by
        intro same
        cases eq_of_key_eq framed.edgeIds present listed same
        exact different (leaves.symm.trans predecessor)
      exact if_neg elsewhere
  | none =>
    unfold createEdge
    refine (Ensures.anything _).bind fun successors _ => .pure ?_
    have outbounds (node : NodeId) (edge : Edge) : (graph.edges ++ [edge]).filter (·.predecessor = node) =
        graph.outbounds node ++ if edge.predecessor = node then [edge] else [] := by
      rw [List.filter_append, List.filter_singleton]
      simp [Graph.outbounds]
    refine ⟨?_, ?_, fun apart different => ?_⟩
    · simp only [Graph.outbounds, outbounds, ↓reduceIte]
      exact lined.append later rfl
    · intro now member other among
      simp only [Graph.outbounds, outbounds, ↓reduceIte] at member
      rcases List.mem_append.mp member with before | last
      · exact .inr ⟨now, before, among⟩
      · cases List.mem_singleton.mp last
        exact .inl (by simpa using among)
    · simp only [Graph.outbounds, outbounds, if_neg (Ne.symm different), List.append_nil]

/-- A node that has no edges yet gets them in order. -/
theorem Coherent.annotateAll_ensures (coherent : graph.Coherent) (sound : document.Sound) {node : Node}
    (member : node ∈ graph.nodes) (silent : graph.outbounds node.id = [])
    (sorted : node.declarations.toList.Pairwise fun first second => document.isBefore first second) :
    Ensures (annotateAll document graph node.id) fun next => Lined document (next.outbounds node.id) ∧
      ∀ apart, apart ≠ node.id → next.outbounds apart = graph.outbounds apart := by
  unfold annotateAll
  simp only [coherent.nodeOf_id member, ok_bind]
  have ordered := sound.pairwise_annotationsOf sorted
  generalize document.annotationsOf node.declarations.toList = annotations at ordered
  let inv (done : List Span) (mid : Graph) : Prop := mid.Coherent ∧ (∃ now ∈ mid.nodes, now.id = node.id) ∧
    Lined document (mid.outbounds node.id) ∧
    (∀ edge ∈ mid.outbounds node.id, ∀ other ∈ edge.sources, ∃ span ∈ done, span.id = other) ∧
    ∀ apart, apart ≠ node.id → mid.outbounds apart = graph.outbounds apart
  have fold : Ensures (annotations.foldlM (fun graph span => graph.annotate node.id span.id span.subject) graph)
      (inv annotations) := by
    refine Ensures.foldlM inv ⟨coherent, ⟨node, member, rfl⟩, ?_, ?_, fun _ _ => rfl⟩ ?_
    · rw [silent]
      exact lined_nil document
    · rw [silent]
      simp
    · intro done span rest mid split ⟨coherent, ⟨now, present, same⟩, lined, origin, others⟩
      rw [split] at ordered
      have last := (List.pairwise_append.mp ordered).2.2
      have later : ∀ edge ∈ mid.outbounds node.id, ∀ other ∈ edge.sources, document.isBefore other span.id := by
        intro edge among other listed
        obtain ⟨earlier, before, rfl⟩ := origin edge among other listed
        exact last earlier before span List.mem_cons_self
      have stays := (coherent.annotate_succeeds present span.id span.subject).ensures
      rw [same] at stays
      refine (stays.and (coherent.annotate_ensures lined later span.subject)).mono fun next h => ?_
      obtain ⟨annotated, enters⟩ := h
      refine ⟨annotated.coherent, ?_, enters.lined, fun edge among other listed => ?_, fun apart different => ?_⟩
      · obtain ⟨again, there, bare⟩ := annotated.node_after present
        exact ⟨again, there, (congrArg (·.id) bare).trans same⟩
      · rcases enters.origin edge among other listed with rfl | ⟨old, before, earlier⟩
        · exact ⟨span, by simp, rfl⟩
        · obtain ⟨gloss, known, id⟩ := origin old before other earlier
          exact ⟨gloss, List.mem_append_left _ known, id⟩
      · exact (enters.others apart different).trans (others apart different)
  exact fold.mono fun next h => ⟨h.2.2.1, h.2.2.2.2⟩

end Annotations

section Regions

/-- Nodes without annotations, once each is annotated, have them in order. -/
theorem Placed.annotate_ensures {placements : List Document.Placement} {state : Graph × OrderedSet NodeId}
    (placed : Placed graph placements state) (sound : document.Sound)
    (declarations : ∀ node ∈ state.1.nodes,
      node.declarations.toList.Pairwise fun first second => document.isBefore first second)
    (silent : ∀ id, state.1.outbounds id = []) :
    Ensures (state.2.toList.foldlM (annotateAll document) state.1) fun next => next.Coherent ∧
      next.nodes.map Node.bare = state.1.nodes.map Node.bare ∧
        (∀ id ∈ state.2.toList, Lined document (next.outbounds id)) ∧
          ∀ id, id ∉ state.2.toList → next.outbounds id = [] := by
  let inv (done : List NodeId) (mid : Graph) : Prop := mid.Coherent ∧
    mid.nodes.map Node.bare = state.1.nodes.map Node.bare ∧
    (∀ id ∈ done, Lined document (mid.outbounds id)) ∧ ∀ id, id ∉ done → mid.outbounds id = []
  refine Ensures.foldlM inv ⟨placed.coherent, rfl, by simp, fun id _ => silent id⟩ ?_
  intro done id rest mid split ⟨coherent, nodes, lined, others⟩
  have fresh : id ∉ done := by
    have distinct := state.2.nodup
    rw [split, List.nodup_append] at distinct
    exact fun before => distinct.2.2 id before id List.mem_cons_self rfl
  obtain ⟨node, among, rfl, _⟩ := placed.touched id (by simp [OrderedSet.mem_def, split])
  have bare : node.bare ∈ mid.nodes.map Node.bare := nodes ▸ List.mem_map_of_mem among
  obtain ⟨now, present, same⟩ := List.mem_map.mp bare
  have nowId : now.id = node.id := congrArg (·.id) same
  have spans : now.declarations = node.declarations := congrArg (·.declarations) same
  rw [← nowId] at fresh ⊢
  refine ((coherent.annotateAll_succeeds present document).ensures.and
    (coherent.annotateAll_ensures sound present (others _ fresh) (spans ▸ declarations node among))).mono
      fun next h => ?_
  obtain ⟨annotated, linedNow, apart⟩ := h
  refine ⟨annotated.coherent, annotated.nodes.trans nodes, fun other member => ?_, fun other absent => ?_⟩
  · by_cases here : other = now.id
    · exact here ▸ linedNow
    · rw [apart other here]
      exact lined other ((List.mem_append.mp member).resolve_right (by simpa using here))
  · rw [List.mem_append, not_or] at absent
    rw [apart other (by simpa using absent.2)]
    exact others other absent.1

/-- A region that comes into a graph without nodes comes in order. -/
theorem Coherent.includeRegion_ensures (coherent : graph.Coherent) (sound : document.Sound)
    (vacant : graph.nodes = []) {region : List Nat} (sorted : region.Pairwise (· < ·))
    (ordered : ∀ done placement rest, placementsOf document region = done ++ placement :: rest →
      ∀ outer, placement.path.container? = some outer →
        graph.HasNode outer ∨ ∃ before ∈ done, before.path = outer) :
    Ensures (graph.includeRegion document region) (InOrder document) := by
  unfold includeRegion
  refine (coherent.placeAll_succeeds _ ordered).ensures.bind fun state placed => ?_
  have declarations : ∀ node ∈ state.1.nodes,
      node.declarations.toList.Pairwise fun first second => document.isBefore first second := by
    refine placed.listed _ (by simp [vacant]) (fun placement _ s declared => ?_) (sound.pairwise_placements sorted)
    obtain ⟨node, member, _⟩ := declared
    simp [vacant] at member
  have silent (id : NodeId) : state.1.outbounds id = [] := by
    have edges : graph.edges = [] := by
      refine List.eq_nil_iff_forall_not_mem.mpr fun edge member => ?_
      obtain ⟨node, among, _⟩ := coherent.predecessors edge member
      simp [vacant] at among
    have none : state.1.edges = [] := by simpa [edges] using placed.edges
    simp [outbounds, none]
  refine (placed.annotate_ensures sound declarations silent).mono fun next h => ?_
  obtain ⟨_, nodes, lined, others⟩ := h
  constructor
  · intro node member
    have bare : node.bare ∈ state.1.nodes.map Node.bare := nodes ▸ List.mem_map_of_mem member
    obtain ⟨old, among, same⟩ := List.mem_map.mp bare
    have spans : old.declarations = node.declarations := congrArg (·.declarations) same
    exact spans ▸ declarations old among
  · intro node _
    by_cases member : node.id ∈ state.2.toList
    · exact lined node.id member
    · rw [others node.id member]
      exact lined_nil document

/-- Edges that are taken out leave the others in order, whatever their successors. -/
theorem Lined.of_sublist {others : List Edge} (lined : Lined document others)
    (kept : (edges.map Edge.bare).Sublist (others.map Edge.bare)) : Lined document edges := by
  have origin {edge : Edge} (member : edge ∈ edges) : ∃ old ∈ others, old.sources = edge.sources := by
    obtain ⟨old, among, same⟩ := List.mem_map.mp (kept.subset (List.mem_map_of_mem member))
    exact ⟨old, among, congrArg (·.sources) same⟩
  constructor
  · intro edge member
    obtain ⟨old, among, same⟩ := origin member
    exact same ▸ lined.sourced old among
  · intro edge member
    obtain ⟨old, among, same⟩ := origin member
    exact same ▸ lined.sources old among
  · have bare : (others.map Edge.bare).Pairwise (Edge.Leads document) := List.pairwise_map.mpr lined.leads
    have still : (edges.map Edge.bare).Pairwise (Edge.Leads document) := bare.sublist kept
    exact (List.pairwise_map (f := Edge.bare)).mp still

theorem InOrder.of_disposed (inOrder : graph.InOrder document) (disposed : Disposed graph next) :
    next.InOrder document := by
  have origin {node : Node} (member : node ∈ next.nodes) : ∃ old ∈ graph.nodes, old.bare = node.bare :=
    List.mem_map.mp (disposed.nodesKept.subset (List.mem_map_of_mem member))
  constructor
  · intro node member
    obtain ⟨old, among, same⟩ := origin member
    have spans : old.declarations = node.declarations := congrArg (·.declarations) same
    exact spans ▸ inOrder.declarations old among
  · intro node member
    obtain ⟨old, among, same⟩ := origin member
    have id : old.id = node.id := congrArg (·.id) same
    refine (inOrder.outbounds old among).of_sublist ?_
    have bare (g : Graph) : (g.outbounds node.id).map Edge.bare =
        (g.edges.map Edge.bare).filter (·.predecessor = node.id) := by
      rw [List.filter_map]
      rfl
    rw [id, bare, bare]
    exact disposed.edgesKept.filter _

end Regions

end Graph
end OutlineTypes
