import OutlineTypes.Proofs.Document.Content
import OutlineTypes.Proofs.Document.Region
import OutlineTypes.Proofs.Graph.Exclusion
import OutlineTypes.Proofs.Graph.Order
import OutlineTypes.Workspace.Change

/-! Changing a document. If the regions hold all that changes, the graph says afterwards what the document
says, and of other documents what it said before. -/
namespace OutlineTypes.Graph

/-- Nothing is empty, and no change is under way. -/
structure Settled (graph : Graph) : Prop extends Coherent graph where
  nodes : ∀ node ∈ graph.nodes, node.declarations.isEmpty = false
  edges : ∀ edge ∈ graph.edges, edge.sources.isEmpty = false
  emptiedNodes : graph.emptiedNodes = ∅
  emptiedEdges : graph.emptiedEdges = ∅
  pending : graph.pending = none

theorem settled_empty : empty.Settled where
  toCoherent := coherent_empty
  nodes := by simp [empty]
  edges := by simp [empty]
  emptiedNodes := rfl
  emptiedEdges := rfl
  pending := rfl

/-- The graph says of the paths of this document what the document says. -/
structure Mirrors (graph : Graph) (document : Document) : Prop where
  declares : ∀ p s, p.document = document.id → (graph.Declares p s ↔ document.Declares p s)
  asserts : ∀ p subject source, p.document = document.id →
    (graph.Asserts p subject source ↔ document.Annotates p subject source)

/-- The graphs say the same of the paths of all other documents. -/
structure Spares (graph : Graph) (id : DocumentId) (next : Graph) : Prop where
  declares : ∀ p s, p.document ≠ id → (next.Declares p s ↔ graph.Declares p s)
  asserts : ∀ p subject source, p.document ≠ id →
    (next.Asserts p subject source ↔ graph.Asserts p subject source)

variable {graph next : Graph} {old new : Document} {oldRegion newRegion : List Nat}

theorem Settled.accounted (settled : graph.Settled) : graph.Accounted where
  nodes node member vacant := by simp [settled.nodes node member] at vacant
  edges edge member vacant := by simp [settled.edges edge member] at vacant

theorem Settled.exists_declares (settled : graph.Settled) {path : TypePath} (h : graph.HasNode path) :
    ∃ span, graph.Declares path span := by
  obtain ⟨node, member, rfl⟩ := h
  obtain ⟨span, declared⟩ := OrderedSet.exists_mem_of_isEmpty_eq_false (settled.nodes node member)
  exact ⟨span, node, member, rfl, declared⟩

theorem Coherent.hasNode_of_container? (coherent : graph.Coherent) {path outer : TypePath}
    (h : graph.HasNode path) (inside : path.container? = some outer) : graph.HasNode outer := by
  obtain ⟨node, member, rfl⟩ := h
  obtain ⟨around, among, path, _⟩ := coherent.containers node member outer inside
  exact ⟨around, among, path⟩

theorem Asserts.hasNode {path : TypePath} {subject : Name} {source : SpanId}
    (h : graph.Asserts path subject source) : graph.HasNode path := by
  obtain ⟨node, member, same, _⟩ := h
  exact ⟨node, member, same⟩

section Exclusion

/-- Of the old document, the graph goes on to say what stands outside the region. -/
structure Remains (graph : Graph) (old : Document) (oldRegion : List Nat) (next : Graph) : Prop where
  declares : ∀ p s, p.document = old.id → (next.Declares p s ↔
    ∃ index, index ∉ oldRegion ∧ ∃ placement ∈ old.placements index,
      placement.path = p ∧ placement.span.id = s)
  asserts : ∀ p subject source, p.document = old.id → (next.Asserts p subject source ↔
    ∃ index, index ∉ oldRegion ∧ ∃ placement ∈ old.placements index,
      placement.path = p ∧ placement.Carries subject source)
  spares : Spares graph old.id next

theorem Mirrors.remains (mirrors : graph.Mirrors old) (sound : old.Sound)
    (reduced : Reduced graph
      (fun p s => ∃ placement ∈ oldRegion.flatMap old.placements,
        p = placement.path ∧ s = placement.span.id)
      (fun p subject source => ∃ placement ∈ oldRegion.flatMap old.placements,
        p = placement.path ∧ placement.Carries subject source) next) :
    Remains graph old oldRegion next where
  declares p s ours := by
    rw [reduced.declares, mirrors.declares p s ours, Document.declares_iff]
    constructor
    · rintro ⟨⟨index, placement, member, rfl, rfl⟩, kept⟩
      refine ⟨index, fun inside => kept ⟨placement, ?_, rfl, rfl⟩, placement, member, rfl, rfl⟩
      exact List.mem_flatMap.mpr ⟨index, inside, member⟩
    · rintro ⟨index, outside, placement, member, rfl, rfl⟩
      refine ⟨⟨index, placement, member, rfl, rfl⟩, ?_⟩
      rintro ⟨again, among, _, same⟩
      obtain ⟨other, inside, present⟩ := List.mem_flatMap.mp among
      exact outside (sound.index_of_span member present same ▸ inside)
  asserts p subject source ours := by
    rw [reduced.asserts, mirrors.asserts p subject source ours, Document.annotates_iff]
    constructor
    · rintro ⟨⟨index, placement, member, rfl, carries⟩, kept⟩
      refine ⟨index, fun inside => kept ⟨placement, ?_, rfl, carries⟩, placement, member, rfl, carries⟩
      exact List.mem_flatMap.mpr ⟨index, inside, member⟩
    · rintro ⟨index, outside, placement, member, rfl, carries⟩
      refine ⟨⟨index, placement, member, rfl, carries⟩, ?_⟩
      rintro ⟨again, among, _, carriesAgain⟩
      obtain ⟨other, inside, present⟩ := List.mem_flatMap.mp among
      exact outside (sound.index_of_source member present carries carriesAgain ▸ inside)
  spares := by
    have apart {p : TypePath} (theirs : p.document ≠ old.id) {placement : Document.Placement}
        (among : placement ∈ oldRegion.flatMap old.placements) : p ≠ placement.path := by
      rintro rfl
      obtain ⟨index, _, member⟩ := List.mem_flatMap.mp among
      exact theirs (Document.document_of_mem_placements member)
    refine ⟨fun p s theirs => ?_, fun p subject source theirs => ?_⟩
    · rw [reduced.declares, and_iff_left]
      rintro ⟨placement, among, same, _⟩
      exact apart theirs among same
    · rw [reduced.asserts, and_iff_left]
      rintro ⟨placement, among, same, _⟩
      exact apart theirs among same

end Exclusion

section Inclusion

theorem mem_placementsOf {placement : Document.Placement} :
    placement ∈ placementsOf new newRegion ↔ ∃ index ∈ newRegion, placement ∈ new.placements index := by
  simp only [placementsOf, List.mem_flatMap, Document.mem_byDepth]
  constructor
  · rintro ⟨index, ⟨inside, _⟩, member⟩
    exact ⟨index, inside, member⟩
  · rintro ⟨index, inside, member⟩
    obtain ⟨found, noop, _⟩ := Document.mem_placements_iff_factor.mp member
    exact ⟨index, ⟨inside, _, found, noop⟩, member⟩

/-- What lies around a placement of the region is placed before it, or was there before. -/
theorem Remains.ordered (remains : Remains graph old oldRegion next)
    (replaces : Document.Replaces old new oldRegion newRegion) :
    ∀ done placement rest, placementsOf new newRegion = done ++ placement :: rest →
      ∀ outer, placement.path.container? = some outer →
        next.HasNode outer ∨ ∃ before ∈ done, before.path = outer := by
  intro done placement rest split outer inside
  obtain ⟨front, index, back, order, member, before⟩ := exists_origin_of_flatMap_split split
  obtain ⟨parent, above, around, among, rfl⟩ :=
    Document.exists_placement_of_container? member inside
  by_cases regional : parent ∈ newRegion
  · refine .inr ⟨around, before around (List.mem_flatMap.mpr ⟨parent, ?_, among⟩), rfl⟩
    obtain ⟨found, noop, _⟩ := Document.mem_placements_iff_factor.mp among
    refine Document.mem_front_of_shallower order (Document.mem_byDepth.mpr ⟨regional, _, found, noop⟩) ?_
    simp only [Document.depth, Document.ancestors]
    rw [Outline.ancestors_eq_cons above, List.length_cons]
    exact Nat.lt_succ_self _
  · obtain ⟨there, outside, member⟩ := (replaces.outside around).mpr ⟨parent, regional, among⟩
    have ours : around.path.document = old.id := Document.document_of_mem_placements member
    exact .inl ((remains.declares _ _ ours).mpr ⟨there, outside, around, member, rfl, rfl⟩).hasNode

theorem exists_split_by_region (newRegion : List Nat) {p : Document.Placement → Prop} :
    (∃ index, ∃ placement ∈ new.placements index, p placement) ↔
      (∃ index, index ∉ newRegion ∧ ∃ placement ∈ new.placements index, p placement) ∨
        ∃ placement ∈ placementsOf new newRegion, p placement := by
  constructor
  · rintro ⟨index, placement, member, holds⟩
    by_cases regional : index ∈ newRegion
    · exact .inr ⟨placement, mem_placementsOf.mpr ⟨index, regional, member⟩, holds⟩
    · exact .inl ⟨index, regional, placement, member, holds⟩
  · rintro (⟨index, _, placement, member, holds⟩ | ⟨placement, among, holds⟩)
    · exact ⟨index, placement, member, holds⟩
    · obtain ⟨index, _, member⟩ := mem_placementsOf.mp among
      exact ⟨index, placement, member, holds⟩

theorem exists_outside_iff (replaces : Document.Replaces old new oldRegion newRegion)
    {p : Document.Placement → Prop} :
    (∃ index, index ∉ oldRegion ∧ ∃ placement ∈ old.placements index, p placement) ↔
      ∃ index, index ∉ newRegion ∧ ∃ placement ∈ new.placements index, p placement := by
  constructor
  · rintro ⟨index, outside, placement, member, holds⟩
    obtain ⟨there, apart, among⟩ := (replaces.outside placement).mp ⟨index, outside, member⟩
    exact ⟨there, apart, placement, among, holds⟩
  · rintro ⟨index, outside, placement, member, holds⟩
    obtain ⟨there, apart, among⟩ := (replaces.outside placement).mpr ⟨index, outside, member⟩
    exact ⟨there, apart, placement, among, holds⟩

/-- The annotations found for a path that the graph mirrors are the document's. -/
theorem annotatedBy_iff (sound : new.Sound) {p : TypePath}
    (declares : ∀ s, next.Declares p s ↔ new.Declares p s) (subject : Name) (source : SpanId) :
    next.AnnotatedBy new p subject source ↔ new.Annotates p subject source := by
  rw [Document.annotates_iff]
  constructor
  · rintro ⟨span, declared, line, found, carries⟩
    obtain ⟨index, placement, member, path, rfl⟩ := Document.declares_iff.mp ((declares span).mp declared)
    have present := (Document.mem_placements_iff_factor.mp member).2.2.1
    have owner := sound.statement_of_declared (Document.mem_statements_of_placement member) present
    obtain ⟨among, same⟩ := sound.get?_of_statement?.mp found
    have line_eq : line = placement.statement := eq_of_key_eq sound.ids among
      (Document.mem_statements_of_placement member) (same.trans owner)
    subst line_eq
    exact ⟨index, placement, member, path, carries⟩
  · rintro ⟨index, placement, member, path, carries⟩
    have present := (Document.mem_placements_iff_factor.mp member).2.2.1
    have among := Document.mem_statements_of_placement member
    refine ⟨placement.span.id, (declares _).mpr (Document.declares_iff.mpr ⟨index, placement, member, path, rfl⟩),
      placement.statement, sound.get?_of_statement?.mpr ⟨among, ?_⟩, carries⟩
    exact (sound.statement_of_declared among present).symm

theorem Remains.mirrors {last : Graph} (remains : Remains graph old oldRegion next)
    (replaces : Document.Replaces old new oldRegion newRegion) (sound : new.Sound)
    (included : Included next new (placementsOf new newRegion) last) : last.Mirrors new := by
  have declares (p : TypePath) (s : SpanId) (ours : p.document = new.id) :
      last.Declares p s ↔ new.Declares p s := by
    rw [included.declares, remains.declares p s (ours.trans replaces.id), exists_outside_iff replaces,
      Document.declares_iff, exists_split_by_region newRegion]
  refine ⟨declares, fun p subject source ours => ?_⟩
  rw [included.asserts, remains.asserts p subject source (ours.trans replaces.id),
    exists_outside_iff replaces, annotatedBy_iff sound fun s => declares p s ours]
  constructor
  · rintro (⟨index, _, placement, member, holds⟩ | ⟨_, annotates⟩)
    · exact Document.annotates_iff.mpr ⟨index, placement, member, holds⟩
    · exact annotates
  · intro annotates
    rcases (exists_split_by_region newRegion).mp (Document.annotates_iff.mp annotates) with
      outside | ⟨placement, among, path, _⟩
    · exact .inl outside
    · exact .inr ⟨⟨placement, among, path⟩, annotates⟩

theorem Included.spares {last : Graph}
    (included : Included next new (placementsOf new newRegion) last) : Spares next new.id last := by
  have apart {p : TypePath} (theirs : p.document ≠ new.id) {placement : Document.Placement}
      (among : placement ∈ placementsOf new newRegion) : placement.path ≠ p := by
    rintro rfl
    obtain ⟨index, _, member⟩ := mem_placementsOf.mp among
    exact theirs (Document.document_of_mem_placements member)
  refine ⟨fun p s theirs => ?_, fun p subject source theirs => ?_⟩
  · rw [included.declares, or_iff_left]
    rintro ⟨placement, among, same, _⟩
    exact apart theirs among same
  · rw [included.asserts, or_iff_left]
    rintro ⟨⟨placement, among, same⟩, _⟩
    exact apart theirs among same

end Inclusion

theorem Spares.trans {id : DocumentId} {last : Graph} (first : Spares graph id next)
    (second : Spares next id last) : Spares graph id last where
  declares p s theirs := (second.declares p s theirs).trans (first.declares p s theirs)
  asserts p subject source theirs :=
    (second.asserts p subject source theirs).trans (first.asserts p subject source theirs)

section Grounds

variable {last : Graph}

/-- What contains a declared path is declared. -/
theorem Settled.nested (settled : graph.Settled) (mirrors : last.Mirrors new)
    (spares : Spares graph new.id last) (outer inner : TypePath)
    (inside : inner.container? = some outer) (declared : ∃ s, last.Declares inner s) :
    ∃ s, last.Declares outer s := by
  obtain ⟨s, declared⟩ := declared
  have same : outer.document = inner.document := (TypePath.of_container? inside).1
  by_cases ours : inner.document = new.id
  · obtain ⟨t, around⟩ := ((mirrors.declares _ _ ours).mp declared).exists_around inside
    exact ⟨t, (mirrors.declares _ _ (same.trans ours)).mpr around⟩
  · have before := (spares.declares _ _ ours).mp declared
    obtain ⟨t, around⟩ := settled.exists_declares (settled.hasNode_of_container? before.hasNode inside)
    exact ⟨t, (spares.declares _ _ (same ▸ ours)).mpr around⟩

/-- What is annotated is declared. -/
theorem Settled.grounded (settled : graph.Settled) (mirrors : last.Mirrors new)
    (spares : Spares graph new.id last) (p : TypePath) (subject : Name) (source : SpanId)
    (asserted : last.Asserts p subject source) : ∃ s, last.Declares p s := by
  by_cases ours : p.document = new.id
  · obtain ⟨s, declared⟩ := ((mirrors.asserts _ _ _ ours).mp asserted).exists_declares
    exact ⟨s, (mirrors.declares _ _ ours).mpr declared⟩
  · have before := (spares.asserts _ _ _ ours).mp asserted
    obtain ⟨s, declared⟩ := settled.exists_declares before.hasNode
    exact ⟨s, (spares.declares _ _ ours).mpr declared⟩

end Grounds

section Identity

/-- What is declared or annotated before and after has the same number, and a number that was given out
stands for nothing else. -/
structure Retains (graph next : Graph) : Prop extends Descends graph next where
  declared : ∀ node ∈ graph.nodes, next.HasNode node.path → ∃ now ∈ next.nodes, now.shape = node.shape
  asserted : ∀ node ∈ graph.nodes, ∀ edge ∈ graph.edges, edge.predecessor = node.id →
    (∃ source, next.Asserts node.path edge.subject source) → ∃ now ∈ next.edges, now.shape = edge.shape

variable {last : Graph}

theorem Retains.refl (graph : Graph) : Retains graph graph where
  toDescends := .refl graph
  declared node member _ := ⟨node, member, rfl⟩
  asserted _ _ edge listed _ _ := ⟨edge, listed, rfl⟩

theorem Disposed.node_before (disposed : Disposed last next) {now : Node} (member : now ∈ next.nodes) :
    ∃ node ∈ last.nodes, node.shape = now.shape := by
  have bare : now.bare ∈ last.nodes.map Node.bare := disposed.nodesKept.subset (List.mem_map_of_mem member)
  obtain ⟨node, among, same⟩ := List.mem_map.mp bare
  have shape : node.bare.shape = now.bare.shape := congrArg Node.shape same
  exact ⟨node, among, shape⟩

theorem Disposed.edge_before (disposed : Disposed last next) {now : Edge} (member : now ∈ next.edges) :
    ∃ edge ∈ last.edges, edge.shape = now.shape := by
  have bare : now.bare ∈ last.edges.map Edge.bare := disposed.edgesKept.subset (List.mem_map_of_mem member)
  obtain ⟨edge, among, same⟩ := List.mem_map.mp bare
  have shape : edge.bare.shape = now.bare.shape := congrArg Edge.shape same
  exact ⟨edge, among, shape⟩

/-- Growth keeps everything, and disposal takes no more than what is no longer declared or annotated. -/
theorem Grows.retains (grows : Grows graph last) (coherent : last.Coherent) (disposed : Disposed last next) :
    Retains graph next := by
  have onward : Descends last next :=
    ⟨Nat.le_of_eq disposed.nextNode.symm, Nat.le_of_eq disposed.nextEdge.symm,
      fun now member => .inl (disposed.node_before member), fun now member => .inl (disposed.edge_before member)⟩
  have declared : ∀ node ∈ graph.nodes, ∀ now ∈ next.nodes, now.path = node.path → now.shape = node.shape := by
    intro node member now present path
    obtain ⟨between, among, shape⟩ := grows.nodesKept node member
    obtain ⟨again, there, same⟩ := disposed.node_before present
    have paths : again.path = between.path :=
      ((congrArg (·.path) same).trans path).trans (congrArg (·.path) shape).symm
    rw [← same, ← shape, eq_of_key_eq coherent.paths there among paths]
  refine ⟨grows.toDescends.trans onward, ?_, ?_⟩
  · rintro node member ⟨now, present, path⟩
    exact ⟨now, present, declared node member now present path⟩
  · rintro node member edge listed predecessor ⟨source, now, present, path, other, found, leaves, subject, _⟩
    obtain ⟨between, among, shape⟩ := grows.edgesKept edge listed
    obtain ⟨again, there, same⟩ := disposed.edge_before found
    have nodeId : now.id = node.id := congrArg (·.id) (declared node member now present path)
    have assertions : (again.predecessor, again.subject) = (between.predecessor, between.subject) := by
      have before : again.predecessor = other.predecessor := congrArg (·.predecessor) same
      have after : between.predecessor = edge.predecessor := congrArg (·.predecessor) shape
      have named : again.subject = other.subject := congrArg (·.subject) same
      have kept : between.subject = edge.subject := congrArg (·.subject) shape
      rw [before, leaves, nodeId, ← predecessor, ← after, named, subject, ← kept]
    refine ⟨other, found, ?_⟩
    rw [← same, ← shape, eq_of_key_eq coherent.assertions there among assertions]

end Identity

/-- What it means to have changed a document. -/
structure Changed (graph : Graph) (new : Document) (next : Graph) : Prop where
  settled : next.Settled
  mirrors : next.Mirrors new
  spares : Spares graph new.id next
  retains : Retains graph next
  inOrder : graph.nodes = [] → next.InOrder new

theorem Changed.of_disposed {last : Graph} (disposed : Disposed last next) (pending : last.pending = none)
    (mirrors : last.Mirrors new) (spares : Spares graph new.id last) (retains : Retains graph next)
    (inOrder : graph.nodes = [] → last.InOrder new) : Changed graph new next where
  settled := ⟨disposed.coherent, disposed.nodes, disposed.edges, disposed.emptiedNodes,
    disposed.emptiedEdges, disposed.pending.trans pending⟩
  mirrors := ⟨fun p s ours => (disposed.declares p s).trans (mirrors.declares p s ours),
    fun p subject source ours => (disposed.asserts p subject source).trans
      (mirrors.asserts p subject source ours)⟩
  spares := ⟨fun p s theirs => (disposed.declares p s).trans (spares.declares p s theirs),
    fun p subject source theirs => (disposed.asserts p subject source).trans
      (spares.asserts p subject source theirs)⟩
  retains := retains
  inOrder vacant := (inOrder vacant).of_disposed disposed

/-- The end of a change, once the region as it was is out. -/
theorem Remains.revalidate_succeeds (remains : Remains graph old oldRegion next)
    (settled : graph.Settled) (coherent : next.Coherent) (accounted : next.Accounted)
    (same : Respanned graph next) (pending : next.pending = some new.id) (sound : new.Sound)
    {parents : List StatementId}
    (newRegion_eq : new.region parents = .ok newRegion)
    (replaces : Document.Replaces old new oldRegion newRegion) :
    Succeeds (next.revalidate new parents) (Changed graph new) := by
  unfold revalidate
  simp only [pending, ↓reduceIte, newRegion_eq, ok_bind]
  let start : Graph := { next with pending := none }
  have respanned : Respanned next start := ⟨rfl, rfl, rfl, rfl⟩
  have start_remains : Remains graph old oldRegion start := ⟨remains.declares, remains.asserts,
    ⟨remains.spares.declares, remains.spares.asserts⟩⟩
  have start_accounted : start.Accounted := ⟨accounted.nodes, accounted.edges⟩
  have start_coherent := respanned.coherent coherent
  have ordered := start_remains.ordered replaces
  have inOrder : Ensures (start.includeRegion new newRegion) fun last =>
      graph.nodes = [] → last.InOrder new := fun last eq blank =>
    start_coherent.includeRegion_ensures sound (same.nodes_eq_nil blank) (Document.pairwise_of_region newRegion_eq)
      ordered last eq
  refine ((start_coherent.includeRegion_succeeds new newRegion ordered).and_ensures inOrder).bind
    fun last ⟨included, inOrder⟩ => ?_
  have mirrors := start_remains.mirrors replaces sound included
  have spares : Spares graph new.id last := by
    have first := start_remains.spares
    rw [← replaces.id] at first
    exact first.trans included.spares
  refine (included.coherent.dispose_succeeds (included.accounted start_accounted)
    (settled.nested mirrors spares) (settled.grounded mirrors spares)).mono fun final disposed => ?_
  have grows := (same.sameShape.grows.trans respanned.sameShape.grows).trans included.grows
  exact .of_disposed disposed included.pending mirrors spares (grows.retains included.coherent disposed) inOrder

theorem Settled.change_succeeds (settled : graph.Settled) (mirrors : graph.Mirrors old)
    (oldSound : old.Sound) (newSound : new.Sound) {parents : List StatementId}
    (oldRegion_eq : old.region parents = .ok oldRegion)
    (newRegion_eq : new.region parents = .ok newRegion)
    (replaces : Document.Replaces old new oldRegion newRegion) :
    Succeeds (graph.change old new parents) (Changed graph new) := by
  let start : Graph := { graph with pending := some old.id }
  have respanned : Respanned graph start := ⟨rfl, rfl, rfl, rfl⟩
  have coherent := respanned.coherent settled.toCoherent
  have start_accounted : start.Accounted := ⟨settled.accounted.nodes, settled.accounted.edges⟩
  have start_mirrors : start.Mirrors old := ⟨mirrors.declares, mirrors.asserts⟩
  have reduced := coherent.reduced_excludeRegion old oldRegion
  have remains := start_mirrors.remains oldSound reduced
  have invalidated : graph.invalidate old parents = .ok (start.excludeRegion old oldRegion) := by
    simp only [invalidate, settled.pending, oldRegion_eq, ok_bind]
    rfl
  simp only [change, invalidated, ok_bind]
  have excluded : Remains graph old oldRegion (start.excludeRegion old oldRegion) :=
    ⟨remains.declares, remains.asserts, ⟨remains.spares.declares, remains.spares.asserts⟩⟩
  refine excluded.revalidate_succeeds settled (reduced.respanned.coherent coherent)
    (reduced.accounted start_accounted) (respanned.trans reduced.respanned) ?_ newSound newRegion_eq replaces
  rw [reduced.pending, replaces.id]

end OutlineTypes.Graph
