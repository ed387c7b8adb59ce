import OutlineTypes.Proofs.Graph.Isolation
import Mathlib.Logic.Function.Basic

/-! Listings. What a graph lists for a path, and in which order, comes from what was declared, annotated and
withdrawn there and from nothing else: neither numbers nor what stands at other paths matter to it. -/
namespace OutlineTypes

/-- The names that a path is annotated with, each with its sources. -/
abbrev Glosses := List (Name × OrderedSet SpanId)

namespace Glosses

/-- Adds a source to the name, which comes last if it is new. -/
def add (glosses : Glosses) (subject : Name) (source : SpanId) : Glosses :=
  if glosses.any (·.1 = subject) then
    glosses.map fun gloss => if gloss.1 = subject then (gloss.1, gloss.2.insert source) else gloss
  else glosses ++ [(subject, .ofList [source])]

def drop (glosses : Glosses) (subject : Name) (source : SpanId) : Glosses :=
  glosses.map fun gloss => if gloss.1 = subject then (gloss.1, gloss.2.erase source) else gloss

end Glosses

/-- What is listed for each path, in order. -/
@[ext] structure Listing where
  declarations : TypePath → OrderedSet SpanId
  annotations : TypePath → Glosses

namespace Listing

def declare (listing : Listing) (path : TypePath) (span : SpanId) : Listing :=
  { listing with
    declarations := Function.update listing.declarations path ((listing.declarations path).insert span) }

def annotate (listing : Listing) (path : TypePath) (gloss : Span) : Listing :=
  { listing with
    annotations := Function.update listing.annotations path
      ((listing.annotations path).add gloss.subject gloss.id) }

def detach (listing : Listing) (path : TypePath) (gloss : Span) : Listing :=
  { listing with
    annotations := Function.update listing.annotations path
      ((listing.annotations path).drop gloss.subject gloss.id) }

def withdraw (listing : Listing) (placement : Document.Placement) : Listing :=
  placement.statement.annotations.foldl (detach · placement.path)
    { listing with
      declarations := Function.update listing.declarations placement.path
        ((listing.declarations placement.path).erase placement.span.id) }

/-- Annotates a path with all that its declaring lines say. -/
def annotateAll (document : Document) (listing : Listing) (path : TypePath) : Listing :=
  (document.annotationsOf (listing.declarations path).toList).foldl (annotate · path) listing

def includeRegion (listing : Listing) (document : Document) (region : List Nat) : Listing :=
  let placements := Graph.placementsOf document region
  let declared := placements.foldl (fun listing placement => listing.declare placement.path placement.span.id) listing
  (OrderedSet.ofList (placements.map (·.path))).toList.foldl (annotateAll document) declared

def excludeRegion (listing : Listing) (document : Document) (region : List Nat) : Listing :=
  (region.flatMap document.placements).foldl withdraw listing

/-- What has no spans is listed no longer, and neither are the annotations of a path that is not declared. -/
def dispose (listing : Listing) : Listing where
  declarations := listing.declarations
  annotations path :=
    if (listing.declarations path).isEmpty then [] else (listing.annotations path).filter (!·.2.isEmpty)

end Listing

namespace Graph

def listing (graph : Graph) : Listing where
  declarations path := (graph.nodeAt? path).elim ∅ Node.declarations
  annotations path := (graph.nodeAt? path).elim [] fun node =>
    (graph.outbounds node.id).map fun edge => (edge.subject, edge.sources)

variable {graph other mid next : Graph} {node : Node}

section Views

theorem Framed.listing_declarations (framed : graph.Framed) (member : node ∈ graph.nodes) :
    graph.listing.declarations node.path = node.declarations := by
  simp only [listing, framed.nodeAt?_eq_some_iff.mpr ⟨member, rfl⟩, Option.elim_some]

theorem Framed.listing_annotations (framed : graph.Framed) (member : node ∈ graph.nodes) :
    graph.listing.annotations node.path =
      (graph.outbounds node.id).map fun edge => (edge.subject, edge.sources) := by
  simp only [listing, framed.nodeAt?_eq_some_iff.mpr ⟨member, rfl⟩, Option.elim_some]

theorem listing_vacant {path : TypePath} (vacant : graph.nodeAt? path = none) :
    graph.listing.declarations path = ∅ ∧ graph.listing.annotations path = [] := by
  simp [listing, vacant]

/-- Successors and inbound edges are not listed. -/
theorem Alike.listing (alike : Alike graph other) : other.listing = graph.listing := by
  have nodeAt (g : Graph) (path : TypePath) :
      (g.nodeAt? path).map Node.bare = (g.nodes.map Node.bare).find? (·.path = path) := by
    rw [List.find?_map]
    rfl
  have outbounds (g : Graph) (id : NodeId) : (g.outbounds id).map (fun edge => (edge.subject, edge.sources)) =
      ((g.edges.map Edge.bare).filter (·.predecessor = id)).map fun edge => (edge.subject, edge.sources) := by
    rw [List.filter_map, List.map_map]
    rfl
  have same (path : TypePath) : (other.nodeAt? path).map Node.bare = (graph.nodeAt? path).map Node.bare := by
    rw [nodeAt, nodeAt, alike.nodes]
  have edges (id : NodeId) : (other.outbounds id).map (fun edge => (edge.subject, edge.sources)) =
      (graph.outbounds id).map fun edge => (edge.subject, edge.sources) := by
    rw [outbounds, outbounds, alike.edges]
  have declarations (g : Graph) (path : TypePath) :
      g.listing.declarations path = ((g.nodeAt? path).map Node.bare).elim ∅ Node.declarations := by
    simp only [Graph.listing]
    cases g.nodeAt? path <;> rfl
  have annotations (g : Graph) (path : TypePath) :
      g.listing.annotations path = ((g.nodeAt? path).map Node.bare).elim [] fun node =>
        (g.outbounds node.id).map fun edge => (edge.subject, edge.sources) := by
    simp only [Graph.listing]
    cases g.nodeAt? path <;> rfl
  apply Listing.ext
  · funext path
    rw [declarations, declarations, same]
  · funext path
    simp only [annotations, same, edges]

theorem nodeAt?_eq_find?_nodesIn (graph : Graph) (path : TypePath) :
    graph.nodeAt? path = (graph.nodesIn path.document).find? (·.path = path) := by
  rw [nodesIn, List.find?_filter, nodeAt?]
  congr 1
  funext node
  by_cases here : node.path = path <;> simp [here]

theorem outbounds_eq_filter_edgesIn {document : DocumentId} (member : node ∈ graph.nodesIn document) :
    graph.outbounds node.id = (graph.edgesIn document).filter (·.predecessor = node.id) := by
  rw [edgesIn, List.filter_filter, outbounds]
  refine List.filter_congr fun edge _ => ?_
  by_cases leaves : edge.predecessor = node.id
  · simpa [leaves] using ⟨node, member, rfl⟩
  · simp [leaves]

/-- The paths of a document are listed in the same way if its part is the same. -/
theorem Intact.listing {document : DocumentId} (intact : Intact document graph next) {path : TypePath}
    (ours : path.document = document) : next.listing.declarations path = graph.listing.declarations path ∧
      next.listing.annotations path = graph.listing.annotations path := by
  subst ours
  have nodes : next.nodeAt? path = graph.nodeAt? path := by
    rw [nodeAt?_eq_find?_nodesIn, intact.nodes, ← nodeAt?_eq_find?_nodesIn]
  simp only [Graph.listing, nodes, true_and]
  cases found : graph.nodeAt? path with
  | none => rfl
  | some node =>
    have member : node ∈ graph.nodesIn path.document := by
      rw [nodeAt?_eq_find?_nodesIn] at found
      exact List.mem_of_find?_eq_some found
    simp only [Option.elim_some, outbounds_eq_filter_edgesIn member,
      outbounds_eq_filter_edgesIn (intact.nodes ▸ member), intact.edges]

end Views

section Changes

theorem Framed.listing_modifyNode (framed : graph.Framed) (member : node ∈ graph.nodes)
    (change : Node → OrderedSet SpanId) :
    (graph.modifyNode node.id fun node => { node with declarations := change node }).listing =
      { graph.listing with declarations := Function.update graph.listing.declarations node.path (change node) } := by
  have nodeAt (path : TypePath) :
      (graph.modifyNode node.id fun node => { node with declarations := change node }).nodeAt? path =
        (graph.nodeAt? path).map fun other =>
          if other.id = node.id then { other with declarations := change other } else other := by
    simp only [nodeAt?, modifyNode, List.find?_map, Function.comp_def]
    congr 2
    funext other
    split <;> rfl
  apply Listing.ext
  · funext path
    simp only [listing, nodeAt, Function.update_apply]
    cases found : graph.nodeAt? path with
    | none =>
      have elsewhere : path ≠ node.path := fun same => nodeAt?_eq_none_iff.mp found node member same.symm
      simp [elsewhere]
    | some other =>
      obtain ⟨among, rfl⟩ := framed.nodeAt?_eq_some_iff.mp found
      by_cases here : other.id = node.id
      · cases eq_of_key_eq framed.nodeIds among member here
        simp
      · have elsewhere : other.path ≠ node.path :=
          fun same => here (congrArg Node.id (eq_of_key_eq framed.paths among member same))
        simp [here, elsewhere]
  · funext path
    simp only [listing, nodeAt]
    cases graph.nodeAt? path with
    | none => rfl
    | some other =>
      simp only [Option.map_some, Option.elim_some]
      split <;> rfl

theorem Framed.listing_modifyEdge (framed : graph.Framed) {edge : Edge} (listed : edge ∈ graph.edges)
    (member : node ∈ graph.nodes) (leaves : edge.predecessor = node.id) {change : Edge → OrderedSet SpanId}
    (sources : OrderedSet SpanId → OrderedSet SpanId) (changes : change edge = sources edge.sources) :
    (graph.modifyEdge edge.id fun edge => { edge with sources := change edge }).listing =
      { graph.listing with
        annotations := Function.update graph.listing.annotations node.path
          ((graph.listing.annotations node.path).map fun gloss =>
            if gloss.1 = edge.subject then (gloss.1, sources gloss.2) else gloss) } := by
  have outbounds := graph.outbounds_modifyEdge edge.id (fun edge => { edge with sources := change edge }) fun _ => rfl
  refine Listing.ext (by rfl) ?_
  funext path
  simp only [Function.update_apply, framed.listing_annotations member]
  by_cases here : path = node.path
  · subst here
    have found : (graph.modifyEdge edge.id fun edge => { edge with sources := change edge }).nodeAt? node.path =
        some node := framed.nodeAt?_eq_some_iff.mpr ⟨member, rfl⟩
    simp only [listing, found, Option.elim_some, ↓reduceIte, outbounds, List.map_map]
    refine List.map_congr_left fun other among => ?_
    obtain ⟨present, departs⟩ := mem_outbounds.mp among
    by_cases same : other.id = edge.id
    · cases eq_of_key_eq framed.edgeIds present listed same
      simp [changes]
    · have subject : other.subject ≠ edge.subject := fun named => same
        (congrArg Edge.id (eq_of_key_eq framed.assertions present listed
          (Prod.ext (departs.trans leaves.symm) named)))
      simp [same, subject]
  · rw [if_neg here]
    have nodeAt : (graph.modifyEdge edge.id fun edge => { edge with sources := change edge }).nodeAt? path =
        graph.nodeAt? path := rfl
    simp only [listing, nodeAt]
    cases found : graph.nodeAt? path with
    | none => rfl
    | some other =>
      obtain ⟨among, rfl⟩ := framed.nodeAt?_eq_some_iff.mp found
      simp only [Option.elim_some, outbounds, List.map_map]
      refine List.map_congr_left fun leaving present => ?_
      obtain ⟨listedToo, departs⟩ := mem_outbounds.mp present
      have apart : leaving.id ≠ edge.id := by
        intro same
        cases eq_of_key_eq framed.edgeIds listedToo listed same
        exact here (congrArg Node.path (eq_of_key_eq framed.nodeIds among member (departs.symm.trans leaves)))
      simp [apart]

/-- A node without spans and annotations is listed like one that is not there. -/
theorem Coherent.listing_addNode (coherent : graph.Coherent) (path : TypePath) (container : Option NodeId) :
    (graph.addNode container path).listing = graph.listing := by
  have silent : graph.outbounds (.mk graph.nextNode) = [] := by
    refine List.filter_eq_nil_iff.mpr fun edge listed leaves => ?_
    obtain ⟨node, member, predecessor⟩ := coherent.predecessors edge listed
    have below := coherent.nodesBelow node member
    rw [predecessor.trans (of_decide_eq_true leaves)] at below
    exact Nat.lt_irrefl _ below
  have outbounds (id : NodeId) : (graph.addNode container path).outbounds id = graph.outbounds id := rfl
  have nodeAt (other : TypePath) : (graph.addNode container path).nodeAt? other =
      (graph.nodeAt? other).or (if path = other then some ⟨.mk graph.nextNode, container, path, ∅, ∅⟩ else none) := by
    simp [nodeAt?, addNode, List.find?_append, List.find?_singleton]
  apply Listing.ext <;>
  · funext other
    simp only [listing, nodeAt, outbounds]
    cases found : graph.nodeAt? other with
    | some node => rfl
    | none =>
      by_cases here : path = other
      · simp [here, silent]
      · simp [here]

theorem Framed.listing_addEdge (framed : graph.Framed) (member : node ∈ graph.nodes) (source : SpanId)
    (subject : Name) :
    (graph.addEdge node.id source subject).listing =
      { graph.listing with
        annotations := Function.update graph.listing.annotations node.path
          (graph.listing.annotations node.path ++ [(subject, .ofList [source])]) } := by
  have outbounds (id : NodeId) : (graph.addEdge node.id source subject).outbounds id =
      graph.outbounds id ++
        if node.id = id then [⟨.mk graph.nextEdge, node.id, subject, .ofList [source], []⟩] else [] := by
    simp only [Graph.outbounds, addEdge, List.filter_append, List.filter_singleton]
    congr 1
    by_cases here : node.id = id <;> simp [here]
  have nodeAt (path : TypePath) : (graph.addEdge node.id source subject).nodeAt? path = graph.nodeAt? path := rfl
  refine Listing.ext (by rfl) ?_
  funext path
  simp only [Function.update_apply, framed.listing_annotations member]
  by_cases here : path = node.path
  · subst here
    simp only [listing, nodeAt, framed.nodeAt?_eq_some_iff.mpr ⟨member, rfl⟩, Option.elim_some, outbounds, ↓reduceIte,
      List.map_append, List.map_cons, List.map_nil]
  · rw [if_neg here]
    simp only [listing, nodeAt]
    cases found : graph.nodeAt? path with
    | none => rfl
    | some other =>
      obtain ⟨among, rfl⟩ := framed.nodeAt?_eq_some_iff.mp found
      have apart : node.id ≠ other.id := fun same =>
        here (congrArg Node.path (eq_of_key_eq framed.nodeIds among member same.symm))
      simp only [Option.elim_some, outbounds, if_neg apart, List.append_nil]

end Changes

section Inclusion

theorem Coherent.createNode_ensures (coherent : graph.Coherent) {path : TypePath} (vacant : graph.nodeAt? path = none) :
    Ensures (graph.createNode path) fun result => result.1 = .mk graph.nextNode ∧ result.2.Coherent ∧
      ∃ container, Alike (graph.addNode container path) result.2 := by
  intro result eq
  refine (coherent.createNode_succeeds vacant fun outer inside => ?_).post_of_eq eq
  cases located : graph.containerOf path with
  | error reason =>
    simp only [createNode, located] at eq
    contradiction
  | ok container =>
    obtain ⟨around, member, path, _⟩ := (coherent.containerOf_ensures path container located).2 outer inside
    exact ⟨around, member, path⟩

theorem Coherent.declare_listing (coherent : graph.Coherent) (path : TypePath) (span : SpanId) :
    Ensures (graph.declare path span) fun result => result.2.listing = graph.listing.declare path span := by
  unfold declare
  cases found : graph.nodeAt? path with
  | some node =>
    obtain ⟨member, rfl⟩ := coherent.nodeAt?_eq_some_iff.mp found
    simp only [pure_bind, updateNode, coherent.nodeOf_id member, ok_bind]
    refine .pure ?_
    rw [coherent.listing_modifyNode member, Listing.declare, coherent.listing_declarations member]
  | none =>
    refine (coherent.createNode_ensures found).bind fun result outcome => ?_
    obtain ⟨id, created, container, alike⟩ := outcome
    obtain ⟨node, member, nodeId, nodePath⟩ := alike.exists_added
    simp only [id, ← nodeId, updateNode, created.nodeOf_id member, ok_bind]
    refine .pure ?_
    have same : result.2.listing = graph.listing := alike.listing.trans (coherent.listing_addNode path container)
    rw [created.listing_modifyNode member, Listing.declare, ← same, ← nodePath, created.listing_declarations member]

theorem Coherent.annotate_listing (coherent : graph.Coherent) (member : node ∈ graph.nodes) (gloss : Span) :
    Ensures (graph.annotate node.id gloss.id gloss.subject) fun next =>
      next.listing = graph.listing.annotate node.path gloss := by
  unfold annotate
  cases found : graph.outbound? node.id gloss.subject with
  | some edge =>
    obtain ⟨listed, leaves, subject⟩ := coherent.outbound?_eq_some_iff.mp found
    have known : (graph.listing.annotations node.path).any (·.1 = gloss.subject) = true := by
      rw [coherent.listing_annotations member, List.any_map, List.any_eq_true]
      exact ⟨edge, mem_outbounds.mpr ⟨listed, leaves⟩, by simp [subject]⟩
    refine .ok ?_
    rw [coherent.listing_modifyEdge listed member leaves (·.insert gloss.id) rfl, Listing.annotate, Glosses.add,
      if_pos known, subject]
  | none =>
    have new : (graph.listing.annotations node.path).any (·.1 = gloss.subject) = false := by
      rw [coherent.listing_annotations member, List.any_map, List.any_eq_false]
      intro edge among
      obtain ⟨listed, leaves⟩ := mem_outbounds.mp among
      simpa using fun subject => outbound?_eq_none_iff.mp found edge listed ⟨leaves, subject⟩
    refine (coherent.createEdge_succeeds member gloss.id found).ensures.mono fun next created => ?_
    rw [created.2.listing, coherent.listing_addEdge member, Listing.annotate, Glosses.add, new]
    rfl

theorem Coherent.annotateAll_listing (coherent : graph.Coherent) (member : node ∈ graph.nodes) (document : Document) :
    Ensures (annotateAll document graph node.id) fun next => next.Coherent ∧
      next.nodes.map Node.bare = graph.nodes.map Node.bare ∧
        next.listing = graph.listing.annotateAll document node.path := by
  unfold annotateAll
  simp only [coherent.nodeOf_id member, ok_bind, Listing.annotateAll, coherent.listing_declarations member]
  refine Ensures.foldlM (fun done (mid : Graph) => mid.Coherent ∧ mid.nodes.map Node.bare = graph.nodes.map Node.bare ∧
    mid.listing = done.foldl (Listing.annotate · node.path) graph.listing) ⟨coherent, rfl, rfl⟩ ?_
  intro done gloss rest mid _ ⟨midCoherent, nodes, listing⟩
  have bare : node.bare ∈ mid.nodes.map Node.bare := nodes ▸ List.mem_map_of_mem member
  obtain ⟨now, present, same⟩ := List.mem_map.mp bare
  have id : now.id = node.id := congrArg (·.id) same
  have path : now.path = node.path := congrArg (·.path) same
  rw [← id]
  refine ((midCoherent.annotate_succeeds present gloss.id gloss.subject).ensures.and
    (midCoherent.annotate_listing present gloss)).mono fun next h => ?_
  obtain ⟨annotated, now_⟩ := h
  refine ⟨annotated.coherent, annotated.nodes.trans nodes, ?_⟩
  rw [now_, listing, path, List.foldl_append]
  rfl

/-- The node of this identity stands at the path. -/
def Stands (graph : Graph) (id : NodeId) (path : TypePath) : Prop :=
  ∃ node ∈ graph.nodes, node.id = id ∧ node.path = path

theorem Framed.biUnique_stands (framed : graph.Framed) : Relator.BiUnique graph.Stands := by
  constructor
  · rintro _ _ _ ⟨node, member, rfl, rfl⟩ ⟨other, among, rfl, same⟩
    rw [eq_of_key_eq framed.paths among member same]
  · rintro _ _ _ ⟨node, member, rfl, rfl⟩ ⟨other, among, same, rfl⟩
    rw [eq_of_key_eq framed.nodeIds among member same]

/-- The placements that are declared, as the graph lists them, and the nodes at their paths. -/
structure Listed (graph : Graph) (placements : List Document.Placement) (state : Graph × OrderedSet NodeId) : Prop where
  coherent : state.1.Coherent
  touched : OrderedSet.Rel state.1.Stands state.2 (.ofList (placements.map (·.path)))
  listing : state.1.listing =
    placements.foldl (fun listing placement => listing.declare placement.path placement.span.id) graph.listing

theorem Coherent.declare_ensures (coherent : graph.Coherent) (path : TypePath) (span : SpanId) :
    Ensures (graph.declare path span) (Declared graph path span) := fun _ eq =>
  (coherent.declare_succeeds span fun _ inside => coherent.hasNode_of_declare eq inside).post_of_eq eq

theorem Coherent.placeAll_listing (coherent : graph.Coherent) (placements : List Document.Placement) :
    Ensures (placements.foldlM place (graph, ∅)) (Listed graph placements) := by
  refine Ensures.foldlM (Listed graph) ⟨coherent, .nil, rfl⟩ fun done placement rest state _ listed => ?_
  unfold place
  refine ((listed.coherent.declare_ensures placement.path placement.span.id).and
    (listed.coherent.declare_listing placement.path placement.span.id)).bind fun result h => .pure ?_
  obtain ⟨declared, listing⟩ := h
  refine ⟨declared.coherent, ?_, ?_⟩
  · have before : OrderedSet.Rel result.2.Stands state.2 (.ofList (done.map (·.path))) :=
      List.Forall₂.imp (fun id path ⟨node, member, same, at_⟩ => by
        obtain ⟨now, present, nowId, nowPath⟩ := declared.keeps node member
        exact ⟨now, present, nowId.trans same, nowPath.trans at_⟩) listed.touched
    have all : OrderedSet.ofList ((done ++ [placement]).map (·.path)) =
        (OrderedSet.ofList (done.map (·.path))).insert placement.path := by
      simp [OrderedSet.ofList, OrderedSet.insertAll]
    rw [all]
    exact OrderedSet.rel_insert declared.coherent.biUnique_stands before declared.node
  · rw [listing, listed.listing, List.foldl_append]
    rfl

/-- Nodes are annotated in the order of their paths. -/
theorem Coherent.annotateEach_listing (coherent : graph.Coherent) (document : Document) {ids : List NodeId}
    {paths : List TypePath} (stand : List.Forall₂ graph.Stands ids paths) :
    Ensures (ids.foldlM (annotateAll document) graph) fun next => next.Coherent ∧
      next.listing = paths.foldl (Listing.annotateAll document) graph.listing := by
  induction ids generalizing graph paths with
  | nil =>
    cases stand
    exact .ok ⟨coherent, rfl⟩
  | cons id ids ih =>
    obtain ⟨path, paths, here, rest, rfl⟩ := List.forall₂_cons_left_iff.mp stand
    obtain ⟨node, member, rfl, rfl⟩ := here
    rw [List.foldlM_cons]
    refine (coherent.annotateAll_listing member document).bind fun mid h => ?_
    obtain ⟨midCoherent, nodes, listing⟩ := h
    rw [List.foldl_cons, ← listing]
    refine ih midCoherent (rest.imp fun id path stands => ?_)
    obtain ⟨other, among, rfl, rfl⟩ := stands
    have bare : other.bare ∈ mid.nodes.map Node.bare := nodes ▸ List.mem_map_of_mem among
    obtain ⟨now, present, same⟩ := List.mem_map.mp bare
    exact ⟨now, present, congrArg (·.id) same, congrArg (·.path) same⟩

theorem Coherent.includeRegion_listing (coherent : graph.Coherent) (document : Document) (region : List Nat) :
    Ensures (graph.includeRegion document region) fun next =>
      next.listing = graph.listing.includeRegion document region := by
  unfold includeRegion
  refine (coherent.placeAll_listing _).bind fun state listed => ?_
  refine (listed.coherent.annotateEach_listing document listed.touched).mono fun next h => ?_
  rw [h.2, listed.listing]
  rfl

end Inclusion

section Exclusion

theorem Framed.listing_detach (framed : graph.Framed) (member : node ∈ graph.nodes) (gloss : Span) :
    (graph.detach node.id gloss.id gloss.subject).listing = graph.listing.detach node.path gloss := by
  unfold detach
  cases found : graph.outbound? node.id gloss.subject with
  | none =>
    have same : (graph.listing.annotations node.path).drop gloss.subject gloss.id =
        graph.listing.annotations node.path := by
      rw [framed.listing_annotations member]
      refine (List.map_congr_left fun entry among => ?_).trans (List.map_id _)
      obtain ⟨edge, outbound, rfl⟩ := List.mem_map.mp among
      obtain ⟨listed, leaves⟩ := mem_outbounds.mp outbound
      exact if_neg fun named => outbound?_eq_none_iff.mp found edge listed ⟨leaves, named⟩
    simp only [Listing.detach, same, Function.update_eq_self]
  | some edge =>
    obtain ⟨listed, leaves, subject⟩ := framed.outbound?_eq_some_iff.mp found
    have modified : (graph.modifyEdge edge.id fun other =>
        { other with sources := edge.sources.erase gloss.id }).listing = _ :=
      framed.listing_modifyEdge listed member leaves (·.erase gloss.id) rfl
    rw [subject] at modified
    simp only
    split <;> exact modified

theorem Coherent.listing_detachAll (coherent : graph.Coherent) (member : node ∈ graph.nodes) (glosses : List Span) :
    (glosses.foldl (fun graph gloss => graph.detach node.id gloss.id gloss.subject) graph).listing =
      glosses.foldl (Listing.detach · node.path) graph.listing := by
  induction glosses generalizing graph with
  | nil => rfl
  | cons gloss glosses ih =>
    have first := coherent.detached_detach member gloss.id gloss.subject
    rw [List.foldl_cons, List.foldl_cons, ← coherent.listing_detach member gloss]
    exact ih (first.respanned.coherent coherent) (first.nodes ▸ member)

theorem Coherent.listing_withdraw (coherent : graph.Coherent) (placement : Document.Placement) :
    (graph.withdraw placement.path placement.span.id placement.statement.annotations).listing =
      graph.listing.withdraw placement := by
  unfold withdraw
  cases found : graph.nodeAt? placement.path with
  | none =>
    obtain ⟨declarations, annotations⟩ := listing_vacant found
    have nothing (glosses : List Span) :
        glosses.foldl (Listing.detach · placement.path) graph.listing = graph.listing := by
      induction glosses with
      | nil => rfl
      | cons gloss glosses ih =>
        have one : graph.listing.detach placement.path gloss = graph.listing := by
          refine Listing.ext (by rfl) ?_
          simp only [Listing.detach, annotations]
          exact Function.update_eq_iff.mpr ⟨annotations.symm, fun _ _ => rfl⟩
        rw [List.foldl_cons, one, ih]
    have same : Function.update graph.listing.declarations placement.path
        ((graph.listing.declarations placement.path).erase placement.span.id) = graph.listing.declarations := by
      rw [declarations]
      exact Function.update_eq_iff.mpr ⟨declarations.symm, fun _ _ => rfl⟩
    simp only [Listing.withdraw, same]
    exact (nothing _).symm
  | some node =>
    obtain ⟨member, path⟩ := coherent.nodeAt?_eq_some_iff.mp found
    let rest := node.declarations.erase placement.span.id
    let mid := graph.modifyNode node.id fun other => { other with declarations := rest }
    have respanned := respanned_modifyNode graph node.id fun _ => rest
    have now : { node with declarations := rest } ∈ mid.nodes :=
      mem_nodes_modifyNode.mpr ⟨node, member, by simp [rest]⟩
    have all := (respanned.coherent coherent).listing_detachAll now placement.statement.annotations
    have first : mid.listing = _ := coherent.listing_modifyNode member fun _ => rest
    have whole : (placement.statement.annotations.foldl (fun graph gloss =>
        graph.detach node.id gloss.id gloss.subject) mid).listing = graph.listing.withdraw placement := by
      refine all.trans ?_
      rw [first, Listing.withdraw, ← path, coherent.listing_declarations member]
    simp only
    split <;> exact whole

theorem Coherent.listing_excludeRegion (coherent : graph.Coherent) (document : Document) (region : List Nat) :
    (graph.excludeRegion document region).listing = graph.listing.excludeRegion document region := by
  unfold excludeRegion Listing.excludeRegion
  induction region.flatMap document.placements generalizing graph with
  | nil => rfl
  | cons placement placements ih =>
    have first := coherent.reduced_withdraw placement
    rw [List.foldl_cons, List.foldl_cons, ← coherent.listing_withdraw placement]
    exact ih (first.respanned.coherent coherent)

end Exclusion

section Disposal

/-- What is listed once the edges without sources and the nodes without spans are gone. -/
theorem Framed.listing_kept (framed : graph.Framed) {ids : List NodeId}
    (vacant : ∀ node ∈ graph.nodes, node.id ∈ ids ↔ node.declarations.isEmpty) :
    (((graph.keepEdges (!·.sources.isEmpty)).keepEdges (·.predecessor ∉ ids)).keepNodes (·.id ∉ ids)).listing =
      graph.listing.dispose := by
  let pruned := (graph.keepEdges (!·.sources.isEmpty)).keepEdges (·.predecessor ∉ ids)
  have nodeAt (path : TypePath) : (pruned.keepNodes (·.id ∉ ids)).nodeAt? path =
      (graph.nodeAt? path).filter (·.id ∉ ids) := framed.nodeAt?_keepNodes (·.id ∉ ids) path
  have outbounds {id : NodeId} (stays : id ∉ ids) : (pruned.keepNodes (·.id ∉ ids)).outbounds id =
      (graph.outbounds id).filter (!·.sources.isEmpty) := by
    simp only [Graph.outbounds, pruned, keepEdges, keepNodes, List.filter_filter]
    refine List.filter_congr fun edge _ => ?_
    by_cases leaves : edge.predecessor = id <;> simp [leaves, stays]
  have empty {spans : OrderedSet SpanId} (none : spans.isEmpty) : spans = ∅ :=
    OrderedSet.ext_toList (List.isEmpty_iff.mp none)
  change (pruned.keepNodes (·.id ∉ ids)).listing = _
  generalize pruned.keepNodes (·.id ∉ ids) = last at nodeAt outbounds ⊢
  have each (path : TypePath) : last.listing.declarations path = graph.listing.dispose.declarations path ∧
      last.listing.annotations path = graph.listing.dispose.annotations path := by
    rcases (graph.nodeAt? path).eq_none_or_eq_some with found | ⟨node, found⟩
    · simp [listing, Listing.dispose, nodeAt, found]
    · have gone := vacant node (framed.nodeAt?_eq_some_iff.mp found).1
      by_cases here : node.id ∈ ids
      · have blank : (∅ : OrderedSet SpanId).isEmpty = true := rfl
        have lost : last.nodeAt? path = none := by rw [nodeAt, found, Option.filter_some_neg (by simpa using here)]
        simp [listing, Listing.dispose, lost, found, empty (gone.mp here), blank]
      · have full : node.declarations.isEmpty = false := by simpa using mt gone.mpr here
        have kept : last.nodeAt? path = some node := by rw [nodeAt, found, Option.filter_some_pos (by simpa using here)]
        simp [listing, Listing.dispose, kept, found, outbounds here, full, List.filter_map, Function.comp_def]
  exact Listing.ext (funext fun path => (each path).1) (funext fun path => (each path).2)

theorem Coherent.dispose_listing (coherent : graph.Coherent) (accounted : graph.Accounted) :
    Ensures graph.dispose fun next => next.listing = graph.listing.dispose := by
  let cleared : Graph := { graph with emptiedEdges := ∅, emptiedNodes := ∅ }
  have respanned : Respanned graph cleared := ⟨rfl, rfl, rfl, rfl⟩
  unfold dispose
  refine (coherent.removeEmptied_succeeds accounted).ensures.bind fun mid pruned => ?_
  refine (pruned.coherent.removeNodes_ensure _).mono fun next result => ?_
  have vacant : ∀ node ∈ cleared.nodes,
      node.id ∈ (mid.vacantNodes graph.emptiedNodes).map Node.id ↔ node.declarations.isEmpty := by
    intro node member
    obtain ⟨now, present, bare⟩ := pruned.alike.symm.node_of_mem member
    have id : now.id = node.id := congrArg (·.id) bare
    have declarations : now.declarations = node.declarations := congrArg (·.declarations) bare
    rw [← id, ← declarations, List.mem_map]
    constructor
    · rintro ⟨other, among, same⟩
      obtain ⟨listed, empty⟩ := (pruned.mem_vacantNodes accounted).mp among
      rwa [← eq_of_key_eq pruned.coherent.nodeIds listed present same]
    · exact fun empty => ⟨now, (pruned.mem_vacantNodes accounted).mpr ⟨present, empty⟩, rfl⟩
  have alike := ((pruned.alike.keepEdges fun _ => rfl).keepNodes fun _ => rfl).trans result.2
  rw [alike.listing]
  exact (respanned.coherent coherent).listing_kept vacant

end Disposal

/-- What a change of lines does to what is listed. -/
theorem Settled.change_listing (settled : graph.Settled) (old new : Document) (parents : List StatementId) :
    Ensures (graph.change old new parents) fun next => ∃ before after, old.region parents = .ok before ∧
      new.region parents = .ok after ∧
        next.listing = ((graph.listing.excludeRegion old before).includeRegion new after).dispose := by
  unfold change invalidate revalidate
  simp only [settled.pending]
  refine Ensures.bind (?_ : Ensures _ fun (mid : Graph) => mid.Coherent ∧ mid.Accounted ∧
    ∃ before, old.region parents = .ok before ∧ mid.listing = graph.listing.excludeRegion old before) fun mid h => ?_
  · let start : Graph := { graph with pending := some old.id }
    have respanned : Respanned graph start := ⟨rfl, rfl, rfl, rfl⟩
    have coherent := respanned.coherent settled.toCoherent
    have start_accounted : start.Accounted := ⟨settled.accounted.nodes, settled.accounted.edges⟩
    intro mid eq
    cases region : old.region parents with
    | error reason => simp [region] at eq
    | ok before =>
      simp only [region, ok_bind] at eq
      cases eq
      have reduced := coherent.reduced_excludeRegion old before
      exact ⟨reduced.respanned.coherent coherent, reduced.accounted start_accounted, before, rfl,
        coherent.listing_excludeRegion old before⟩
  · obtain ⟨coherent, accounted, before, region, listing⟩ := h
    split
    · let start : Graph := { mid with pending := none }
      have respanned : Respanned mid start := ⟨rfl, rfl, rfl, rfl⟩
      have start_coherent := respanned.coherent coherent
      have start_accounted : start.Accounted := ⟨accounted.nodes, accounted.edges⟩
      cases regionToo : new.region parents with
      | error reason => exact .error _
      | ok after =>
        rw [ok_bind]
        refine ((start_coherent.include_ensures new after).and (start_coherent.includeRegion_listing new after)).bind
          fun last h => ?_
        obtain ⟨included, now⟩ := h
        refine (included.coherent.dispose_listing (included.accounted start_accounted)).mono fun next disposed => ?_
        refine ⟨before, after, region, rfl, ?_⟩
        rw [disposed, now, ← listing]
        rfl
    · exact .error _

end Graph

end OutlineTypes
