import OutlineTypes.Proofs.Document.Likeness
import OutlineTypes.Proofs.Graph.Change

/-! Portraits. A settled graph that mirrors its documents is determined by them up to identities and
order: the graphs of like documents have twin nodes at the same paths and twin edges between them. -/
namespace OutlineTypes

namespace Graph

/-- The graph says what these documents say; it may show other documents, too. -/
structure Shows (graph : Graph) (documents : List Document) : Prop where
  settled : graph.Settled
  sound : ∀ document ∈ documents, document.Sound
  distinct : (documents.map Document.id).Nodup
  mirrors : ∀ document ∈ documents, graph.Mirrors document

/-- The graph says what these documents say, and nothing else. -/
structure Portrays (graph : Graph) (documents : List Document) : Prop extends Shows graph documents where
  present : ∀ node ∈ graph.nodes, ∃ document ∈ documents, document.id = node.path.document

/-- Documents of one graph with like documents of another. -/
abbrev Pairing := List (Document × Document)

variable {pairs : Pairing} {graph other : Graph}

namespace Pairing

/-- The paths have the same names in paired documents. -/
def SamePath (pairs : Pairing) (path again : TypePath) : Prop :=
  ∃ pair ∈ pairs, Document.SamePath pair.1 pair.2 path again

/-- The spans stand in the same place of paired documents. -/
def SamePlace (pairs : Pairing) (span again : SpanId) : Prop :=
  ∃ pair ∈ pairs, Document.SamePlace pair.1 pair.2 span again

/-- The document is the first one of a pair. -/
def Covers (pairs : Pairing) (document : DocumentId) : Prop := ∃ pair ∈ pairs, pair.1.id = document

/-- The document is the second one of a pair. -/
def CoversToo (pairs : Pairing) (document : DocumentId) : Prop := ∃ pair ∈ pairs, pair.2.id = document

instance (pairs : Pairing) (document : DocumentId) : Decidable (pairs.Covers document) :=
  inferInstanceAs (Decidable (∃ pair ∈ pairs, pair.1.id = document))

theorem covers_of_samePath {path again : TypePath} (same : pairs.SamePath path again) :
    pairs.Covers path.document ∧ pairs.CoversToo again.document := by
  obtain ⟨pair, member, h⟩ := same
  exact ⟨⟨pair, member, h.here.symm⟩, pair, member, h.there.symm⟩

/-- Every span of one set has its counterpart in the other. -/
def SamePlaces (pairs : Pairing) (spans again : OrderedSet SpanId) : Prop :=
  (∀ span ∈ spans, ∃ twin ∈ again, pairs.SamePlace span twin) ∧
    ∀ twin ∈ again, ∃ span ∈ spans, pairs.SamePlace span twin

end Pairing

/-- The graphs show the two sides of a pairing. -/
structure Paired (pairs : Pairing) (graph other : Graph) : Prop where
  left : graph.Shows (pairs.map Prod.fst)
  right : other.Shows (pairs.map Prod.snd)
  like : ∀ pair ∈ pairs, Document.Likewise pair.1 pair.2

/-- The graphs show nothing but the two sides of a pairing. -/
structure Matched (pairs : Pairing) (graph other : Graph) : Prop extends Paired pairs graph other where
  covered : ∀ node ∈ graph.nodes, pairs.Covers node.path.document
  coveredToo : ∀ node ∈ other.nodes, pairs.CoversToo node.path.document

/-- Nodes of the two graphs at the same path. -/
structure Twins (pairs : Pairing) (graph other : Graph) (node again : Node) : Prop where
  here : node ∈ graph.nodes
  there : again ∈ other.nodes
  path : pairs.SamePath node.path again.path

/-- Identities of twin nodes. -/
def TwinIds (pairs : Pairing) (graph other : Graph) (id again : NodeId) : Prop :=
  ∃ node twin, Twins pairs graph other node twin ∧ node.id = id ∧ twin.id = again

/-- Edges of the two graphs with the same subject, out of twin nodes. -/
structure TwinEdges (pairs : Pairing) (graph other : Graph) (edge again : Edge) : Prop where
  here : edge ∈ graph.edges
  there : again ∈ other.edges
  subject : again.subject = edge.subject
  predecessor : TwinIds pairs graph other edge.predecessor again.predecessor

namespace Paired

section Paths

theorem pair_unique (paired : Paired pairs graph other) {pair again : Document × Document}
    (member : pair ∈ pairs) (among : again ∈ pairs) (same : pair.1.id = again.1.id) : pair = again := by
  have distinct := paired.left.distinct
  rw [List.map_map] at distinct
  exact List.inj_on_of_nodup_map distinct member among same

theorem pair_unique_right (paired : Paired pairs graph other) {pair again : Document × Document}
    (member : pair ∈ pairs) (among : again ∈ pairs) (same : pair.2.id = again.2.id) : pair = again := by
  have distinct := paired.right.distinct
  rw [List.map_map] at distinct
  exact List.inj_on_of_nodup_map distinct member among same

theorem samePath_unique (paired : Paired pairs graph other) {path first second : TypePath}
    (one : pairs.SamePath path first) (two : pairs.SamePath path second) : first = second := by
  obtain ⟨pair, member, h⟩ := one
  obtain ⟨again, among, k⟩ := two
  cases paired.pair_unique member among (h.here.symm.trans k.here)
  exact TypePath.ext_names (h.there.trans k.there.symm) (h.names.trans k.names.symm)

theorem samePath_unique_left (paired : Paired pairs graph other) {path first second : TypePath}
    (one : pairs.SamePath first path) (two : pairs.SamePath second path) : first = second := by
  obtain ⟨pair, member, h⟩ := one
  obtain ⟨again, among, k⟩ := two
  cases paired.pair_unique_right member among (h.there.symm.trans k.there)
  exact TypePath.ext_names (h.here.trans k.here.symm) (h.names.symm.trans k.names)

/-- Paths made alike out of the same paths. -/
theorem samePath_of_names {path again first second : TypePath} (same : pairs.SamePath path again)
    (here : first.document = path.document) (there : second.document = again.document)
    (names : second.names = first.names) : pairs.SamePath first second := by
  obtain ⟨pair, member, h⟩ := same
  exact ⟨pair, member, here.trans h.here, there.trans h.there, names⟩

theorem names_of_samePath {path again : TypePath} (same : pairs.SamePath path again) :
    again.names = path.names := by
  obtain ⟨_, _, h⟩ := same
  exact h.names

theorem length_of_samePath {path again : TypePath} (same : pairs.SamePath path again) :
    again.length = path.length := by
  rw [TypePath.length, TypePath.length, names_of_samePath same]

theorem container?_of_samePath {path again outer : TypePath} (same : pairs.SamePath path again)
    (inside : path.container? = some outer) :
    ∃ around, again.container? = some around ∧ pairs.SamePath outer around := by
  have length := length_of_samePath same
  unfold TypePath.container? at inside ⊢
  split at inside
  · contradiction
  · rename_i nested
    cases inside
    simp only [TypePath.isRoot, length] at nested ⊢
    simp only [nested, Bool.false_eq_true, ↓reduceIte]
    refine ⟨_, rfl, samePath_of_names same rfl rfl ?_⟩
    simp only [TypePath.upTo, names_of_samePath same]

theorem container?_none_of_samePath {path again : TypePath} (same : pairs.SamePath path again)
    (root : path.container? = none) : again.container? = none := by
  have length := length_of_samePath same
  unfold TypePath.container? at root ⊢
  split at root
  · rename_i top
    simp only [TypePath.isRoot] at top ⊢
    simp only [length, top, ↓reduceIte]
  · contradiction

end Paths

section Nodes

theorem declares (paired : Paired pairs graph other) {path again : TypePath}
    (same : pairs.SamePath path again) {span : SpanId} (declared : graph.Declares path span) :
    ∃ twin, other.Declares again twin ∧ pairs.SamePlace span twin := by
  obtain ⟨pair, member, same⟩ := same
  have first := List.mem_map_of_mem (f := Prod.fst) member
  have second := List.mem_map_of_mem (f := Prod.snd) member
  have said := ((paired.left.mirrors _ first).declares path span same.here).mp declared
  obtain ⟨twin, declaredAgain, place⟩ := (paired.like pair member).declares (paired.left.sound _ first)
    (paired.right.sound _ second) same said
  exact ⟨twin, ((paired.right.mirrors _ second).declares again twin same.there).mpr declaredAgain, pair,
    member, place⟩

theorem declares_back (paired : Paired pairs graph other) {path again : TypePath}
    (same : pairs.SamePath path again) {twin : SpanId} (declared : other.Declares again twin) :
    ∃ span, graph.Declares path span ∧ pairs.SamePlace span twin := by
  obtain ⟨pair, member, same⟩ := same
  have first := List.mem_map_of_mem (f := Prod.fst) member
  have second := List.mem_map_of_mem (f := Prod.snd) member
  have said := ((paired.right.mirrors _ second).declares again twin same.there).mp declared
  obtain ⟨span, declaredBack, place⟩ := (paired.like pair member).declares_back
    (paired.left.sound _ first) (paired.right.sound _ second) same said
  exact ⟨span, ((paired.left.mirrors _ first).declares path span same.here).mpr declaredBack, pair,
    member, place⟩

theorem asserts (paired : Paired pairs graph other) {path again : TypePath}
    (same : pairs.SamePath path again) {subject : Name} {source : SpanId}
    (asserted : graph.Asserts path subject source) :
    ∃ twin, other.Asserts again subject twin ∧ pairs.SamePlace source twin := by
  obtain ⟨pair, member, same⟩ := same
  have first := List.mem_map_of_mem (f := Prod.fst) member
  have second := List.mem_map_of_mem (f := Prod.snd) member
  have said := ((paired.left.mirrors _ first).asserts path subject source same.here).mp asserted
  obtain ⟨twin, annotated, place⟩ := (paired.like pair member).annotates (paired.left.sound _ first)
    (paired.right.sound _ second) same said
  exact ⟨twin, ((paired.right.mirrors _ second).asserts again subject twin same.there).mpr annotated,
    pair, member, place⟩

theorem asserts_back (paired : Paired pairs graph other) {path again : TypePath}
    (same : pairs.SamePath path again) {subject : Name} {twin : SpanId}
    (asserted : other.Asserts again subject twin) :
    ∃ source, graph.Asserts path subject source ∧ pairs.SamePlace source twin := by
  obtain ⟨pair, member, same⟩ := same
  have first := List.mem_map_of_mem (f := Prod.fst) member
  have second := List.mem_map_of_mem (f := Prod.snd) member
  have said := ((paired.right.mirrors _ second).asserts again subject twin same.there).mp asserted
  obtain ⟨source, annotated, place⟩ := (paired.like pair member).annotates_back
    (paired.left.sound _ first) (paired.right.sound _ second) same said
  exact ⟨source, ((paired.left.mirrors _ first).asserts path subject source same.here).mpr annotated,
    pair, member, place⟩

/-- A path of a paired document has its counterpart. -/
theorem exists_samePath {path : TypePath} (covered : pairs.Covers path.document) :
    ∃ again, pairs.SamePath path again := by
  obtain ⟨pair, among, owner⟩ := covered
  exact ⟨⟨pair.2.id, path.names, path.names_ne⟩, pair, among, owner.symm, rfl, rfl⟩

theorem exists_samePath_back {again : TypePath} (covered : pairs.CoversToo again.document) :
    ∃ path, pairs.SamePath path again := by
  obtain ⟨pair, among, owner⟩ := covered
  exact ⟨⟨pair.1.id, again.names, again.names_ne⟩, pair, among, rfl, owner.symm, rfl⟩

theorem exists_twin_at (paired : Paired pairs graph other) {node : Node} (member : node ∈ graph.nodes)
    {again : TypePath} (same : pairs.SamePath node.path again) :
    ∃ twin, Twins pairs graph other node twin ∧ twin.path = again := by
  obtain ⟨span, declared⟩ := paired.left.settled.exists_declares ⟨node, member, rfl⟩
  obtain ⟨_, declaredAgain, _⟩ := paired.declares same declared
  obtain ⟨twin, there, rfl⟩ := declaredAgain.hasNode
  exact ⟨twin, ⟨member, there, same⟩, rfl⟩

theorem exists_twin_at_back (paired : Paired pairs graph other) {twin : Node}
    (member : twin ∈ other.nodes) {path : TypePath} (same : pairs.SamePath path twin.path) :
    ∃ node, Twins pairs graph other node twin ∧ node.path = path := by
  obtain ⟨span, declared⟩ := paired.right.settled.exists_declares ⟨twin, member, rfl⟩
  obtain ⟨_, declaredBack, _⟩ := paired.declares_back same declared
  obtain ⟨node, here, rfl⟩ := declaredBack.hasNode
  exact ⟨node, ⟨here, member, same⟩, rfl⟩

theorem exists_twin (paired : Paired pairs graph other) {node : Node} (member : node ∈ graph.nodes)
    (covered : pairs.Covers node.path.document) : ∃ twin, Twins pairs graph other node twin := by
  obtain ⟨again, same⟩ := exists_samePath covered
  obtain ⟨twin, twins, _⟩ := paired.exists_twin_at member same
  exact ⟨twin, twins⟩

theorem exists_twin_back (paired : Paired pairs graph other) {twin : Node} (member : twin ∈ other.nodes)
    (covered : pairs.CoversToo twin.path.document) : ∃ node, Twins pairs graph other node twin := by
  obtain ⟨path, same⟩ := exists_samePath_back covered
  obtain ⟨node, twins, _⟩ := paired.exists_twin_at_back member same
  exact ⟨node, twins⟩

theorem twin_unique (paired : Paired pairs graph other) {node first second : Node}
    (one : Twins pairs graph other node first) (two : Twins pairs graph other node second) :
    first = second :=
  eq_of_key_eq paired.right.settled.paths one.there two.there (paired.samePath_unique one.path two.path)

theorem twin_unique_left (paired : Paired pairs graph other) {twin first second : Node}
    (one : Twins pairs graph other first twin) (two : Twins pairs graph other second twin) :
    first = second :=
  eq_of_key_eq paired.left.settled.paths one.here two.here
    (paired.samePath_unique_left one.path two.path)

theorem twinIds_unique (paired : Paired pairs graph other) {id first second : NodeId}
    (one : TwinIds pairs graph other id first) (two : TwinIds pairs graph other id second) :
    first = second := by
  obtain ⟨node, twin, twins, rfl, rfl⟩ := one
  obtain ⟨again, other, twinsAgain, same, rfl⟩ := two
  cases eq_of_key_eq paired.left.settled.nodeIds twinsAgain.here twins.here same
  rw [paired.twin_unique twins twinsAgain]

theorem twinIds_unique_left (paired : Paired pairs graph other) {id first second : NodeId}
    (one : TwinIds pairs graph other first id) (two : TwinIds pairs graph other second id) :
    first = second := by
  obtain ⟨node, twin, twins, rfl, rfl⟩ := one
  obtain ⟨again, other, twinsAgain, rfl, same⟩ := two
  cases eq_of_key_eq paired.right.settled.nodeIds twinsAgain.there twins.there same
  rw [paired.twin_unique_left twins twinsAgain]

/-- At the same path stand twins, or nothing in either graph. -/
theorem nodeAt? (paired : Paired pairs graph other) {path again : TypePath}
    (same : pairs.SamePath path again) :
    Option.Rel (Twins pairs graph other) (graph.nodeAt? path) (other.nodeAt? again) := by
  cases found : graph.nodeAt? path with
  | some node =>
    obtain ⟨member, rfl⟩ := paired.left.settled.nodeAt?_eq_some_iff.mp found
    obtain ⟨twin, twins, rfl⟩ := paired.exists_twin_at member same
    rw [paired.right.settled.nodeAt?_eq_some_iff.mpr ⟨twins.there, rfl⟩]
    exact .some twins
  | none =>
    cases present : other.nodeAt? again with
    | none => exact .none
    | some twin =>
      obtain ⟨among, rfl⟩ := paired.right.settled.nodeAt?_eq_some_iff.mp present
      obtain ⟨node, twins, at_⟩ := paired.exists_twin_at_back among same
      exact absurd at_ (nodeAt?_eq_none_iff.mp found node twins.here)

theorem declarations (paired : Paired pairs graph other) {node twin : Node}
    (twins : Twins pairs graph other node twin) :
    pairs.SamePlaces node.declarations twin.declarations := by
  have left := paired.left.settled
  have right := paired.right.settled
  constructor
  · intro span declared
    obtain ⟨again, declaredAgain, place⟩ := paired.declares twins.path
      ((left.declares_iff_mem_declarations twins.here).mpr declared)
    exact ⟨again, (right.declares_iff_mem_declarations twins.there).mp declaredAgain, place⟩
  · intro again declared
    obtain ⟨span, declaredBack, place⟩ := paired.declares_back twins.path
      ((right.declares_iff_mem_declarations twins.there).mpr declared)
    exact ⟨span, (left.declares_iff_mem_declarations twins.here).mp declaredBack, place⟩

theorem container (paired : Paired pairs graph other) {node twin : Node}
    (twins : Twins pairs graph other node twin) :
    Option.Rel (TwinIds pairs graph other) node.container twin.container := by
  have left := paired.left.settled
  have right := paired.right.settled
  cases inside : node.path.container? with
  | none =>
    rw [left.roots node twins.here inside,
      right.roots twin twins.there (container?_none_of_samePath twins.path inside)]
    exact .none
  | some outer =>
    obtain ⟨around, insideAgain, same⟩ := container?_of_samePath twins.path inside
    obtain ⟨above, here, rfl, container⟩ := left.containers node twins.here outer inside
    obtain ⟨aboveAgain, there, rfl, containerAgain⟩ :=
      right.containers twin twins.there around insideAgain
    rw [container, containerAgain]
    exact .some ⟨above, aboveAgain, ⟨here, there, same⟩, rfl, rfl⟩

end Nodes

section Edges

theorem exists_twinEdge (paired : Paired pairs graph other) {node again : Node}
    (twins : Twins pairs graph other node again) {edge : Edge} (member : edge ∈ graph.edges)
    (leaves : edge.predecessor = node.id) : ∃ twin, TwinEdges pairs graph other edge twin := by
  obtain ⟨source, listed⟩ :=
    OrderedSet.exists_mem_of_isEmpty_eq_false (paired.left.settled.edges edge member)
  obtain ⟨_, ⟨_, there, same, edgeAgain, present, id, subject, _⟩, _⟩ := paired.asserts twins.path
    ((paired.left.settled.asserts_iff_mem_sources member twins.here leaves).mpr listed)
  cases eq_of_key_eq paired.right.settled.paths there twins.there same
  exact ⟨edgeAgain, member, present, subject, node, _, twins, leaves.symm, id.symm⟩

theorem exists_twinEdge_back (paired : Paired pairs graph other) {node again : Node}
    (twins : Twins pairs graph other node again) {twin : Edge} (member : twin ∈ other.edges)
    (leaves : twin.predecessor = again.id) : ∃ edge, TwinEdges pairs graph other edge twin := by
  obtain ⟨source, listed⟩ :=
    OrderedSet.exists_mem_of_isEmpty_eq_false (paired.right.settled.edges twin member)
  obtain ⟨_, ⟨_, here, same, edge, present, id, subject, _⟩, _⟩ := paired.asserts_back twins.path
    ((paired.right.settled.asserts_iff_mem_sources member twins.there leaves).mpr listed)
  cases eq_of_key_eq paired.left.settled.paths here twins.here same
  exact ⟨edge, present, member, subject.symm, _, again, twins, id.symm, leaves.symm⟩

theorem twinEdge_unique (paired : Paired pairs graph other) {edge first second : Edge}
    (one : TwinEdges pairs graph other edge first) (two : TwinEdges pairs graph other edge second) :
    first = second := by
  refine eq_of_key_eq paired.right.settled.assertions one.there two.there (Prod.ext ?_ ?_)
  · exact paired.twinIds_unique one.predecessor two.predecessor
  · exact one.subject.trans two.subject.symm

theorem twinEdge_unique_left (paired : Paired pairs graph other) {twin first second : Edge}
    (one : TwinEdges pairs graph other first twin) (two : TwinEdges pairs graph other second twin) :
    first = second := by
  refine eq_of_key_eq paired.left.settled.assertions one.here two.here (Prod.ext ?_ ?_)
  · exact paired.twinIds_unique_left one.predecessor two.predecessor
  · exact one.subject.symm.trans two.subject

theorem sources (paired : Paired pairs graph other) {edge twin : Edge}
    (twins : TwinEdges pairs graph other edge twin) : pairs.SamePlaces edge.sources twin.sources := by
  obtain ⟨node, again, nodes, predecessor, predecessorAgain⟩ := twins.predecessor
  have left {source : SpanId} : graph.Asserts node.path edge.subject source ↔ source ∈ edge.sources :=
    paired.left.settled.asserts_iff_mem_sources twins.here nodes.here predecessor.symm
  have right {source : SpanId} : other.Asserts again.path twin.subject source ↔ source ∈ twin.sources :=
    paired.right.settled.asserts_iff_mem_sources twins.there nodes.there predecessorAgain.symm
  constructor
  · intro source asserted
    obtain ⟨other, assertedAgain, place⟩ := paired.asserts nodes.path (left.mpr asserted)
    exact ⟨other, right.mp (twins.subject ▸ assertedAgain), place⟩
  · intro other asserted
    obtain ⟨source, assertedBack, place⟩ :=
      paired.asserts_back nodes.path (twins.subject ▸ right.mpr asserted)
    exact ⟨source, left.mp assertedBack, place⟩

/-- Twin edges list twin nodes at the same longitudes, in the same order. -/
theorem successors (paired : Paired pairs graph other) {edge twin : Edge}
    (twins : TwinEdges pairs graph other edge twin) :
    List.Forall₂ (fun successor again => again.longitude = successor.longitude ∧
      TwinIds pairs graph other successor.node again.node) edge.successors twin.successors := by
  obtain ⟨node, again, nodes, predecessor, predecessorAgain⟩ := twins.predecessor
  have left := paired.left.settled
  have right := paired.right.settled
  rw [left.successors edge twins.here node nodes.here predecessor,
    right.successors twin twins.there again nodes.there predecessorAgain,
    left.visible_eq_nodeAt?, right.visible_eq_nodeAt?, length_of_samePath nodes.path]
  induction List.range node.path.length with
  | nil => exact .nil
  | cons longitude further ih =>
    have inScope : pairs.SamePath (node.path.inScope longitude edge.subject)
        (again.path.inScope longitude twin.subject) := by
      refine samePath_of_names nodes.path rfl rfl ?_
      simp only [TypePath.inScope, names_of_samePath nodes.path, length_of_samePath nodes.path,
        twins.subject]
    have shown := paired.nodeAt? inScope
    rw [List.filterMap_cons, List.filterMap_cons]
    generalize graph.nodeAt? (node.path.inScope longitude edge.subject) = first at shown ⊢
    generalize other.nodeAt? (again.path.inScope longitude twin.subject) = second at shown ⊢
    cases shown with
    | none => exact ih
    | some twins => exact .cons ⟨rfl, _, _, twins, rfl, rfl⟩ ih

theorem inbounds (paired : Paired pairs graph other) {node again : Node}
    (nodes : Twins pairs graph other node again) {edge twin : Edge}
    (twins : TwinEdges pairs graph other edge twin) :
    edge.id ∈ node.inbounds ↔ twin.id ∈ again.inbounds := by
  have left := paired.left.settled
  have right := paired.right.settled
  have lists : edge.lists node.id = twin.lists again.id := by
    have successors := paired.successors twins
    unfold Edge.lists
    generalize edge.successors = first at successors ⊢
    generalize twin.successors = second at successors ⊢
    induction successors with
    | nil => rfl
    | cons same _ ih =>
      rw [List.any_cons, List.any_cons, ih]
      congr 1
      simp only [decide_eq_decide]
      constructor
      · exact fun met => paired.twinIds_unique (met ▸ same.2) ⟨node, again, nodes, rfl, rfl⟩
      · exact fun met => paired.twinIds_unique_left (met ▸ same.2) ⟨node, again, nodes, rfl, rfl⟩
  rw [left.inbounds node nodes.here, right.inbounds again nodes.there]
  constructor
  · rintro ⟨found, listed, same, inside⟩
    cases eq_of_key_eq left.edgeIds listed twins.here same
    exact ⟨twin, twins.there, rfl, lists ▸ inside⟩
  · rintro ⟨found, listed, same, inside⟩
    cases eq_of_key_eq right.edgeIds listed twins.there same
    exact ⟨edge, twins.here, rfl, lists ▸ inside⟩

end Edges

end Paired

/-- The graphs are the same up to identities and order: their nodes and edges are twins, one to one, and
twins agree in all that they hold. -/
structure Isomorphic (pairs : Pairing) (graph other : Graph) : Prop where
  nodes : ∀ node ∈ graph.nodes, ∃! twin, Twins pairs graph other node twin
  nodesBack : ∀ twin ∈ other.nodes, ∃! node, Twins pairs graph other node twin
  edges : ∀ edge ∈ graph.edges, ∃! twin, TwinEdges pairs graph other edge twin
  edgesBack : ∀ twin ∈ other.edges, ∃! edge, TwinEdges pairs graph other edge twin
  declarations : ∀ node twin, Twins pairs graph other node twin →
    pairs.SamePlaces node.declarations twin.declarations
  containers : ∀ node twin, Twins pairs graph other node twin →
    Option.Rel (TwinIds pairs graph other) node.container twin.container
  inbounds : ∀ node twin edge again, Twins pairs graph other node twin →
    TwinEdges pairs graph other edge again → (edge.id ∈ node.inbounds ↔ again.id ∈ twin.inbounds)
  sources : ∀ edge twin, TwinEdges pairs graph other edge twin →
    pairs.SamePlaces edge.sources twin.sources
  successors : ∀ edge twin, TwinEdges pairs graph other edge twin →
    List.Forall₂ (fun successor again => again.longitude = successor.longitude ∧
      TwinIds pairs graph other successor.node again.node) edge.successors twin.successors

theorem Matched.isomorphic (matched : Matched pairs graph other) : Isomorphic pairs graph other where
  nodes node member := by
    obtain ⟨twin, twins⟩ := matched.exists_twin member (matched.covered node member)
    exact ⟨twin, twins, fun _ again => matched.twin_unique again twins⟩
  nodesBack twin member := by
    obtain ⟨node, twins⟩ := matched.exists_twin_back member (matched.coveredToo twin member)
    exact ⟨node, twins, fun _ again => matched.twin_unique_left again twins⟩
  edges edge member := by
    obtain ⟨node, among, leaves⟩ := matched.left.settled.predecessors edge member
    obtain ⟨_, nodes⟩ := matched.exists_twin among (matched.covered node among)
    obtain ⟨twin, twins⟩ := matched.exists_twinEdge nodes member leaves.symm
    exact ⟨twin, twins, fun _ again => matched.twinEdge_unique again twins⟩
  edgesBack twin member := by
    obtain ⟨again, among, leaves⟩ := matched.right.settled.predecessors twin member
    obtain ⟨_, nodes⟩ := matched.exists_twin_back among (matched.coveredToo again among)
    obtain ⟨edge, twins⟩ := matched.exists_twinEdge_back nodes member leaves.symm
    exact ⟨edge, twins, fun _ again => matched.twinEdge_unique_left again twins⟩
  declarations _ _ twins := matched.declarations twins
  containers _ _ twins := matched.container twins
  inbounds _ _ _ _ nodes twins := matched.inbounds nodes twins
  sources _ _ twins := matched.sources twins
  successors _ _ twins := matched.successors twins

end Graph
end OutlineTypes
