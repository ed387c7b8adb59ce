import OutlineTypes.Proofs.Graph.Portrait
import OutlineTypes.Proofs.Lockstep
import OutlineTypes.Proofs.Ordered
import OutlineTypes.Resolution.Drill

/-! Twin scenes. Two graphs of like documents with the same names are twins if they list everything in the
same order; then what is read in the one scene has its twin in the other. -/
namespace OutlineTypes

namespace Graph

variable {pairs : Pairing} {graph other : Graph}

/-- The statements are the same line of paired documents. -/
def Pairing.SameLine (pairs : Pairing) (id again : StatementId) : Prop :=
  ∃ pair ∈ pairs, ∃ index, pair.1.position? id = some index ∧ pair.2.position? again = some index

theorem Pairing.samePlace_iff {span again : SpanId} : pairs.SamePlace span again ↔
    pairs.SameLine span.statement again.statement ∧ again.side = span.side ∧
      again.position = span.position := by
  constructor
  · rintro ⟨pair, member, line, side, position⟩
    exact ⟨⟨pair, member, line⟩, side, position⟩
  · rintro ⟨⟨pair, member, line⟩, side, position⟩
    exact ⟨pair, member, line, side, position⟩

/-- Identities of twin edges. -/
def TwinEdgeIds (pairs : Pairing) (graph other : Graph) (id again : EdgeId) : Prop :=
  ∃ edge twin, TwinEdges pairs graph other edge twin ∧ edge.id = id ∧ twin.id = again

namespace Paired

theorem biUnique_samePath (paired : Paired pairs graph other) : Relator.BiUnique pairs.SamePath :=
  ⟨fun _ _ _ one two => paired.samePath_unique_left one two, fun _ _ _ one two => paired.samePath_unique one two⟩

theorem biUnique_twinIds (paired : Paired pairs graph other) :
    Relator.BiUnique (TwinIds pairs graph other) :=
  ⟨fun _ _ _ one two => paired.twinIds_unique_left one two, fun _ _ _ one two => paired.twinIds_unique one two⟩

theorem biUnique_twinEdgeIds (paired : Paired pairs graph other) :
    Relator.BiUnique (TwinEdgeIds pairs graph other) := by
  constructor
  · rintro _ _ _ ⟨edge, twin, twins, rfl, rfl⟩ ⟨again, same, twinsAgain, rfl, id⟩
    cases eq_of_key_eq paired.right.settled.edgeIds twinsAgain.there twins.there id
    rw [paired.twinEdge_unique_left twins twinsAgain]
  · rintro _ _ _ ⟨edge, twin, twins, rfl, rfl⟩ ⟨again, same, twinsAgain, id, rfl⟩
    cases eq_of_key_eq paired.left.settled.edgeIds twinsAgain.here twins.here id
    rw [paired.twinEdge_unique twins twinsAgain]

theorem owner_left (paired : Paired pairs graph other) {pair : Document × Document}
    (member : pair ∈ pairs) {id : StatementId} {index : Nat} (found : pair.1.position? id = some index) :
    id.document = pair.1.id := by
  have sound := paired.left.sound _ (List.mem_map_of_mem member)
  obtain ⟨line, present, rfl⟩ := sound.position?_eq_some_iff.mp found
  exact (sound.owned line (List.mem_of_getElem? present)).1

theorem owner_right (paired : Paired pairs graph other) {pair : Document × Document}
    (member : pair ∈ pairs) {id : StatementId} {index : Nat} (found : pair.2.position? id = some index) :
    id.document = pair.2.id := by
  have sound := paired.right.sound _ (List.mem_map_of_mem member)
  obtain ⟨line, present, rfl⟩ := sound.position?_eq_some_iff.mp found
  exact (sound.owned line (List.mem_of_getElem? present)).1

theorem biUnique_sameLine (paired : Paired pairs graph other) : Relator.BiUnique pairs.SameLine := by
  constructor
  · rintro first second again ⟨pair, member, index, here, there⟩ ⟨other, among, place, hereToo, thereToo⟩
    have owner := paired.owner_right member there
    cases paired.pair_unique_right member among (owner.symm.trans (paired.owner_right among thereToo))
    cases there.symm.trans thereToo
    exact (paired.left.sound _ (List.mem_map_of_mem member)).eq_of_position? here hereToo
  · rintro again first second ⟨pair, member, index, here, there⟩ ⟨other, among, place, hereToo, thereToo⟩
    have owner := paired.owner_left member here
    cases paired.pair_unique member among (owner.symm.trans (paired.owner_left among hereToo))
    cases here.symm.trans hereToo
    exact (paired.right.sound _ (List.mem_map_of_mem member)).eq_of_position? there thereToo

theorem biUnique_samePlace (paired : Paired pairs graph other) : Relator.BiUnique pairs.SamePlace := by
  have lines := paired.biUnique_sameLine
  have ext {span again : SpanId} (statement : span.statement = again.statement)
      (side : span.side = again.side) (position : span.position = again.position) : span = again := by
    cases span
    cases again
    simp_all
  constructor
  · intro first second again one two
    obtain ⟨line, side, position⟩ := Pairing.samePlace_iff.mp one
    obtain ⟨lineToo, sideToo, positionToo⟩ := Pairing.samePlace_iff.mp two
    exact ext (lines.1 line lineToo) (side.symm.trans sideToo) (position.symm.trans positionToo)
  · intro again first second one two
    obtain ⟨line, side, position⟩ := Pairing.samePlace_iff.mp one
    obtain ⟨lineToo, sideToo, positionToo⟩ := Pairing.samePlace_iff.mp two
    exact ext (lines.2 line lineToo) (side.trans sideToo.symm) (position.trans positionToo.symm)

end Paired

/-- Twins list their spans and their edges in the same order. -/
structure SameOrder (pairs : Pairing) (graph other : Graph) : Prop where
  declarations : ∀ node twin, Twins pairs graph other node twin →
    OrderedSet.Rel pairs.SamePlace node.declarations twin.declarations
  sources : ∀ edge twin, TwinEdges pairs graph other edge twin →
    OrderedSet.Rel pairs.SamePlace edge.sources twin.sources
  outbounds : ∀ node twin, Twins pairs graph other node twin →
    List.Forall₂ (TwinEdges pairs graph other) (graph.outbounds node.id) (other.outbounds twin.id)

section Order

variable {document twin : Document}

theorem Pairing.samePlace_singleton {span again : SpanId} :
    Pairing.SamePlace [(document, twin)] span again ↔ Document.SamePlace document twin span again := by
  simp [Pairing.SamePlace]

theorem isBefore_of_samePlace {first second again other : SpanId}
    (same : Pairing.SamePlace [(document, twin)] first again)
    (sameToo : Pairing.SamePlace [(document, twin)] second other)
    (before : document.isBefore first second) : twin.isBefore again other := by
  obtain ⟨⟨index, found, twinFound⟩, _, position⟩ := Pairing.samePlace_singleton.mp same
  obtain ⟨⟨place, foundToo, twinFoundToo⟩, _, positionToo⟩ := Pairing.samePlace_singleton.mp sameToo
  obtain ⟨here, there, at_, atToo, order⟩ := Document.isBefore_iff.mp before
  cases found.symm.trans at_
  cases foundToo.symm.trans atToo
  exact Document.isBefore_iff.mpr ⟨index, place, twinFound, twinFoundToo, by rwa [position, positionToo]⟩

namespace Paired

variable (paired : Paired [(document, twin)] graph other)
include paired

/-- Sets of counterparts that are both in order list them in the same order. -/
theorem rel_samePlace {spans again : OrderedSet SpanId} (same : Pairing.SamePlaces [(document, twin)] spans again)
    (sorted : spans.toList.Pairwise fun first second => document.isBefore first second)
    (sortedToo : again.toList.Pairwise fun first second => twin.isBefore first second) :
    OrderedSet.Rel (Pairing.SamePlace [(document, twin)]) spans again := by
  refine forall₂_of_pairwise paired.biUnique_samePlace Document.not_isBefore_self
    Document.not_isBefore_self ?_ sorted sortedToo same.1 same.2
  exact fun _ _ _ _ same sameToo before =>
    Document.not_isBefore_of_isBefore (isBefore_of_samePlace same sameToo before)

theorem biUnique_twinEdges : Relator.BiUnique (TwinEdges [(document, twin)] graph other) :=
  ⟨fun _ _ _ one two => paired.twinEdge_unique_left one two, fun _ _ _ one two => paired.twinEdge_unique one two⟩

theorem leads_of_twinEdges {first second again last : Edge}
    (same : TwinEdges [(document, twin)] graph other first again)
    (sameToo : TwinEdges [(document, twin)] graph other second last)
    (leads : Edge.Leads document first second) : Edge.Leads twin again last := by
  obtain ⟨source, listed, front⟩ := leads
  obtain ⟨counterpart, among, place⟩ := (paired.sources same).1 source listed
  refine ⟨counterpart, among, fun later member => ?_⟩
  obtain ⟨origin, behind, placeToo⟩ := (paired.sources sameToo).2 later member
  exact isBefore_of_samePlace place placeToo (front origin behind)

/-- In order, paired graphs list everything in the same order. -/
theorem sameOrder (inOrder : graph.InOrder document) (inOrderToo : other.InOrder twin) :
    SameOrder [(document, twin)] graph other where
  declarations node again twins := paired.rel_samePlace (paired.declarations twins)
    (inOrder.declarations node twins.here) (inOrderToo.declarations again twins.there)
  sources edge again twins := by
    obtain ⟨node, opposite, nodes, leaves, leavesToo⟩ := twins.predecessor
    have outbound : edge ∈ graph.outbounds node.id := mem_outbounds.mpr ⟨twins.here, leaves.symm⟩
    have outboundToo : again ∈ other.outbounds opposite.id := mem_outbounds.mpr ⟨twins.there, leavesToo.symm⟩
    exact paired.rel_samePlace (paired.sources twins)
      ((inOrder.outbounds node nodes.here).sources edge outbound)
      ((inOrderToo.outbounds opposite nodes.there).sources again outboundToo)
  outbounds node again twins := by
    refine forall₂_of_pairwise paired.biUnique_twinEdges Edge.not_leads_self Edge.not_leads_self ?_
      (inOrder.outbounds node twins.here).leads (inOrderToo.outbounds again twins.there).leads ?_ ?_
    · exact fun _ _ _ _ same sameToo leads =>
        Edge.not_leads_of_leads (paired.leads_of_twinEdges same sameToo leads)
    · intro edge member
      obtain ⟨here, leaves⟩ := mem_outbounds.mp member
      obtain ⟨opposite, same⟩ := paired.exists_twinEdge twins here leaves
      have ids : TwinIds [(document, twin)] graph other node.id opposite.predecessor := leaves ▸ same.predecessor
      exact ⟨opposite, mem_outbounds.mpr
        ⟨same.there, paired.twinIds_unique ids ⟨node, again, twins, rfl, rfl⟩⟩, same⟩
    · intro edge member
      obtain ⟨there, leaves⟩ := mem_outbounds.mp member
      obtain ⟨opposite, same⟩ := paired.exists_twinEdge_back twins there leaves
      have ids : TwinIds [(document, twin)] graph other opposite.predecessor again.id := leaves ▸ same.predecessor
      exact ⟨opposite, mem_outbounds.mpr
        ⟨same.here, paired.twinIds_unique_left ids ⟨node, again, twins, rfl, rfl⟩⟩, same⟩

end Paired

end Order

end Graph

open OutlineTypes.Graph

/-- The lines whose indent mixes tabs and spaces. -/
def Document.misindented (document : Document) : List (Document × Statement) :=
  (document.statements.filter fun line => line.mixed && !line.noop).map (document, ·)

/-- The edges out of nodes of paired documents. -/
def Graph.Pairing.edges (pairs : Pairing) (graph : Graph) : List EdgeId :=
  (graph.edges.filter fun edge => (graph.node? edge.predecessor).any fun node => pairs.Covers node.path.document).map
    Edge.id

/-- What other documents say stands in their own lines. -/
structure Graph.Pairing.Apart (pairs : Pairing) (graph : Graph) : Prop where
  declarations : ∀ node ∈ graph.nodes, ¬pairs.Covers node.path.document →
    ∀ span ∈ node.declarations, ¬pairs.Covers span.statement.document
  sources : ∀ edge ∈ graph.edges, edge.id ∉ pairs.edges graph →
    ∀ span ∈ edge.sources, ¬pairs.Covers span.statement.document

/-- The first scene shows the one side of a pairing and the second scene the other, in the same order. A document
without lines need not be there. -/
structure TwinScenes (pairs : Pairing) (first second : Scene) : Prop where
  paired : Paired pairs first.graph second.graph
  order : SameOrder pairs first.graph second.graph
  checks : second.checksContracts = first.checksContracts
  apart : pairs.Apart first.graph
  sound : ∀ document ∈ first.documents.values, document.Sound
  left : (Session.misindented first.documents).filter (fun place => pairs.Covers place.1.id) =
    (pairs.map Prod.fst).flatMap Document.misindented
  right : Session.misindented second.documents = (pairs.map Prod.snd).flatMap Document.misindented
  findLeft : ∀ pair ∈ pairs, pair.1.statements ≠ [] → first.documents.find? pair.1.id = some pair.1
  findRight : ∀ pair ∈ pairs, pair.2.statements ≠ [] → second.documents.find? pair.2.id = some pair.2

namespace TwinScenes

variable {pairs : Pairing} {first second : Scene}

theorem node? (scenes : TwinScenes pairs first second) {id again : NodeId}
    (same : TwinIds pairs first.graph second.graph id again) :
    ∃ node twin, first.graph.node? id = some node ∧ second.graph.node? again = some twin ∧
      Twins pairs first.graph second.graph node twin := by
  obtain ⟨node, twin, twins, rfl, rfl⟩ := same
  exact ⟨node, twin, scenes.paired.left.settled.node?_id twins.here,
    scenes.paired.right.settled.node?_id twins.there, twins⟩

theorem mem_edges (scenes : TwinScenes pairs first second) {id again : EdgeId}
    (same : TwinEdgeIds pairs first.graph second.graph id again) : id ∈ pairs.edges first.graph := by
  obtain ⟨edge, twin, twins, rfl, rfl⟩ := same
  obtain ⟨node, opposite, nodes, leaves, _⟩ := twins.predecessor
  refine List.mem_map_of_mem (List.mem_filter.mpr ⟨twins.here, ?_⟩)
  rw [← leaves, scenes.paired.left.settled.node?_id nodes.here, Option.any_some]
  exact decide_eq_true (Pairing.covers_of_samePath nodes.path).1

end TwinScenes

/-- The edges out of one node are all of paired documents or none of them is. -/
theorem Graph.Framed.mem_pairing_edges_iff {graph : Graph} (framed : graph.Framed) {pairs : Pairing} {edge : Edge}
    (listed : edge ∈ graph.edges) {node : Node} (member : node ∈ graph.nodes) (leaves : node.id = edge.predecessor) :
    edge.id ∈ pairs.edges graph ↔ pairs.Covers node.path.document := by
  have here {other : Edge} (among : other ∈ graph.edges) (same : other.id = edge.id) : other = edge :=
    eq_of_key_eq framed.edgeIds among listed same
  have found : graph.node? edge.predecessor = some node := leaves ▸ framed.node?_id member
  simp only [Graph.Pairing.edges, List.mem_map, List.mem_filter]
  constructor
  · rintro ⟨other, ⟨among, covered⟩, same⟩
    rw [here among same, found] at covered
    simpa using covered
  · intro covered
    exact ⟨edge, ⟨listed, by simpa [found] using covered⟩, rfl⟩

end OutlineTypes
