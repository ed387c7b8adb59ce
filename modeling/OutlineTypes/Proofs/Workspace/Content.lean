import OutlineTypes.Proofs.Graph.Portrait
import OutlineTypes.Proofs.Workspace.Synchronisation

/-! What the graph of a workspace says. After every history it is exactly what the documents declare, so
that workspaces with the same lines have the same graph up to identities and order. -/
namespace OutlineTypes

theorem Graph.Portrays.perm {graph : Graph} {documents again : List Document}
    (portrays : graph.Portrays documents) (perm : again.Perm documents) : graph.Portrays again where
  settled := portrays.settled
  sound document member := portrays.sound document (perm.subset member)
  distinct := (perm.map _).nodup_iff.mpr portrays.distinct
  mirrors document member := portrays.mirrors document (perm.subset member)
  present node member := by
    obtain ⟨document, listed, owner⟩ := portrays.present node member
    exact ⟨document, perm.symm.subset listed, owner⟩

namespace Workspace

variable {workspace : Workspace}

/-- The graph is the declared content of the documents, as sets. -/
structure Exact (workspace : Workspace) : Prop where
  nodes : ∀ path, (∃ node ∈ workspace.graph.nodes, node.path = path) ↔
    ∃ document ∈ workspace.documents.values, ∃ span, document.Declares path span
  declarations : ∀ node ∈ workspace.graph.nodes, ∀ span, span ∈ node.declarations ↔
    ∃ document ∈ workspace.documents.values, document.Declares node.path span
  outbounds : ∀ node ∈ workspace.graph.nodes, ∀ subject,
    (∃ edge ∈ workspace.graph.outbounds node.id, edge.subject = subject) ↔
      ∃ document ∈ workspace.documents.values, ∃ source, document.Annotates node.path subject source
  sources : ∀ node ∈ workspace.graph.nodes, ∀ edge ∈ workspace.graph.outbounds node.id, ∀ source,
    source ∈ edge.sources ↔
      ∃ document ∈ workspace.documents.values, document.Annotates node.path edge.subject source
  /-- One node for a path, one edge of a subject for a node, and no edge without a node. -/
  paths : (workspace.graph.nodes.map Node.path).Nodup
  assertions : (workspace.graph.edges.map fun edge => (edge.predecessor, edge.subject)).Nodup
  predecessors : ∀ edge ∈ workspace.graph.edges, ∃ node ∈ workspace.graph.nodes,
    edge ∈ workspace.graph.outbounds node.id

/-- The pairing takes every document of either workspace to one with the same lines. -/
structure Matches (workspace other : Workspace) (pairs : Graph.Pairing) : Prop where
  left : (pairs.map Prod.fst).Perm workspace.documents.values
  right : (pairs.map Prod.snd).Perm other.documents.values
  texts : ∀ pair ∈ pairs, pair.2.statements.map Statement.text = pair.1.statements.map Statement.text

namespace Synchronised

theorem document?_of_mem (synchronised : workspace.Synchronised) {document : Document}
    (member : document ∈ workspace.documents.values) :
    workspace.document? document.id = some document := by
  obtain ⟨id, found⟩ := (OrderedMap.mem_values_iff _ _).mp member
  rw [(synchronised.belongs id document found).owner]
  exact found

theorem portrays (synchronised : workspace.Synchronised) :
    workspace.graph.Portrays workspace.documents.values where
  settled := synchronised.settled
  sound document member :=
    (synchronised.belongs _ document (synchronised.document?_of_mem member)).sound
  distinct := by
    have keys : workspace.documents.values.map Document.id = workspace.documents.keys := by
      rw [OrderedMap.values, OrderedMap.keys, List.map_map]
      refine List.map_congr_left fun entry member => ?_
      have found : workspace.documents.find? entry.1 = some entry.2 := by
        rw [OrderedMap.find?, (find?_key_eq_some_iff workspace.documents.nodup).mpr ⟨member, rfl⟩]
        rfl
      exact (synchronised.belongs entry.1 entry.2 found).owner
    rw [keys]
    exact workspace.documents.nodup
  mirrors document member := synchronised.mirrors _ document (synchronised.document?_of_mem member)
  present node member := by
    obtain ⟨document, found⟩ := synchronised.exists_document member
    exact ⟨document, (OrderedMap.mem_values_iff _ _).mpr ⟨_, found⟩,
      (synchronised.belongs _ document found).owner⟩

theorem declares_iff (synchronised : workspace.Synchronised) (path : TypePath) (span : SpanId) :
    workspace.graph.Declares path span ↔
      ∃ document ∈ workspace.documents.values, document.Declares path span := by
  have portrays := synchronised.portrays
  constructor
  · intro declared
    obtain ⟨node, member, rfl, _⟩ := id declared
    obtain ⟨document, listed, owner⟩ := portrays.present node member
    exact ⟨document, listed, ((portrays.mirrors document listed).declares _ span owner.symm).mp declared⟩
  · rintro ⟨document, listed, declared⟩
    have ours := Document.document_of_declares declared
    exact ((portrays.mirrors document listed).declares path span ours).mpr declared

theorem asserts_iff (synchronised : workspace.Synchronised) (path : TypePath) (subject : Name)
    (source : SpanId) : workspace.graph.Asserts path subject source ↔
      ∃ document ∈ workspace.documents.values, document.Annotates path subject source := by
  have portrays := synchronised.portrays
  constructor
  · intro asserted
    obtain ⟨node, member, rfl, _⟩ := id asserted
    obtain ⟨document, listed, owner⟩ := portrays.present node member
    exact ⟨document, listed,
      ((portrays.mirrors document listed).asserts _ subject source owner.symm).mp asserted⟩
  · rintro ⟨document, listed, annotated⟩
    have ours := Document.document_of_annotates annotated
    exact ((portrays.mirrors document listed).asserts path subject source ours).mpr annotated

theorem exact (synchronised : workspace.Synchronised) : workspace.Exact where
  nodes path := by
    constructor
    · intro stands
      obtain ⟨span, declared⟩ := synchronised.settled.exists_declares stands
      obtain ⟨document, listed, declared⟩ := (synchronised.declares_iff path span).mp declared
      exact ⟨document, listed, span, declared⟩
    · rintro ⟨document, listed, span, declared⟩
      exact ((synchronised.declares_iff path span).mpr ⟨document, listed, declared⟩).hasNode
  declarations node member span := by
    rw [← synchronised.declares_iff, synchronised.settled.declares_iff_mem_declarations member]
  outbounds node member subject := by
    have settled := synchronised.settled
    constructor
    · rintro ⟨edge, outbound, rfl⟩
      obtain ⟨listed, predecessor⟩ := List.mem_filter.mp outbound
      obtain ⟨source, among⟩ := OrderedSet.exists_mem_of_isEmpty_eq_false (settled.edges edge listed)
      have asserted := (settled.asserts_iff_mem_sources listed member (of_decide_eq_true predecessor)).mpr among
      obtain ⟨document, present, annotated⟩ := (synchronised.asserts_iff _ _ source).mp asserted
      exact ⟨document, present, source, annotated⟩
    · rintro ⟨document, present, source, annotated⟩
      obtain ⟨again, among, same, edge, listed, predecessor, subject, _⟩ :=
        (synchronised.asserts_iff _ _ source).mpr ⟨document, present, annotated⟩
      cases eq_of_key_eq settled.paths among member same
      exact ⟨edge, List.mem_filter.mpr ⟨listed, by simp [predecessor]⟩, subject⟩
  sources node member edge outbound source := by
    obtain ⟨listed, predecessor⟩ := List.mem_filter.mp outbound
    rw [← synchronised.asserts_iff,
      synchronised.settled.asserts_iff_mem_sources listed member (of_decide_eq_true predecessor)]
  paths := synchronised.settled.paths
  assertions := synchronised.settled.assertions
  predecessors edge member := by
    obtain ⟨node, among, predecessor⟩ := synchronised.settled.predecessors edge member
    exact ⟨node, among, List.mem_filter.mpr ⟨member, by simp [predecessor]⟩⟩

theorem matched {other : Workspace} (synchronised : workspace.Synchronised) (again : other.Synchronised)
    (tabSize : other.options.tabSize = workspace.options.tabSize) {pairs : Graph.Pairing}
    (matching : workspace.Matches other pairs) :
    Graph.Matched pairs workspace.graph other.graph where
  left := (synchronised.portrays.perm matching.left).toShows
  right := (again.portrays.perm matching.right).toShows
  covered node member := by
    obtain ⟨document, listed, owner⟩ := (synchronised.portrays.perm matching.left).present node member
    obtain ⟨pair, among, rfl⟩ := List.mem_map.mp listed
    exact ⟨pair, among, owner⟩
  coveredToo node member := by
    obtain ⟨document, listed, owner⟩ := (again.portrays.perm matching.right).present node member
    obtain ⟨pair, among, rfl⟩ := List.mem_map.mp listed
    exact ⟨pair, among, owner⟩
  like pair member := by
    have first := matching.left.subset (List.mem_map_of_mem (f := Prod.fst) member)
    have second := matching.right.subset (List.mem_map_of_mem (f := Prod.snd) member)
    have here := synchronised.belongs _ _ (synchronised.document?_of_mem first)
    have there := again.belongs _ _ (again.document?_of_mem second)
    exact Document.likewise_of_texts here.sound there.sound
      (there.tabSize.trans (tabSize.trans here.tabSize.symm)) (matching.texts pair member)

end Synchronised

/-- After any history the graph is exactly what the documents declare, and it is the same, up to
identities and order, after any other history that leads to the same lines. -/
theorem history_exact (options : Options) (requests : List Request) :
    ∃ workspace, (empty options).serveAll requests = .ok workspace ∧ workspace.Exact ∧
      ∀ others again other, (empty others).serveAll again = .ok other →
        others.tabSize = options.tabSize → ∀ pairs, workspace.Matches other pairs →
          Graph.Isomorphic pairs workspace.graph other.graph := by
  obtain ⟨workspace, reached, served⟩ := history_succeeds options requests
  refine ⟨workspace, reached, served.synchronised.exact, ?_⟩
  intro others again other reachedAgain tabSize pairs matching
  have servedAgain := (history_succeeds others again).post_of_eq reachedAgain
  have sizes : other.options.tabSize = workspace.options.tabSize := by
    rw [servedAgain.options, served.options]
    exact tabSize
  exact (served.synchronised.matched servedAgain.synchronised sizes matching).isomorphic

/-- The lines of each document. -/
def lines (workspace : Workspace) : List (List String) :=
  workspace.documents.values.map fun document => document.statements.map Statement.text

theorem edited_isomorphic_to_loaded : ∃ edited loaded pairs,
    (empty ⟨4, true⟩).serveAll [.add "A : B", .edit ⟨0⟩ [.insert 1 "B"]] = .ok edited ∧
    (empty ⟨4, true⟩).serveAll [.add "A : B\nB"] = .ok loaded ∧
    edited.Matches loaded pairs ∧ Graph.Isomorphic pairs edited.graph loaded.graph := by
  obtain ⟨edited, reached, _, same⟩ :=
    history_exact ⟨4, true⟩ [.add "A : B", .edit ⟨0⟩ [.insert 1 "B"]]
  obtain ⟨loaded, reachedAgain, _⟩ := history_exact ⟨4, true⟩ [.add "A : B\nB"]
  have first : edited.lines = [["A : B", "B"]] :=
    Except.ok.inj ((congrArg (Except.map lines) reached).symm.trans (by decide +kernel))
  have second : loaded.lines = [["A : B", "B"]] :=
    Except.ok.inj ((congrArg (Except.map lines) reachedAgain).symm.trans (by decide +kernel))
  obtain ⟨document, values, texts⟩ := List.map_eq_singleton_iff.mp first
  obtain ⟨again, valuesAgain, textsAgain⟩ := List.map_eq_singleton_iff.mp second
  have matching : edited.Matches loaded [(document, again)] :=
    ⟨values ▸ .refl _, valuesAgain ▸ .refl _, by simp [texts, textsAgain]⟩
  exact ⟨edited, loaded, _, reached, reachedAgain, matching,
    same ⟨4, true⟩ _ loaded reachedAgain rfl _ matching⟩

end Workspace
end OutlineTypes
