import OutlineTypes.Proofs.Ordered
import OutlineTypes.Proofs.Workspace.Content
import OutlineTypes.Proofs.Workspace.Rest

/-! The faults of the current session. What is cruft, what is at fault and what is left of contracts say the
same after any history, whatever was drilled and in whatever order. -/
namespace OutlineTypes

namespace Document.Sound

variable {document : Document} {line : Statement}

/-- A span is found in its line by its identity. -/
theorem span?_eq_some (sound : document.Sound) (member : line ∈ document.statements) {side : Side} {span : Span}
    (listed : span ∈ line.side side) : line.span? span.id = some span := by
  obtain ⟨position, found⟩ := List.mem_iff_getElem?.mp listed
  have numbered := congrArg (·[position]?) (sound.ids_side member side)
  obtain ⟨inside, _⟩ := List.getElem?_eq_some_iff.mp found
  simp only [List.getElem?_map, found, Option.map_some, List.getElem?_range inside, Option.some.injEq] at numbered
  simp only [Statement.span?, numbered, ↓reduceIte, found]

theorem exists_atStatement? (sound : document.Sound) (member : line ∈ document.statements) (kind : FaultKind) :
    ∃ fault, Fault.atStatement? kind document line.id = some fault := by
  obtain ⟨index, found⟩ := List.mem_iff_getElem?.mp member
  have position := sound.position?_eq_some_iff.mpr ⟨line, found, rfl⟩
  have here : document.get? index = some line := found
  exact ⟨_, by simp only [Fault.atStatement?, position, here, Option.bind_eq_bind, Option.bind_some]; rfl⟩

theorem exists_atSpan? (sound : document.Sound) (member : line ∈ document.statements) {side : Side} {span : Span}
    (listed : span ∈ line.side side) (own : span.id.statement = line.id) (kind : FaultKind) :
    ∃ fault, Fault.atSpan? kind document span.id = some fault := by
  obtain ⟨index, found⟩ := List.mem_iff_getElem?.mp member
  have position := sound.position?_eq_some_iff.mpr ⟨line, found, rfl⟩
  have here : document.get? index = some line := found
  exact ⟨_, by simp only [Fault.atSpan?, own, position, here, sound.span?_eq_some member listed,
    Option.bind_eq_bind, Option.bind_some]; rfl⟩

end Document.Sound

namespace Session

variable {scene : Scene} {session : Session}

theorem ids_misindented (documents : Documents) : (misindented documents).map (·.2.id) =
    documents.values.flatMap fun document =>
      (document.statements.filter fun line => line.mixed && !line.noop).map Statement.id := by
  simp only [misindented, List.map_flatMap, List.map_map]
  rfl

/-- Lines that are counted and not kept have no indent. -/
theorem ids_misindented_insert {documents : Documents} {id : DocumentId} {document : Document}
    (found : documents.find? id = some document) (serial : Nat) :
    (misindented (documents.insert id { document with nextSerial := serial })).map (·.2.id) =
      (misindented documents).map (·.2.id) := by
  simp only [ids_misindented, OrderedMap.values, OrderedMap.entries_insert found, List.map_map, List.flatMap_map]
  refine List.flatMap_congr fun entry member => ?_
  have bound := documents.find?_eq_some_iff.mpr member
  by_cases here : entry.1 = id
  · cases found.symm.trans (here ▸ bound)
    simp only [Function.comp, here, ↓reduceIte]
  · simp only [Function.comp, here, ↓reduceIte]

theorem balanced_prepare (located : scene.Located) (version : Nat) :
    ((empty version).prepare scene).Balanced scene := by
  obtain ⟨tallied, silent⟩ := tallied_prepare located version
  have settled : ((empty version).prepare scene).settled = [] := (calm_prepare (empty version) scene).settled
  refine ⟨located, tallied, fun statement => ?_⟩
  simp [FaultLog.Accuses, silent, settled]

/-- Marks, faults and contracts, side by side. -/
structure Reconciled (scene : Scene) (session : Session) : Prop where
  /-- A line with a mixed indent has one fault about it. -/
  misindented : ∀ document ∈ scene.documents.values, ∀ line ∈ document.statements, line.mixed →
    line.noop = false → ((session.faults.ofKind .tabs).filter (·.statement = line.id)).length = 1
  /-- No other line has any. -/
  indents : ∀ fault ∈ session.faults.ofKind .tabs, ∃ document ∈ scene.documents.values,
    ∃ line ∈ document.statements, line.id = fault.statement ∧ line.mixed ∧ line.noop = false
  nodes : ∀ node ∈ scene.graph.nodes, session.cruft.hasNode node.id →
    ∀ span ∈ node.declarations, session.cruft.hasSpan span
  edges : ∀ edge ∈ scene.graph.edges, session.cruft.hasEdge edge.id →
    ∀ span ∈ edge.sources, session.cruft.hasSpan span
  /-- A span is marked as unresolved or circular if and only if one fault says so. -/
  spans : ∀ kind, kind = .unresolved ∨ kind = .circular → ∀ span,
    session.cruft.reason? (.span span) = some kind ↔ (session.faults.naming kind span).length = 1
  /-- No span has two faults, of one of these kinds or of both. -/
  single : ∀ span,
    (session.faults.naming .unresolved span ++ session.faults.naming .circular span).length ≤ 1
  /-- A statement is accused if and only if it declares the node of a parallel whose contract is not satisfied. -/
  contracts : ∀ statement, session.faults.Accuses statement ↔ ∃ parallel ∈ session.parallels,
    ∃ resolved contract, parallel.explicit = some resolved ∧ resolved.contract = some contract ∧
      contract.hasUnsatisfied ∧ ∃ node ∈ scene.graph.nodes, node.id = resolved.node ∧
        ∃ span ∈ node.declarations, span.statement = statement

theorem AtRest.reconciled (rest : session.AtRest scene) (framed : scene.graph.Framed)
    (balanced : session.Balanced scene) : session.Reconciled scene := by
  obtain ⟨located, ⟨groundless, named, indents⟩, accuses⟩ := balanced
  have among {id : StatementId} : id ∈ (session.faults.ofKind .tabs).map (·.statement) ↔
      ∃ document ∈ scene.documents.values, ∃ line ∈ document.statements, line.id = id ∧ line.mixed ∧
        line.noop = false := by
    simp only [indents, List.mem_map, mem_misindented, Prod.exists]
    constructor
    · rintro ⟨document, line, ⟨listed, member, mixed, kept⟩, rfl⟩
      exact ⟨document, listed, line, member, rfl, mixed, kept⟩
    · rintro ⟨document, listed, line, member, rfl, mixed, kept⟩
      exact ⟨document, line, ⟨listed, member, mixed, kept⟩, rfl⟩
  refine ⟨fun document listed line member mixed kept => ?_, fun fault listed => ?_, fun node member marked => ?_,
    fun edge member marked => ?_, fun kind blames span => ?_, fun span => ?_, fun statement => ?_⟩
  · have distinct : ((session.faults.ofKind .tabs).map (·.statement)).Nodup := indents ▸ located.distinct
    have once := List.count_eq_one_of_mem distinct (among.mpr ⟨document, listed, line, member, rfl, mixed, kept⟩)
    rw [List.count, List.countP_map, List.countP_eq_length_filter] at once
    exact once
  · exact among.mp (List.mem_map_of_mem listed)
  · intro span declares
    refine groundless (.node node.id) marked span ?_
    simp only [Cruft.spansBehind, framed.node?_id member]
    simpa using OrderedSet.mem_def.mp declares
  · intro span asserts
    have found : scene.graph.edge? edge.id = some edge := (find?_key_eq_some_iff framed.edgeIds).mpr ⟨member, rfl⟩
    refine groundless (.edge edge.id) marked span ?_
    simp only [Cruft.spansBehind, found]
    simpa using OrderedSet.mem_def.mp asserts
  · have blamesName : kind.blamesName := by rcases blames with rfl | rfl <;> rfl
    rw [named kind blamesName span]
    split <;> simp [*]
  · rw [List.length_append, named .unresolved rfl span, named .circular rfl span]
    cases session.cruft.reason? (.span span) with
    | none => simp
    | some kind => cases kind <;> simp
  · rw [accuses, false_or]
    constructor
    · rintro ⟨id, _, parallel, resolved, contract, node, found, explicit, current, left, member, same, declares⟩
      exact ⟨parallel, List.mem_of_getElem? found, resolved, contract, explicit, current, left, node, member, same,
        declares⟩
    · rintro ⟨parallel, listed, resolved, contract, explicit, current, left, node, member, same, declares⟩
      obtain ⟨id, found⟩ := exists_of_mem listed
      exact ⟨id, rest.settled id parallel found, parallel, resolved, contract, node, found, explicit, current, left,
        member, same, declares⟩

end Session

namespace Workspace

variable {workspace next : Workspace}

namespace Synchronised

variable (synchronised : workspace.Synchronised)

include synchronised in
theorem sound_of_mem {document : Document} (listed : document ∈ workspace.documents.values) : document.Sound :=
  (synchronised.belongs _ document (synchronised.document?_of_mem listed)).sound

include synchronised in
theorem find?_of_line {document : Document} (listed : document ∈ workspace.documents.values) {line : Statement}
    (member : line ∈ document.statements) : workspace.documents.find? line.id.document = some document := by
  rw [((synchronised.sound_of_mem listed).owned line member).1]
  exact synchronised.document?_of_mem listed

include synchronised in
theorem distinct_misindented : ((Session.misindented workspace.documents).map (·.2.id)).Nodup := by
  rw [Session.ids_misindented, List.nodup_flatMap]
  constructor
  · intro document listed
    exact (synchronised.sound_of_mem listed).ids.sublist (List.filter_sublist.map _)
  · refine (List.pairwise_map.mp synchronised.portrays.distinct).imp_of_mem fun {one other} listed among apart => ?_
    intro id here there
    obtain ⟨line, member, rfl⟩ := List.mem_map.mp here
    obtain ⟨twin, also, same⟩ := List.mem_map.mp there
    have owner := ((synchronised.sound_of_mem listed).owned line (List.mem_filter.mp member).1).1
    have again := ((synchronised.sound_of_mem among).owned twin (List.mem_filter.mp also).1).1
    exact apart (by rw [← owner, ← again, same])

include synchronised in
/-- All that the graph says has its place in a document. -/
theorem located : workspace.scene.Located where
  sources edge member span asserts kind := by
    obtain ⟨node, among, outbound⟩ := synchronised.exact.predecessors edge member
    obtain ⟨document, listed, index, line, found, _, _, gloss, annotates, _, rfl⟩ :=
      (synchronised.exact.sources node among edge outbound span).mp asserts
    have here : line ∈ document.statements := List.mem_of_getElem? found
    have sound := synchronised.sound_of_mem listed
    have own := sound.statement_of_annotated here annotates
    have asserted : gloss ∈ line.side .annotated := annotates
    obtain ⟨fault, at_⟩ := sound.exists_atSpan? here asserted own kind
    exact ⟨fault, Option.bind_eq_some_iff.mpr ⟨document, own ▸ synchronised.find?_of_line listed here, at_⟩⟩
  declarations node member span declares kind := by
    obtain ⟨document, listed, index, line, found, _, declared, among, rfl, _⟩ :=
      (synchronised.exact.declarations node member span).mp declares
    have here : line ∈ document.statements := List.mem_of_getElem? found
    have sound := synchronised.sound_of_mem listed
    have own := sound.statement_of_declared here among
    obtain ⟨fault, at_⟩ := sound.exists_atStatement? here kind
    rw [← own] at at_
    exact ⟨fault, Option.bind_eq_some_iff.mpr ⟨document, own ▸ synchronised.find?_of_line listed here, at_⟩⟩
  lines place listed kind := by
    obtain ⟨among, member, _⟩ := Session.mem_misindented.mp listed
    exact (synchronised.sound_of_mem among).exists_atStatement? member kind
  distinct := synchronised.distinct_misindented

end Synchronised

/-- The ledger of the current session is balanced. -/
def Balanced (workspace : Workspace) : Prop := workspace.session.Balanced workspace.scene

namespace Balanced

theorem of_unopened (synchronised : workspace.Synchronised) (unopened : workspace.session? = none) :
    workspace.Balanced := by
  rw [Balanced, session_of_unopened unopened]
  exact Session.balanced_prepare synchronised.located workspace.version

theorem refuse (balanced : workspace.Balanced) (rested : workspace.Rested) {id : DocumentId}
    (refused : Synchronised.Refused workspace id next) (synchronised : next.Synchronised) : next.Balanced := by
  rcases refused with rfl | ⟨document, serial, found, _, rfl⟩
  · exact balanced
  cases current : workspace.session? with
  | none => exact .of_unopened synchronised current
  | some session =>
    rw [Balanced, rested.session_recount current]
    exact Session.Balanced.congr_scene balanced synchronised.located rfl
      (Session.ids_misindented_insert found serial)

end Balanced

theorem Synchronised.serve_balanced (synchronised : workspace.Synchronised) (rested : workspace.Rested)
    (balanced : workspace.Balanced) (request : Request) : Ensures (workspace.serve request) Balanced := by
  by_cases asks : request.asks
  · refine (synchronised.serve_resumes rested asks).mono fun next resumes => ?_
    rw [Balanced, resumes.scene]
    exact resumes.balances balanced
  · have decides := (synchronised.serve_decides asks).and_ensures (synchronised.serve_succeeds request).ensures
    refine decides.ensures.mono fun next ⟨decided, served⟩ => ?_
    rcases decided with ⟨document, revised⟩ | ⟨id, refused⟩
    · exact .of_unopened served.synchronised (synchronised.session?_eq_none revised.opened revised.version)
    · exact balanced.refuse rested refused served.synchronised

theorem history_balanced (options : Options) (requests : List Request) :
    Succeeds ((empty options).serveAll requests) fun workspace =>
      workspace.Synchronised ∧ workspace.Rested ∧ workspace.Balanced :=
  (synchronised_empty options).serveAll_keeps (.of_unopened rfl) (.of_unopened (synchronised_empty options) rfl)
    (fun _ synchronised rested balanced => synchronised.serve_balanced rested balanced) requests

/-- After any history what is cruft, what is at fault and what is left of contracts say the same. -/
theorem history_reconciled (options : Options) (requests : List Request) :
    ∃ workspace, (empty options).serveAll requests = .ok workspace ∧
      workspace.session.Reconciled workspace.scene := by
  obtain ⟨workspace, reached, synchronised, rested, balanced⟩ := history_balanced options requests
  exact ⟨workspace, reached, rested.atRest_session.2.reconciled synchronised.settled.toFramed balanced⟩

/-- An annotation of two types at once makes two edges, and one fault. -/
theorem shared_annotation_reported_once : ∃ workspace, (empty ⟨4, true⟩).serveAll
      [.add "A, B : X", .drill ⟨0⟩ "A", .drill ⟨0⟩ "B"] = .ok workspace ∧
    workspace.session.Reconciled workspace.scene ∧ workspace.session.cruft.edges.size = 2 ∧
      workspace.session.faults.faults.length = 1 := by
  obtain ⟨workspace, reached, reconciled⟩ :=
    history_reconciled ⟨4, true⟩ [.add "A, B : X", .drill ⟨0⟩ "A", .drill ⟨0⟩ "B"]
  have evaluated : ((empty ⟨4, true⟩).serveAll [.add "A, B : X", .drill ⟨0⟩ "A", .drill ⟨0⟩ "B"]).map
      (fun workspace => (workspace.session.cruft.edges.size, workspace.session.faults.faults.length)) =
        .ok (2, 1) := by
    decide +kernel
  rw [reached, Except.map, Except.ok.injEq, Prod.mk.injEq] at evaluated
  exact ⟨workspace, reached, reconciled, evaluated.1, evaluated.2⟩

end Workspace
end OutlineTypes
