import OutlineTypes.Proofs.Faults
import OutlineTypes.Proofs.Resolution.Reachability

/-! The ledger of a session. Preparing, raking and cutting all write marks and faults, and between them each
span that annotates a node is reported once, for the reason it is marked with. A contract is accused in the
lines that declare its node, once its parallel is raked to the end. -/
namespace OutlineTypes

/-- What the graph was declared by stands in the documents, so that faults about it have a place. -/
structure Scene.Located (scene : Scene) : Prop where
  sources : ∀ edge ∈ scene.graph.edges, ∀ span ∈ edge.sources, span.LocatedIn scene.documents
  declarations : ∀ node ∈ scene.graph.nodes, ∀ span ∈ node.declarations,
    span.statement.LocatedIn scene.documents
  lines : ∀ place ∈ Session.misindented scene.documents, ∀ kind, ∃ fault,
    Fault.atStatement? kind place.1 place.2.id = some fault
  distinct : ((Session.misindented scene.documents).map (·.2.id)).Nodup

namespace Session

variable {scene : Scene} {state : Cruft × FaultLog} {kind : FaultKind} {target : CruftTarget}

section Tally

/-- A span has one fault of the kind it is marked with, and none of any other kind that blames a name. -/
def Named (state : Cruft × FaultLog) : Prop := ∀ kind : FaultKind, kind.blamesName → ∀ span,
  (state.2.naming kind span).length = if state.1.reason? (.span span) = some kind then 1 else 0

/-- How marks and faults of a scene agree. -/
structure Tallied (scene : Scene) (state : Cruft × FaultLog) : Prop where
  groundless : ∀ target, state.1.has target → Groundless scene state.1 target
  named : Named state
  misindented : (state.2.ofKind .tabs).map (·.statement) = (misindented scene.documents).map (·.2.id)

/-- There is no fault yet about a span without a mark. -/
theorem Named.fresh (named : Named state) (blames : kind.blamesName) {id : SpanId}
    (unmarked : state.1.reason? (.span id) = none) {fault : Fault}
    (place : fault.place = (kind, id.statement, some id)) : state.2.holds fault.place = false := by
  by_contra held
  rw [Bool.not_eq_false, FaultLog.holds_iff, place] at held
  obtain ⟨other, listed, _, about⟩ := held
  have none := named kind blames id
  simp only [unmarked, reduceCtorEq, ↓reduceIte, List.length_eq_zero_iff] at none
  have member : other ∈ state.2.naming kind id := List.mem_filter.mpr ⟨listed, decide_eq_true about⟩
  simp [none] at member

theorem Named.addSpan (named : Named state) (blames : kind.blamesName) {documents : Documents} {id : SpanId}
    (located : id.LocatedIn documents) : Named (Cruft.addSpan kind documents state id) := by
  obtain ⟨fault, found⟩ := located kind
  have place := Cruft.place_of_located found
  have same : fault.kind = kind := congrArg Prod.fst place
  have about : fault.span = some id := congrArg (·.2.2) place
  obtain ⟨cruft, log⟩ := state
  unfold Cruft.addSpan
  simp only [found]
  split
  · exact named
  · rename_i clean
    have unmarked : cruft.reason? (.span id) = none := by
      simpa [Cruft.hasSpan, Cruft.has] using clean
    have fresh : log.holds fault.place = false := named.fresh blames unmarked place
    intro again blamed other
    have before := named again blamed other
    simp only [FaultLog.naming_note, fresh, and_true, same, about, Option.some.injEq, List.length_append, before,
      Cruft.reason?_mark, unmarked, Option.getD_none, CruftTarget.span.injEq]
    by_cases here : other = id
    · subst here
      by_cases alike : kind = again <;> simp [alike, unmarked]
    · simp [here, Ne.symm here]

theorem Named.addSpans (named : Named state) (blames : kind.blamesName) {documents : Documents} {ids : List SpanId}
    (located : ∀ id ∈ ids, id.LocatedIn documents) :
    Named (ids.foldl (Cruft.addSpan kind documents) state) := by
  induction ids generalizing state with
  | nil => exact named
  | cons id ids ih =>
    rw [List.forall_mem_cons] at located
    exact ih (named.addSpan blames located.1) located.2

/-- A mark on a node or an edge names no span. -/
theorem Named.mark (named : Named state) (proper : Cruft.isSpan target = false) (kind : FaultKind) :
    Named (state.1.mark target kind, state.2) := by
  intro other blames span
  have apart : CruftTarget.span span ≠ target := by
    rintro rfl
    contradiction
  rw [named other blames span, Cruft.reason?_mark, if_neg apart]

theorem Groundless.mono {cruft more : Cruft} (groundless : Groundless scene cruft target)
    (keeps : ∀ target, cruft.has target → more.has target) : Groundless scene more target :=
  fun span behind => keeps _ (groundless span behind)

/-- Marking a target with a fault that blames names keeps the tally. -/
theorem Tallied.add (tallied : Tallied scene state) (blames : kind.blamesName)
    (located : ∀ span ∈ Cruft.spansBehind scene.graph target, span.LocatedIn scene.documents) :
    Tallied scene (Cruft.add target kind scene.graph scene.documents state) := by
  by_cases marked : state.1.has target
  · unfold Cruft.add
    simpa only [marked, ↓reduceIte] using tallied
  rw [Bool.not_eq_true] at marked
  have has := Cruft.has_add kind scene.documents scene.graph state marked
  have keeps (other : CruftTarget) (before : state.1.has other) :
      (Cruft.add target kind scene.graph scene.documents state).1.has other := by
    simp [has, before]
  have behind (span : SpanId) (member : span ∈ Cruft.spansBehind scene.graph target) :
      (Cruft.add target kind scene.graph scene.documents state).1.has (.span span) := by
    simp [has, member]
  refine ⟨fun other now => ?_, ?_, ?_⟩
  · simp only [has, Bool.or_eq_true, decide_eq_true_eq, List.mem_map] at now
    rcases now with (before | rfl) | ⟨span, member, rfl⟩
    · exact (tallied.groundless other before).mono keeps
    · exact behind
    · intro only itself
      exact List.mem_singleton.mp itself ▸ behind span member
  · unfold Cruft.add
    simp only [marked, Bool.false_eq_true, ↓reduceIte]
    cases target with
    | span id => exact tallied.named.addSpans blames located
    | node id => exact (tallied.named.mark rfl kind).addSpans blames located
    | edge id => exact (tallied.named.mark rfl kind).addSpans blames located
  · rw [Cruft.ofKind_add_of_ne, tallied.misindented]
    rintro rfl
    contradiction

end Tally

section Preparation

variable {session : Session} {done rest : List (Document × Statement)}

theorem mem_misindented {documents : Documents} {place : Document × Statement} :
    place ∈ misindented documents ↔ place.1 ∈ documents.values ∧ place.2 ∈ place.1.statements ∧
      place.2.mixed ∧ place.2.noop = false := by
  obtain ⟨document, line⟩ := place
  simp [misindented]

/-- Nothing but spans is marked, and those for the indent of their line. -/
def Indented (cruft : Cruft) : Prop :=
  ∀ target reason, cruft.reason? target = some reason → Cruft.isSpan target ∧ reason = .tabs

theorem Indented.markSpans {cruft : Cruft} (indented : Indented cruft) (spans : List Span) :
    Indented (spans.foldl (fun cruft span => cruft.mark (.span span.id) .tabs) cruft) := by
  intro target reason known
  have marked := Cruft.reason?_markAll .tabs (spans.map fun span => .span span.id) cruft target
  rw [List.foldl_map, known] at marked
  split at marked
  · rename_i member
    obtain ⟨span, _, rfl⟩ := List.mem_map.mp member
    refine ⟨rfl, ?_⟩
    cases before : cruft.reason? (.span span.id) with
    | none => simpa [before] using marked
    | some earlier =>
      simp only [before, Option.getD_some, Option.some.injEq] at marked
      exact marked ▸ (indented _ _ before).2
  · exact indented target reason marked.symm

/-- What has become of the marks and the faults once these lines are condemned. -/
structure Surveyed (done : List (Document × Statement)) (state : Cruft × FaultLog) : Prop where
  marks : Indented state.1
  places : ∀ fault ∈ state.2.faults, fault.place = (.tabs, fault.statement, none)
  lines : state.2.faults.map (·.statement) = done.map (·.2.id)

theorem Surveyed.condemnStatement {place : Document × Statement}
    (surveyed : Surveyed done (session.cruft, session.faults)) (fresh : place.2.id ∉ done.map (·.2.id))
    {fault : Fault} (located : Fault.atStatement? .tabs place.1 place.2.id = some fault) :
    Surveyed (done ++ [place])
      ((session.condemnStatement place).cruft, (session.condemnStatement place).faults) := by
  have filed := Fault.place_of_atStatement? located
  have statement : fault.statement = place.2.id := congrArg (·.2.1) filed
  have new : session.faults.holds fault.place = false := by
    by_contra held
    rw [Bool.not_eq_false, FaultLog.holds_iff, filed] at held
    obtain ⟨other, listed, same, _⟩ := held
    refine fresh ?_
    rw [← surveyed.lines]
    exact List.mem_map.mpr ⟨other, (List.mem_filter.mp listed).1, same⟩
  have noted : (session.condemnStatement place).faults.faults = session.faults.faults ++ [fault] := by
    simp [Session.condemnStatement, located, FaultLog.note, FaultLog.report, new]
  refine ⟨surveyed.marks.markSpans place.2.spans, ?_, ?_⟩
  · simp only [noted]
    intro other listed
    rcases List.mem_append.mp listed with before | last
    · exact surveyed.places other before
    · rw [List.mem_singleton.mp last, filed, statement]
  · simp only [noted, List.map_append, surveyed.lines, List.map_cons, List.map_nil, statement]

theorem Surveyed.condemnStatements (surveyed : Surveyed done (session.cruft, session.faults))
    (distinct : ((done ++ rest).map (·.2.id)).Nodup)
    (located : ∀ place ∈ rest, ∃ fault, Fault.atStatement? .tabs place.1 place.2.id = some fault) :
    Surveyed (done ++ rest) ((rest.foldl Session.condemnStatement session).cruft,
      (rest.foldl Session.condemnStatement session).faults) := by
  induction rest generalizing done session with
  | nil => simpa using surveyed
  | cons place rest ih =>
    rw [List.forall_mem_cons] at located
    obtain ⟨⟨fault, found⟩, later⟩ := located
    have fresh : place.2.id ∉ done.map (·.2.id) := by
      rw [List.map_append, List.map_cons, List.nodup_append] at distinct
      exact fun member => distinct.2.2 _ member _ List.mem_cons_self rfl
    have split : done ++ place :: rest = done ++ [place] ++ rest := by simp
    rw [split] at distinct ⊢
    exact ih (surveyed.condemnStatement fresh found) distinct later

theorem Surveyed.ofKind_eq_nil (surveyed : Surveyed done state) (apart : kind ≠ .tabs) :
    state.2.ofKind kind = [] := by
  refine List.filter_eq_nil_iff.mpr fun fault listed same => apart ?_
  rw [← of_decide_eq_true same]
  exact congrArg Prod.fst (surveyed.places fault listed)

theorem Surveyed.tallied (surveyed : Surveyed (misindented scene.documents) state) : Tallied scene state where
  groundless target marked := by
    obtain ⟨reason, known⟩ := Option.isSome_iff_exists.mp marked
    cases target with
    | node id => exact absurd (surveyed.marks _ _ known).1 Bool.false_ne_true
    | edge id => exact absurd (surveyed.marks _ _ known).1 Bool.false_ne_true
    | span id =>
      intro span itself
      exact List.mem_singleton.mp itself ▸ marked
  named kind blames span := by
    have apart : kind ≠ .tabs := by
      rintro rfl
      contradiction
    rw [FaultLog.naming, surveyed.ofKind_eq_nil apart, if_neg]
    · rfl
    · exact fun known => apart (surveyed.marks _ _ known).2
  misindented := by
    rw [FaultLog.ofKind, List.filter_eq_self.mpr, surveyed.lines]
    intro fault listed
    exact decide_eq_true (congrArg Prod.fst (surveyed.places fault listed))

theorem Tallied.markAll {targets : List CruftTarget} (tallied : Tallied scene state)
    (proper : ∀ target ∈ targets, Cruft.isSpan target = false)
    (groundless : ∀ target ∈ targets, Groundless scene state.1 target) :
    Tallied scene (targets.foldl (fun cruft target => cruft.mark target kind) state.1, state.2) := by
  induction targets generalizing state with
  | nil => exact tallied
  | cons target targets ih =>
    rw [List.forall_mem_cons] at proper groundless
    have keeps (other : CruftTarget) (before : state.1.has other) : (state.1.mark target kind).has other :=
      Cruft.has_mark_of_has before target kind
    have marked : Tallied scene (state.1.mark target kind, state.2) := by
      refine ⟨fun other now => ?_, tallied.named.mark proper.1 kind, tallied.misindented⟩
      rw [Cruft.has_mark, Bool.or_eq_true, decide_eq_true_eq] at now
      rcases now with before | rfl
      · exact (tallied.groundless other before).mono keeps
      · exact groundless.1.mono keeps
    exact ih marked proper.2 fun other member => (groundless.2 other member).mono keeps

theorem Tallied.condemnGroundless {targets : List CruftTarget}
    (tallied : Tallied scene (session.cruft, session.faults))
    (proper : ∀ target ∈ targets, Cruft.isSpan target = false) :
    Tallied scene ((session.condemnGroundless scene targets).cruft,
      (session.condemnGroundless scene targets).faults) := by
  rw [condemnGroundless_eq]
  refine tallied.markAll (fun target member => proper target (List.mem_filter.mp member).1) fun target member => ?_
  exact List.all_eq_true.mp (List.mem_filter.mp member).2

theorem faults_condemnGroundless (session : Session) (scene : Scene) (targets : List CruftTarget) :
    (session.condemnGroundless scene targets).faults = session.faults := by
  rw [condemnGroundless_eq]

/-- A session that has been prepared is tallied, and nothing has been found of any contract. -/
theorem tallied_prepare (located : scene.Located) (version : Nat) :
    Tallied scene (((empty version).prepare scene).cruft, ((empty version).prepare scene).faults) ∧
      ((empty version).prepare scene).faults.ofKind .contract = [] := by
  let begun : Session := { empty version with prepared := true }
  have start : Surveyed [] (begun.cruft, begun.faults) := by
    refine ⟨fun target reason known => ?_, fun fault listed => ?_, rfl⟩
    · cases target <;> contradiction
    · contradiction
  have surveyed := start.condemnStatements located.distinct fun place member => located.lines place member .tabs
  rw [List.nil_append] at surveyed
  have silent : ((misindented scene.documents).foldl Session.condemnStatement begun).faults.ofKind .contract = [] :=
    surveyed.ofKind_eq_nil (by decide)
  have nodes : ∀ target ∈ scene.graph.nodes.map fun node => CruftTarget.node node.id,
      Cruft.isSpan target = false := by simp [Cruft.isSpan]
  have edges : ∀ target ∈ scene.graph.edges.map fun edge => CruftTarget.edge edge.id,
      Cruft.isSpan target = false := by simp [Cruft.isSpan]
  have tallied := (surveyed.tallied.condemnGroundless nodes).condemnGroundless edges
  unfold prepare
  simp only [show (empty version).prepared = false from rfl, Bool.false_eq_true, ↓reduceIte]
  split
  · exact ⟨surveyed.tallied, silent⟩
  · exact ⟨tallied, by rw [faults_condemnGroundless, faults_condemnGroundless, silent]⟩

end Preparation

section Accusation

variable {session next : Session} {owed : StatementId → Prop} {id : ParallelId} {statement : StatementId}
  {node : Node} {contract : Option Contract}

/-- The contract of the parallel has conditions that nothing satisfies, and its node is declared in the
statement. -/
def Blames (scene : Scene) (session : Session) (id : ParallelId) (statement : StatementId) : Prop :=
  ∃ parallel resolved contract node, session.parallel? id = some parallel ∧
    parallel.explicit = some resolved ∧ resolved.contract = some contract ∧ contract.hasUnsatisfied ∧
      node ∈ scene.graph.nodes ∧ node.id = resolved.node ∧
        ∃ span ∈ node.declarations, span.statement = statement

/-- The ledger: marks and faults agree, and the statements that are accused are those that some parallel raked
to the end blames, with those that are accused ahead of that. -/
structure Reckoned (scene : Scene) (owed : StatementId → Prop) (session : Session) : Prop where
  located : scene.Located
  tallied : Tallied scene (session.cruft, session.faults)
  accuses : ∀ statement, session.faults.Accuses statement ↔
    owed statement ∨ ∃ id ∈ session.settled, session.Blames scene id statement

/-- Nothing is accused ahead. -/
def Balanced (scene : Scene) (session : Session) : Prop := session.Reckoned scene fun _ => False

/-- A ledger looks at no more of the documents than where faults lie and which lines are misindented. -/
theorem Balanced.congr_scene (balanced : session.Balanced scene) {other : Scene} (located : other.Located)
    (graph : other.graph = scene.graph)
    (lines : (misindented other.documents).map (·.2.id) = (misindented scene.documents).map (·.2.id)) :
    session.Balanced other := by
  obtain ⟨_, ⟨groundless, named, misindented⟩, accuses⟩ := balanced
  cases scene; cases other
  cases graph
  exact ⟨located, ⟨groundless, named, misindented.trans lines.symm⟩, accuses⟩

theorem blames_congr (parallel : next.parallel? id = session.parallel? id) :
    next.Blames scene id statement ↔ session.Blames scene id statement := by
  simp only [Blames, parallel]

namespace Reckoned

theorem owing {again : StatementId → Prop} (reckoned : session.Reckoned scene owed)
    (same : ∀ statement, again statement ↔ owed statement) : session.Reckoned scene again where
  located := reckoned.located
  tallied := reckoned.tallied
  accuses statement := by rw [same, reckoned.accuses]

/-- What is not raked to the end may change. -/
theorem steady (reckoned : session.Reckoned scene owed) (steady : Steady session next)
    (cruft : next.cruft = session.cruft) (faults : next.faults = session.faults)
    (settled : next.settled = session.settled) : next.Reckoned scene owed where
  located := reckoned.located
  tallied := by
    rw [cruft, faults]
    exact reckoned.tallied
  accuses statement := by
    rw [faults, settled, reckoned.accuses]
    refine or_congr_right (exists_congr fun id => and_congr_right fun member => ?_)
    rw [blames_congr (steady.parallels id member)]

theorem congr (reckoned : session.Reckoned scene owed) (parallels : next.parallels = session.parallels)
    (cruft : next.cruft = session.cruft) (faults : next.faults = session.faults)
    (settled : next.settled = session.settled) : next.Reckoned scene owed :=
  reckoned.steady ⟨fun id _ => by simp only [parallel?, parallels], fun _ => by rw [cruft],
    settled ▸ List.Subset.refl _⟩ cruft faults settled

theorem condemn (reckoned : session.Reckoned scene owed) (edge : EdgeId) {kind : FaultKind}
    (blames : kind.blamesName) : (session.condemn scene (.edge edge) kind).Reckoned scene owed := by
  have calm := calm_condemn session scene (.edge edge) kind
  refine ⟨reckoned.located, reckoned.tallied.add blames fun span behind => ?_, fun statement => ?_⟩
  · obtain ⟨asserted, found, among⟩ := List.mem_flatMap.mp behind
    have member := List.mem_of_find?_eq_some (Option.mem_toList.mp found)
    exact reckoned.located.sources asserted member span among
  · have accuses := reckoned.accuses statement
    have same (id : ParallelId) : (session.condemn scene (.edge edge) kind).Blames scene id statement ↔
        session.Blames scene id statement := blames_congr (by simp only [parallel?, calm.parallels])
    have faults : (session.condemn scene (.edge edge) kind).faults.ofKind .contract =
        session.faults.ofKind .contract := by
      refine Cruft.ofKind_add_of_ne ?_ (session.cruft, session.faults)
      rintro rfl
      contradiction
    simpa only [FaultLog.Accuses, faults, calm.settled, same] using accuses

/-- What was accused ahead is what the parallel blames that settles now. -/
theorem settle (reckoned : session.Reckoned scene (session.Blames scene id)) :
    { session with settled := session.settled ++ [id] }.Balanced scene where
  located := reckoned.located
  tallied := reckoned.tallied
  accuses statement := by
    have same (other : ParallelId) : { session with settled := session.settled ++ [id] }.Blames scene other
        statement ↔ session.Blames scene other statement := blames_congr rfl
    simp only [reckoned.accuses, same, List.mem_append, List.mem_singleton, or_and_right, exists_or,
      exists_eq_left, false_or]
    exact or_comm

end Reckoned

section Report

/-- The statements that declare the node, where the contract has conditions left. -/
def Owes (node : Node) (contract : Option Contract) (statement : StatementId) : Prop :=
  (∃ now, contract = some now ∧ now.hasUnsatisfied) ∧ ∃ span ∈ node.declarations, span.statement = statement

/-- A fault about a contract concerns no span and no indent. -/
theorem Tallied.report (tallied : Tallied scene state) {log : FaultLog}
    (same : ∀ kind ≠ .contract, log.ofKind kind = state.2.ofKind kind) : Tallied scene (state.1, log) where
  groundless := tallied.groundless
  named kind blames span := by
    have apart : kind ≠ .contract := by
      rintro rfl
      contradiction
    rw [← tallied.named kind blames span, FaultLog.naming, FaultLog.naming, same kind apart]
  misindented := by rw [same .tabs (by decide), tallied.misindented]

theorem Balanced.of_satisfied (balanced : session.Balanced scene)
    (satisfied : ∀ now, contract = some now → now.hasUnsatisfied = false) :
    session.Reckoned scene (Owes node contract) := by
  refine balanced.owing fun statement => iff_false_intro ?_
  rintro ⟨⟨now, current, left⟩, _⟩
  simp [satisfied now current] at left

/-- What is reported of a contract in one statement. -/
def violation? (documents : Documents) (message : String) (id : StatementId) : Option Fault :=
  ((documents.find? id.document).bind (Fault.atStatement? .contract · id)).map
    fun fault => { fault with message }

theorem place_of_violation? {documents : Documents} {message : String} {fault : Fault}
    (noted : violation? documents message statement = some fault) : fault.place = (.contract, statement, none) := by
  obtain ⟨bare, located, rfl⟩ := Option.map_eq_some_iff.mp noted
  obtain ⟨document, _, found⟩ := Option.bind_eq_some_iff.mp located
  exact (Fault.place_of_atStatement? found : bare.place = _)

/-- Every statement that declares a node has a place for the report. -/
theorem exists_violation?_iff (located : scene.Located) (member : node ∈ scene.graph.nodes) (message : String) :
    (∃ fault, some fault ∈ (OrderedSet.ofList (node.declarations.toList.map SpanId.statement)).toList.map
        (violation? scene.documents message) ∧ fault.statement = statement) ↔
      ∃ span ∈ node.declarations, span.statement = statement := by
  constructor
  · rintro ⟨fault, listed, rfl⟩
    obtain ⟨id, declares, noted⟩ := List.mem_map.mp listed
    obtain ⟨span, among, rfl⟩ := List.mem_map.mp (OrderedSet.mem_ofList.mp declares)
    exact ⟨span, among, (congrArg (·.2.1) (place_of_violation? noted)).symm⟩
  · rintro ⟨span, among, rfl⟩
    obtain ⟨fault, found⟩ := located.declarations node member span among .contract
    have noted : violation? scene.documents message span.statement = some { fault with message } := by
      rw [violation?, found, Option.map_some]
    refine ⟨_, List.mem_map.mpr ⟨span.statement, ?_, noted⟩, congrArg (·.2.1) (place_of_violation? noted)⟩
    exact OrderedSet.mem_ofList.mpr (List.mem_map_of_mem among)

/-- A report accuses each statement that declares the node, if there are conditions left. -/
theorem reportViolation_reckons (session : Session) (member : node ∈ scene.graph.nodes) (path : TypePath)
    (contract : Option Contract) : Ensures (session.reportViolation scene path node contract) fun next =>
      session.Balanced scene → next.Reckoned scene (Owes node contract) := by
  unfold reportViolation
  split
  · rename_i nothing
    refine .ok fun balanced => balanced.of_satisfied fun now current => ?_
    simp [current] at nothing
  · rename_i nothing
    refine .ok fun balanced => balanced.of_satisfied fun now current => ?_
    simp only [current, Option.map_some, Option.some.injEq] at nothing
    simp [Contract.hasUnsatisfied, OrderedSet.isEmpty, nothing]
  · rename_i unsatisfied left some_
    obtain ⟨now, current, rfl⟩ := Option.map_eq_some_iff.mp some_
    have owing : now.hasUnsatisfied := by
      simpa [Contract.hasUnsatisfied, OrderedSet.isEmpty] using left
    refine (Ensures.anything _).bind fun message _ => .pure fun balanced => ?_
    let faults := (OrderedSet.ofList (node.declarations.toList.map SpanId.statement)).toList.map
      (violation? scene.documents message)
    have alike : ∀ fault, some fault ∈ faults → fault.kind = .contract := by
      intro fault listed
      obtain ⟨id, _, noted⟩ := List.mem_map.mp listed
      exact congrArg Prod.fst (place_of_violation? noted)
    have ledger : ({ session with faults := faults.foldl FaultLog.note session.faults } : Session).Reckoned scene
        (Owes node contract) := by
      refine ⟨balanced.located, balanced.tallied.report fun kind apart =>
        FaultLog.ofKind_notes_of_ne alike apart, fun statement => ?_⟩
      rw [FaultLog.accuses_notes alike, exists_violation?_iff balanced.located member, balanced.accuses, false_or,
        or_comm]
      exact or_congr_left (and_iff_right ⟨now, current, owing⟩).symm
    exact ledger

/-- A parallel that holds the contract blames what was accused on its account. -/
theorem owes_iff_blames (distinct : (scene.graph.nodes.map Node.id).Nodup) (member : node ∈ scene.graph.nodes)
    {parallel : Parallel} (found : session.parallel? id = some parallel) {resolved : Resolved}
    (explicit : parallel.explicit = some resolved) (same : resolved.node = node.id) :
    Owes node resolved.contract statement ↔ session.Blames scene id statement := by
  constructor
  · rintro ⟨⟨now, current, left⟩, declares⟩
    exact ⟨parallel, resolved, now, node, found, explicit, current, left, member, same.symm, declares⟩
  · rintro ⟨again, other, now, twin, there, stands, current, left, among, id, declares⟩
    cases found.symm.trans there
    cases explicit.symm.trans stands
    cases eq_of_key_eq distinct among member (id.trans same)
    exact ⟨⟨now, current, left⟩, declares⟩

/-- An implicit parallel blames nothing. -/
theorem not_blames_of_implicit {parallel : Parallel} (found : session.parallel? id = some parallel)
    (implicit : parallel.explicit = none) : ¬session.Blames scene id statement := by
  rintro ⟨again, resolved, _, _, there, explicit, _⟩
  cases found.symm.trans there
  cases implicit.symm.trans explicit

end Report

end Accusation

end Session
end OutlineTypes
