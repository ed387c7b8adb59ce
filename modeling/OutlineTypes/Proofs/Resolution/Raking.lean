import OutlineTypes.Proofs.Graph.Creation
import OutlineTypes.Proofs.Resolution.Lineage
import Mathlib.Data.Finset.Card

/-! Raking in sane sessions, with any driller that resolves the nodes of the document. Raking nests no
deeper than there are parallels to rake, and every parallel it leaves raked has settled once. -/
namespace OutlineTypes

namespace Session

variable {drill : Driller} {scene : Scene} {session : Session} {document : DocumentId}
  {flight : List TypePath}

/-- What it means to have drilled a path. -/
structure Drilled (graph : Graph) (session : Session) (path : TypePath) (result : Outcome × Session) :
    Prop where
  sane : result.2.Sane graph
  grows : Extends session result.2
  stands : ∀ id, result.1 = .resolved id →
    ∃ parallel, result.2.parallel? id = some parallel ∧ parallel.path = path

/-- The driller resolves every node of the document while the drills of `flight` are under way. -/
def DrillsNodes (graph : Graph) (document : DocumentId) (flight : List TypePath) (drill : Driller) :
    Prop :=
  ∀ node ∈ graph.nodes, node.path.document = document → ∀ session, session.Sane graph →
    session.inFlight = flight → Succeeds (drill node.path session) (Drilled graph session node.path)

/-- The successor is a node of the document. -/
def Eligible (graph : Graph) (document : DocumentId) (candidate : Successor) : Prop :=
  ∃ node ∈ graph.nodes, node.id = candidate.node ∧ node.path.document = document

/-- A base that was found, if any, is a parallel of the document. -/
def Sound (session : Session) (document : DocumentId) (base : Option ParallelId) : Prop :=
  ∀ id, base = some id → session.Holds document id

/-- The conditions still unsatisfied are parallels of the document. -/
def Known (session : Session) (document : DocumentId) (contract : Contract) : Prop :=
  ∀ id ∈ contract.unsatisfied, session.Holds document id

theorem Sound.extends {next : Session} {base : Option ParallelId} (h : session.Sound document base)
    (grows : Extends session next) : next.Sound document base := fun id found => grows.holds (h id found)

theorem Known.extends {next : Session} {contract : Contract} (h : session.Known document contract)
    (grows : Extends session next) : next.Known document contract :=
  fun id member => grows.holds (h id member)

theorem Known.satisfy {contract : Contract} (h : session.Known document contract)
    (lineage : List ParallelId) : session.Known document (contract.satisfy lineage) :=
  fun id member => h id (OrderedSet.mem_filter.mp member).1

theorem sound_or {first second : Option ParallelId} (h : session.Sound document first)
    (k : session.Sound document second) : session.Sound document (first <|> second) := by
  cases first with
  | none => exact k
  | some id => exact h

section Candidates

variable {candidate : Successor} {candidates : List Successor}

theorem drillCandidate_succeeds (framed : scene.graph.Framed)
    (drills : DrillsNodes scene.graph document flight drill) (sane : session.Sane scene.graph)
    (under : session.inFlight = flight) (eligible : Eligible scene.graph document candidate) :
    Succeeds (session.drillCandidate drill scene candidate) fun result =>
      result.2.Sane scene.graph ∧ Extends session result.2 ∧
        (∀ id, result.1 = .resolved id → result.2.Holds document id) ∧
        result.2.Sound document (result.2.cached? scene candidate) := by
  obtain ⟨node, member, same, ours⟩ := eligible
  simp only [drillCandidate, cached?, ← same, framed.node?_id member, Option.bind_some]
  refine (drills node member ours session sane under).mono fun result drilled => ?_
  refine ⟨drilled.sane, drilled.grows, fun id resolved => ?_, fun id found => ?_⟩
  · obtain ⟨parallel, found, path⟩ := drilled.stands id resolved
    exact ⟨parallel, found, path ▸ ours⟩
  · exact ours ▸ drilled.sane.holds_of_lookup? found

theorem nearest_succeeds (framed : scene.graph.Framed)
    (drills : DrillsNodes scene.graph document flight drill) (sane : session.Sane scene.graph)
    (under : session.inFlight = flight) {circular : Option ParallelId}
    (sound : session.Sound document circular)
    (eligible : ∀ candidate ∈ candidates, Eligible scene.graph document candidate) :
    Succeeds (nearest drill scene circular session candidates) fun result =>
      result.2.Sane scene.graph ∧ Extends session result.2 ∧ result.2.Sound document result.1 := by
  induction candidates generalizing session circular with
  | nil => exact .ok ⟨sane, .refl session, sound⟩
  | cons candidate rest ih =>
    rw [nearest]
    have others := fun other member => eligible other (List.mem_cons_of_mem _ member)
    refine (drillCandidate_succeeds framed drills sane under
      (eligible candidate List.mem_cons_self)).bind fun result drilled => ?_
    obtain ⟨outcome, next⟩ := result
    obtain ⟨nextSane, grows, held, cached⟩ := drilled
    have still := grows.inFlight.trans under
    cases outcome with
    | resolved base =>
      exact .pure ⟨nextSane, grows, fun id found => by cases found; exact held base rfl⟩
    | circular =>
      refine (ih nextSane still (sound_or (sound.extends grows) cached) others).mono fun result h => ?_
      exact ⟨h.1, grows.trans h.2.1, h.2.2⟩
    | unpopulated =>
      refine (ih nextSane still (sound.extends grows) others).mono fun result h => ?_
      exact ⟨h.1, grows.trans h.2.1, h.2.2⟩

theorem satisfying_succeeds (framed : scene.graph.Framed)
    (drills : DrillsNodes scene.graph document flight drill) (sane : session.Sane scene.graph)
    (under : session.inFlight = flight) {contract : Contract} (known : session.Known document contract)
    {fallback circular : Option ParallelId} (fallbackSound : session.Sound document fallback)
    (circularSound : session.Sound document circular)
    (eligible : ∀ candidate ∈ candidates, Eligible scene.graph document candidate) :
    Succeeds (satisfying drill scene contract fallback circular session candidates) fun result =>
      result.2.2.Sane scene.graph ∧ Extends session result.2.2 ∧
        result.2.2.Sound document result.1 ∧ result.2.2.Known document result.2.1 := by
  induction candidates generalizing session fallback circular with
  | nil => exact .ok ⟨sane, .refl session, sound_or fallbackSound circularSound, known⟩
  | cons candidate rest ih =>
    rw [satisfying]
    have others := fun other member => eligible other (List.mem_cons_of_mem _ member)
    refine (drillCandidate_succeeds framed drills sane under
      (eligible candidate List.mem_cons_self)).bind fun result drilled => ?_
    obtain ⟨outcome, next⟩ := result
    obtain ⟨nextSane, grows, held, cached⟩ := drilled
    have still := grows.inFlight.trans under
    have nextKnown := known.extends grows
    cases outcome with
    | resolved base =>
      have baseSound : next.Sound document (some base) := fun id found => by
        cases found
        exact held base rfl
      simp only
      split
      · simp only [nextSane.lineageOf_eq (held base rfl), ok_bind]
        split
        · exact .pure ⟨nextSane, grows, baseSound, nextKnown.satisfy _⟩
        · refine (ih nextSane still nextKnown (sound_or (fallbackSound.extends grows) baseSound)
            (circularSound.extends grows) others).mono fun result h => ?_
          exact ⟨h.1, grows.trans h.2.1, h.2.2⟩
      · exact .pure ⟨nextSane, grows, baseSound, nextKnown⟩
    | circular =>
      refine (ih nextSane still nextKnown (fallbackSound.extends grows)
        (sound_or (circularSound.extends grows) cached) others).mono fun result h => ?_
      exact ⟨h.1, grows.trans h.2.1, h.2.2⟩
    | unpopulated =>
      refine (ih nextSane still nextKnown (fallbackSound.extends grows)
        (circularSound.extends grows) others).mono fun result h => ?_
      exact ⟨h.1, grows.trans h.2.1, h.2.2⟩

theorem Sane.accept_succeeds (sane : session.Sane scene.graph) {contract : Option Contract}
    (known : ∀ c, contract = some c → session.Known document c) {base : Option ParallelId}
    (sound : session.Sound document base) :
    Succeeds (session.accept contract base) fun result =>
      ∀ c, result = some c → session.Known document c := by
  unfold accept
  split
  · rename_i contract base
    split
    · exact .ok known
    · simp only [sane.lineageOf_eq (sound base rfl), ok_bind]
      refine .pure fun c found => ?_
      cases found
      exact (known contract rfl).satisfy _
  · exact .ok known

theorem chooseBase_succeeds (framed : scene.graph.Framed)
    (drills : DrillsNodes scene.graph document flight drill) (sane : session.Sane scene.graph)
    (under : session.inFlight = flight) {contract : Option Contract}
    (known : ∀ c, contract = some c → session.Known document c)
    (eligible : ∀ candidate ∈ candidates, Eligible scene.graph document candidate) :
    Succeeds (session.chooseBase drill scene contract candidates) fun result =>
      result.2.2.Sane scene.graph ∧ Extends session result.2.2 ∧
        result.2.2.Sound document result.1 ∧
        ∀ c, result.2.1 = some c → result.2.2.Known document c := by
  have nothing : session.Sound document none := fun id found => by contradiction
  unfold chooseBase
  split
  · rename_i contract first second rest
    refine (satisfying_succeeds framed drills sane under (known contract rfl) nothing nothing
      eligible).bind fun result h => ?_
    refine .pure ⟨h.1, h.2.1, h.2.2.1, fun c found => ?_⟩
    cases found
    exact h.2.2.2
  · refine (nearest_succeeds framed drills sane under nothing eligible).bind fun result h => ?_
    obtain ⟨nextSane, grows, sound⟩ := h
    refine (nextSane.accept_succeeds (fun c found => (known c found).extends grows) sound).bind
      fun contract h => ?_
    exact .pure ⟨nextSane, grows, sound, h⟩

end Candidates

section Bases

theorem mem_bases_setBase {edge : EdgeId} {base other : ParallelId} {parallel : Parallel}
    (member : other ∈ (parallel.setBase edge base).branches) : other = base ∨ other ∈ parallel.branches := by
  cases parallel with | mk id path container edges explicit raked =>
  cases explicit with
  | none => exact .inr member
  | some resolved =>
    rcases List.mem_append.mp member with overridden | inherited
    · exact .inr (List.mem_append_left _ overridden)
    · exact (mem_values_put inherited).imp_right (List.mem_append_right _)

theorem node_mapResolved (change : Resolved → Resolved)
    (same : ∀ resolved, (change resolved).node = resolved.node)
    (parallel : Parallel) :
    (parallel.mapResolved change).explicit.map Resolved.node = parallel.explicit.map Resolved.node := by
  simp only [Parallel.mapResolved, Option.map_map]
  exact congrArg (Option.map · parallel.explicit) (funext same)

theorem node_setBase (edge : EdgeId) (base : ParallelId) (parallel : Parallel) :
    (parallel.setBase edge base).explicit.map Resolved.node = parallel.explicit.map Resolved.node :=
  node_mapResolved (fun resolved => { resolved with bases := resolved.bases.insert edge base }) (fun _ => rfl) parallel

theorem node_setContract (contract : Option Contract) (parallel : Parallel) :
    (parallel.setContract contract).explicit.map Resolved.node = parallel.explicit.map Resolved.node :=
  node_mapResolved (fun resolved => { resolved with contract }) (fun _ => rfl) parallel

theorem mild_setBase (sane : session.Sane scene.graph) {id base : ParallelId} {parallel : Parallel}
    (found : session.parallel? id = some parallel) (held : session.Holds parallel.path.document base)
    (edge : EdgeId) : Mild session parallel (parallel.setBase edge base) where
  id := rfl
  path := rfl
  node := node_setBase edge base parallel
  raked := fun h => h
  branches branch member := by
    rcases mem_bases_setBase member with rfl | before
    · exact held
    · exact sane.branches id parallel found branch before

theorem mild_setContract (sane : session.Sane scene.graph) {id : ParallelId} {parallel : Parallel}
    (found : session.parallel? id = some parallel) (contract : Option Contract) :
    Mild session parallel (parallel.setContract contract) where
  id := rfl
  path := rfl
  node := node_setContract contract parallel
  raked := fun h => h
  branches branch member := by
    refine sane.branches id parallel found branch ?_
    cases parallel with | mk id path container edges explicit raked =>
    cases explicit with
    | none => exact member
    | some resolved => exact member

end Bases

/-- What the fold over the edges of a node keeps. -/
structure Raked (graph : Graph) (session : Session) (document : DocumentId)
    (state : Option Contract × Session) : Prop where
  sane : state.2.Sane graph
  grows : Extends session state.2
  known : ∀ c, state.1 = some c → state.2.Known document c

theorem Raked.rakeEdge_succeeds {state : Option Contract × Session}
    (raked : Raked scene.graph session document state) (framed : scene.graph.Framed)
    (drills : DrillsNodes scene.graph document flight drill) (under : session.inFlight = flight)
    {id : ParallelId} (held : session.Holds document id) {edge : Edge}
    (eligible : ∀ candidate ∈ edge.successors, Eligible scene.graph document candidate) :
    Succeeds (rakeEdge drill scene id state edge) (Raked scene.graph session document) := by
  unfold rakeEdge
  simp only
  split
  · exact .pure raked
  · split
    · have calm := calm_condemn state.2 scene (.edge edge.id) .unresolved
      exact .pure ⟨calm.sane raked.sane, raked.grows.trans calm.extends,
        fun c found => (raked.known c found).extends calm.extends⟩
    · refine (chooseBase_succeeds framed drills raked.sane (raked.grows.inFlight.trans under) raked.known
        fun candidate member => eligible candidate (List.mem_filter.mp member).1).bind fun result h => ?_
      obtain ⟨base, contract, next⟩ := result
      obtain ⟨sane, grows, sound, known⟩ := h
      have all := raked.grows.trans grows
      cases base with
      | none => exact .pure ⟨sane, all, known⟩
      | some base =>
        have more : Extends next (next.modify id (Parallel.setBase edge.id base)) :=
          extends_modify (fun _ => rfl) (fun _ => rfl) fun _ h => h
        refine .pure ⟨sane.modify fun parallel found => ?_, all.trans more,
          fun c found => (known c found).extends more⟩
        obtain ⟨same, again, ours⟩ := all.holds held
        cases found.symm.trans again
        exact mild_setBase sane found (ours ▸ sound base rfl) edge.id

theorem violationMessage_succeeds (path : TypePath) {unsatisfied : List ParallelId}
    (known : ∀ id ∈ unsatisfied, session.Holds document id) :
    Succeeds (session.violationMessage path unsatisfied) fun _ => True := by
  unfold violationMessage
  have names : Succeeds (unsatisfied.mapM fun id => do
      return "`" ++ (← session.parallelOf id).path.text ++ "`") (List.Forall₂ (fun _ _ => True) unsatisfied) :=
    Succeeds.mapM fun id member => (known id member).parallelOf.bind fun _ _ => .pure trivial
  exact names.bind fun _ _ => .pure trivial

theorem Sane.reportViolation_succeeds (sane : session.Sane scene.graph) (path : TypePath) (node : Node)
    {contract : Option Contract} (known : ∀ c, contract = some c → session.Known document c) :
    Succeeds (session.reportViolation scene path node contract) fun next =>
      next.Sane scene.graph ∧ Extends session next := by
  unfold reportViolation
  split
  · exact .ok ⟨sane, .refl session⟩
  · exact .ok ⟨sane, .refl session⟩
  · rename_i unsatisfied _ found
    obtain ⟨c, rfl, rfl⟩ := Option.map_eq_some_iff.mp found
    refine (violationMessage_succeeds path (known c rfl)).bind fun message _ => ?_
    exact .pure ⟨sane.congr rfl rfl, Calm.extends ⟨rfl, rfl, rfl, rfl, rfl⟩⟩

/-- The candidates of an edge are nodes of the document of its predecessor. -/
theorem eligible_of_mem_outbounds {graph : Graph} (coherent : graph.Coherent) {node : Node}
    (member : node ∈ graph.nodes) (ours : node.path.document = document) {edge : Edge}
    (outbound : edge ∈ graph.outbounds node.id) :
    ∀ candidate ∈ edge.successors, Eligible graph document candidate := by
  intro candidate listed
  obtain ⟨_, other, present, same, at_⟩ := coherent.mem_successors member outbound listed
  exact ⟨other, present, same, (congrArg TypePath.document at_).trans ours⟩

theorem Sane.contractOf_succeeds (sane : session.Sane scene.graph) {id : ParallelId}
    (held : session.Holds document id) (parallel : Parallel) :
    Succeeds (session.contractOf scene id parallel) fun contract =>
      ∀ c, contract = some c → session.Known document c := by
  unfold contractOf
  split
  · simp only [sane.conditionsOf_eq held, ok_bind]
    refine .pure fun c found => ?_
    cases found
    exact fun other listed => sane.holds_of_mem_conditions held other (OrderedSet.mem_ofList.mp listed)
  · exact .pure fun c found => by contradiction

theorem Sane.rakeExplicit_succeeds (sane : session.Sane scene.graph) (coherent : scene.graph.Coherent)
    (drills : DrillsNodes scene.graph document flight drill) (under : session.inFlight = flight)
    {id : ParallelId} (held : session.Holds document id) :
    Succeeds (rakeExplicit drill scene id session) fun next =>
      next.Sane scene.graph ∧ Extends session next := by
  unfold rakeExplicit
  refine held.parallelOf.bind fun parallel h => ?_
  obtain ⟨found, ours⟩ := h
  cases explicit : parallel.explicit with
  | none => exact .pure ⟨sane, .refl session⟩
  | some resolved =>
    obtain ⟨node, member, same, path⟩ := sane.explicit id parallel found resolved explicit
    simp only [← same, coherent.node?_id member]
    refine (sane.contractOf_succeeds held parallel).bind fun contract known => ?_
    let begun : Session := { session with raking := id :: session.raking }
    have begunHeld : begun.Holds document id := held
    let inv := Raked scene.graph begun document
    have fold : Succeeds ((scene.graph.outbounds node.id).foldlM (rakeEdge drill scene id)
        (contract, begun)) inv := Succeeds.foldlM_of_forall inv
      ⟨sane.congr rfl rfl, .refl begun, known⟩
      (fun edge outbound state raked => raked.rakeEdge_succeeds coherent.toFramed drills under begunHeld
        (eligible_of_mem_outbounds coherent member (path ▸ ours) outbound))
    refine fold.bind fun state raked => ?_
    obtain ⟨contract, last⟩ := state
    obtain ⟨lastSane, grows, lastKnown⟩ := raked
    let ended : Session := { last with raking := last.raking.drop 1 }
    have grown : Extends session ended :=
      ⟨grows.keeps, grows.settles, grows.inFlight, by
        show last.raking.drop 1 = session.raking
        rw [grows.raking]
        rfl, grows.version⟩
    have endedSane : ended.Sane scene.graph := lastSane.congr rfl rfl
    refine (endedSane.reportViolation_succeeds parallel.path node lastKnown).bind fun next h => ?_
    refine .pure ⟨h.1.modify fun _ present => mild_setContract h.1 present contract, ?_⟩
    exact (grown.trans h.2).trans (extends_modify (fun _ => rfl) (fun _ => rfl) fun _ h => h)

section Bound

/-- The parallels numbered below `limit` that are not raked. -/
def unraked (session : Session) (limit : Nat) : Finset Nat :=
  (Finset.range limit).filter fun index =>
    ∃ parallel, session.parallel? ⟨index⟩ = some parallel ∧ parallel.raked = false

/-- Overriding leads from parallels numbered below `limit` to others such. -/
def ClosedBelow (session : Session) (limit : Nat) : Prop :=
  limit ≤ session.size ∧ ∀ id parallel, session.parallel? id = some parallel → id.index < limit →
    ∀ edge ∈ parallel.edges, edge.index < limit

variable {next : Session} {limit : Nat}

theorem Extends.exists_before (grows : Extends session next) {id : ParallelId} {now : Parallel}
    (found : next.parallel? id = some now) (below : id.index < session.size) :
    ∃ parallel, session.parallel? id = some parallel ∧ now.edges = parallel.edges ∧
      (parallel.raked → now.raked) := by
  obtain ⟨later, foundLater, _, edges, raked⟩ :=
    grows.keeps id _ (List.getElem?_eq_getElem (l := session.parallels) below)
  cases found.symm.trans foundLater
  exact ⟨_, List.getElem?_eq_getElem below, edges, raked⟩

theorem ClosedBelow.extends (closed : session.ClosedBelow limit) (grows : Extends session next) :
    next.ClosedBelow limit := by
  refine ⟨closed.1.trans grows.size_le, fun id now found below edge member => ?_⟩
  obtain ⟨parallel, present, edges, _⟩ := grows.exists_before found (below.trans_le closed.1)
  exact closed.2 id parallel present below edge (edges ▸ member)

theorem ClosedBelow.unraked_subset (closed : session.ClosedBelow limit) (grows : Extends session next) :
    next.unraked limit ⊆ session.unraked limit := by
  intro index member
  obtain ⟨below, now, found, still⟩ := Finset.mem_filter.mp member
  have inside := Finset.mem_range.mp below
  obtain ⟨parallel, present, _, raked⟩ := grows.exists_before found (inside.trans_le closed.1)
  refine Finset.mem_filter.mpr ⟨below, parallel, present, ?_⟩
  by_contra done
  simp [raked (by simpa using done)] at still

theorem ClosedBelow.card_unraked_le (closed : session.ClosedBelow limit) (grows : Extends session next) :
    (next.unraked limit).card ≤ (session.unraked limit).card :=
  Finset.card_le_card (closed.unraked_subset grows)

end Bound

section Rake

/-- The session with one more parallel marked as raked. -/
def markRaked (session : Session) (id : ParallelId) : Session :=
  session.modify id fun parallel => { parallel with raked := true }

variable {id : ParallelId} {parallel : Parallel}

theorem sane_markRaked (sane : session.Sane scene.graph) (id : ParallelId) :
    (session.markRaked id).Sane scene.graph :=
  sane.modify fun parallel found =>
    ⟨rfl, rfl, rfl, fun _ => rfl, sane.branches id parallel found⟩

theorem extends_markRaked (session : Session) (id : ParallelId) : Extends session (session.markRaked id) :=
  extends_modify (fun _ => rfl) (fun _ => rfl) fun _ _ => rfl

theorem parallel?_markRaked (found : session.parallel? id = some parallel) :
    (session.markRaked id).parallel? id = some { parallel with raked := true } := by
  rw [markRaked, parallel?_modify, if_pos rfl, found]
  rfl

/-- Every level of raking uses up a parallel. -/
theorem ClosedBelow.card_unraked_markRaked {limit : Nat} (closed : session.ClosedBelow limit)
    (found : session.parallel? id = some parallel) (unraked : parallel.raked = false)
    (below : id.index < limit) :
    ((session.markRaked id).unraked limit).card < (session.unraked limit).card := by
  refine Finset.card_lt_card ⟨closed.unraked_subset (extends_markRaked session id), fun same => ?_⟩
  have before : id.index ∈ session.unraked limit :=
    Finset.mem_filter.mpr ⟨Finset.mem_range.mpr below, parallel, found, unraked⟩
  obtain ⟨_, now, present, still⟩ := Finset.mem_filter.mp (same before)
  cases (parallel?_markRaked found).symm.trans present
  contradiction

/-- A parallel that was marked and whose raking has ended settles, for the first time. -/
theorem Sane.settle {next : Session} (sane : session.Sane scene.graph) (nextSane : next.Sane scene.graph)
    (grows : Extends (session.markRaked id) next) (found : session.parallel? id = some parallel)
    (unraked : parallel.raked = false) :
    { next with settled := next.settled ++ [id] }.Sane scene.graph ∧
      Extends session { next with settled := next.settled ++ [id] } := by
  have all := (extends_markRaked session id).trans grows
  obtain ⟨now, present, _, _, raked⟩ := grows.keeps id _ (parallel?_markRaked found)
  obtain ⟨more, settled, fresh⟩ := grows.settles
  have first : id ∉ next.settled := by
    rw [settled]
    intro again
    rcases List.mem_append.mp again with before | during
    · obtain ⟨other, there, done⟩ := sane.settled id before
      cases found.symm.trans there
      simp [unraked] at done
    · have := fresh id during _ (parallel?_markRaked found)
      contradiction
  constructor
  · refine ⟨nextSane.numbers, nextSane.paths, nextSane.branches, nextSane.explicit, ?_, ?_⟩
    · refine List.nodup_append.mpr ⟨nextSane.settledOnce, by simp, ?_⟩
      rintro other before _ new rfl
      exact first (List.mem_singleton.mp new ▸ before)
    · intro other member
      rcases List.mem_append.mp member with before | new
      · exact nextSane.settled other before
      · rw [List.mem_singleton.mp new]
        exact ⟨now, present, raked rfl⟩
  · refine ⟨all.keeps, ?_, all.inFlight, all.raking, all.version⟩
    obtain ⟨more, eq, before⟩ := all.settles
    refine ⟨more ++ [id], by rw [eq, List.append_assoc], fun other member => ?_⟩
    rcases List.mem_append.mp member with during | new
    · exact before other during
    · intro same there
      rw [List.mem_singleton.mp new] at there
      cases found.symm.trans there
      exact unraked

theorem Sane.rakeWithin_succeeds {bound : Nat} (sane : session.Sane scene.graph)
    (coherent : scene.graph.Coherent) (drills : DrillsNodes scene.graph document flight drill)
    (under : session.inFlight = flight) (held : session.Holds document id) {limit : Nat}
    (below : id.index < limit) (closed : session.ClosedBelow limit)
    (enough : (session.unraked limit).card < bound) :
    Succeeds (rakeWithin drill scene bound id session) fun next =>
      next.Sane scene.graph ∧ Extends session next := by
  induction bound generalizing id session with
  | zero => omega
  | succ bound ih =>
    rw [rakeWithin]
    refine held.parallelOf.bind fun parallel h => ?_
    obtain ⟨found, ours⟩ := h
    cases done : parallel.raked with
    | true => exact .pure ⟨sane, .refl session⟩
    | false =>
      have marked := extends_markRaked session id
      have fewer := closed.card_unraked_markRaked found done below
      let inv (next : Session) := next.Sane scene.graph ∧ Extends (session.markRaked id) next
      have fold : Succeeds (parallel.edges.toList.foldlM
          (fun session edge => rakeWithin drill scene bound edge session) (session.markRaked id)) inv :=
          Succeeds.foldlM_of_forall inv
        ⟨sane_markRaked sane id, .refl _⟩
        (fun edge member state h => by
          obtain ⟨stateSane, grows⟩ := h
          have all := marked.trans grows
          have edgeHeld : session.Holds document edge :=
            ours ▸ sane.branches id parallel found edge (List.mem_append_left _ member)
          have still := ((closed.extends marked).card_unraked_le grows).trans_lt fewer
          refine (ih stateSane (all.inFlight.trans under) (all.holds edgeHeld)
            (closed.2 id parallel found below edge member) (closed.extends all) (by omega)).mono
              fun next h => ⟨h.1, grows.trans h.2⟩)
      refine fold.bind fun mid h => ?_
      obtain ⟨midSane, midGrows⟩ := h
      have all := marked.trans midGrows
      refine (midSane.rakeExplicit_succeeds coherent drills (all.inFlight.trans under)
        (all.holds held)).bind fun last h => ?_
      exact .pure (sane.settle h.1 (midGrows.trans h.2) found done)

theorem Sane.rake_succeeds (sane : session.Sane scene.graph) (coherent : scene.graph.Coherent)
    (drills : DrillsNodes scene.graph document flight drill) (under : session.inFlight = flight)
    (held : session.Holds document id) :
    Succeeds (session.rake drill scene id) fun next =>
      next.Sane scene.graph ∧ Extends session next := by
  have closed : session.ClosedBelow session.size := by
    refine ⟨Nat.le_refl _, fun other parallel found _ edge member => ?_⟩
    obtain ⟨_, present, _⟩ := sane.branches other parallel found edge (List.mem_append_left _ member)
    exact lt_of_parallel? present
  have few : (session.unraked session.size).card ≤ session.size := by
    rw [unraked]
    refine (Finset.card_filter_le _ _).trans ?_
    rw [Finset.card_range]
  have below : id.index < session.size := by
    obtain ⟨_, found, _⟩ := held
    exact lt_of_parallel? found
  exact sane.rakeWithin_succeeds coherent drills under held below closed (Nat.lt_succ_of_le few)

end Rake

end Session
end OutlineTypes
