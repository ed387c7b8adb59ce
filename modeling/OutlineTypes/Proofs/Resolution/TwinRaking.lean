import OutlineTypes.Proofs.Resolution.TwinSessions
import OutlineTypes.Resolution.Drill

/-! Raking twin sessions. Raking goes through the same candidates in twin scenes, chooses the same bases and
reports the same violations. -/
namespace OutlineTypes

open OutlineTypes.Graph

variable {pairs : Pairing} {first second : Scene} {roll : List ParallelId}

/-- Nodes of the two scenes that may be meant equally well. -/
structure TwinSuccessors (pairs : Pairing) (graph other : Graph) (successor twin : Successor) : Prop where
  longitude : twin.longitude = successor.longitude
  node : TwinIds pairs graph other successor.node twin.node

/-- Drills come to the same. -/
inductive TwinOutcomes (roll : List ParallelId) : Outcome → Outcome → Prop where
  | resolved {id again : ParallelId} (same : Numbered roll id again) :
    TwinOutcomes roll (.resolved id) (.resolved again)
  | unpopulated : TwinOutcomes roll .unpopulated .unpopulated
  | circular : TwinOutcomes roll .circular .circular

/-- Both drill twin sessions in lockstep. -/
def TwinDrillers (pairs : Pairing) (first second : Scene) (drill again : Driller) : Prop :=
  ∀ path other session twin, pairs.SamePath path other → TwinSessions pairs first second session twin →
    Lockstep (TwinResults pairs first second TwinOutcomes (pairs.ids session)) (drill path session) (again other twin)

/-- The same base with related results. -/
structure TwinChoices (pairs : Pairing) (first second : Scene) (R : List ParallelId → α → β → Prop)
    (roll : List ParallelId) (result : Option ParallelId × α × Session) (twin : Option ParallelId × β × Session) :
    Prop where
  base : Option.Rel (Numbered (pairs.ids result.2.2)) result.1 twin.1
  result : TwinResults pairs first second R roll result.2 twin.2

namespace TwinContracts

variable {contract twin : Contract} {lineage others : List ParallelId}

theorem isOpen (twins : TwinContracts roll contract twin) : twin.isOpen = contract.isOpen :=
  OrderedSet.isEmpty_of_rel twins.conditions

theorem hasUnsatisfied (twins : TwinContracts roll contract twin) : twin.hasUnsatisfied = contract.hasUnsatisfied :=
  congrArg (!·) (OrderedSet.isEmpty_of_rel twins.unsatisfied)

variable (unique : Relator.BiUnique (Numbered roll)) (same : List.Forall₂ (Numbered roll) lineage others)
include unique same

theorem satisfy (twins : TwinContracts roll contract twin) :
    TwinContracts roll (contract.satisfy lineage) (twin.satisfy others) where
  conditions := twins.conditions
  unsatisfied := by
    refine List.rel_filter (fun id again number => ?_) twins.unsatisfied
    simp only [decide_eq_true_eq, List.rel_mem unique number same]

theorem gain (twins : TwinContracts roll contract twin) : twin.gain others = contract.gain lineage := by
  have unsatisfied := twins.unsatisfied
  unfold OrderedSet.Rel at unsatisfied
  unfold Contract.gain
  generalize contract.unsatisfied.toList = xs at unsatisfied ⊢
  generalize twin.unsatisfied.toList = ys at unsatisfied ⊢
  induction unsatisfied with
  | nil => rfl
  | cons number _ ih => simp only [List.countP_cons, ih, decide_mem_of_biUnique unique same number]

theorem requiring : TwinContracts roll (.requiring lineage) (.requiring others) :=
  ⟨OrderedSet.rel_ofList unique same, OrderedSet.rel_ofList unique same⟩

end TwinContracts

theorem rel_orElse {R : α → β → Prop} {x y : Option α} {x' y' : Option β} (first : Option.Rel R x x')
    (second : Option.Rel R y y') : Option.Rel R (x <|> y) (x' <|> y') := by
  cases first with
  | none => exact second
  | some same => exact .some same

namespace TwinSessions

variable {session twin : Session} {drill again : Driller} {id number : ParallelId}

section Candidates

variable {candidate other : Successor}

theorem drillCandidate (scenes : TwinScenes pairs first second) (drills : TwinDrillers pairs first second drill again)
    (twins : TwinSessions pairs first second session twin)
    (same : TwinSuccessors pairs first.graph second.graph candidate other) :
    Lockstep (TwinResults pairs first second TwinOutcomes (pairs.ids session))
      (session.drillCandidate drill first candidate) (twin.drillCandidate again second other) := by
  obtain ⟨node, twinNode, here, there, nodes⟩ := scenes.node? same.node
  simp only [Session.drillCandidate, here, there]
  exact drills node.path twinNode.path session twin nodes.path twins

theorem cached? (scenes : TwinScenes pairs first second) (twins : TwinSessions pairs first second session twin)
    (same : TwinSuccessors pairs first.graph second.graph candidate other) :
    Option.Rel (Numbered (pairs.ids session)) (session.cached? first candidate) (twin.cached? second other) := by
  obtain ⟨node, twinNode, here, there, nodes⟩ := scenes.node? same.node
  simp only [Session.cached?, here, there, Option.bind_some]
  exact twins.lookup? scenes nodes.path

variable {candidates others : List Successor}

theorem nearest (scenes : TwinScenes pairs first second) (drills : TwinDrillers pairs first second drill again)
    (twins : TwinSessions pairs first second session twin)
    (same : List.Forall₂ (TwinSuccessors pairs first.graph second.graph) candidates others)
    {circular around : Option ParallelId} (met : Option.Rel (Numbered (pairs.ids session)) circular around) :
    Lockstep (TwinResults pairs first second (fun roll => Option.Rel (Numbered roll)) (pairs.ids session))
      (Session.nearest drill first circular session candidates)
      (Session.nearest again second around twin others) := by
  induction same generalizing session twin circular around with
  | nil => exact .ok ⟨met, twins.run⟩
  | cons same _ ih =>
    refine (twins.drillCandidate scenes drills same).bindResults fun _ _ session twin twins grown outcome => ?_
    have met := rel_option_mono (fun _ _ same => same.mono grown) met
    cases outcome with
    | resolved base => exact .ok ⟨.some base, twins.run⟩
    | circular => exact ih twins (rel_orElse met (twins.cached? scenes same))
    | unpopulated => exact ih twins met

theorem satisfying (scenes : TwinScenes pairs first second)
    (drills : TwinDrillers pairs first second drill again)
    (twins : TwinSessions pairs first second session twin)
    (same : List.Forall₂ (TwinSuccessors pairs first.graph second.graph) candidates others)
    {contract terms : Contract} (contracts : TwinContracts (pairs.ids session) contract terms)
    {fallback circular behind around : Option ParallelId}
    (fallen : Option.Rel (Numbered (pairs.ids session)) fallback behind)
    (met : Option.Rel (Numbered (pairs.ids session)) circular around) :
    Lockstep (TwinChoices pairs first second TwinContracts (pairs.ids session))
      (Session.satisfying drill first contract fallback circular session candidates)
      (Session.satisfying again second terms behind around twin others) := by
  induction same generalizing session twin fallback circular behind around with
  | nil => exact .ok ⟨rel_orElse fallen met, contracts, twins.run⟩
  | cons same _ ih =>
    refine (twins.drillCandidate scenes drills same).bind ?_
    rintro ⟨_, session⟩ ⟨_, twin⟩ ⟨outcome, sessions⟩
    have grown := sessions.grown
    have twins := sessions.toTwinSessions
    have contracts := contracts.mono grown
    have fallen := rel_option_mono (fun _ _ same => same.mono grown) fallen
    have met := rel_option_mono (fun _ _ same => same.mono grown) met
    have since {run : Except Fatal (Option ParallelId × Contract × Session)}
        {other : Except Fatal (Option ParallelId × Contract × Session)}
        (h : Lockstep (TwinChoices pairs first second TwinContracts (pairs.ids session)) run other) :
        Lockstep (TwinChoices pairs first second TwinContracts _) run other :=
      h.mono fun _ _ choice => ⟨choice.base, choice.result.since grown⟩
    apply since
    cases outcome with
    | resolved base =>
      simp only [contracts.hasUnsatisfied]
      split
      · refine (twins.lineageOf base).bind fun lineage others same => ?_
        simp only [contracts.gain twins.biUnique same]
        split
        · exact .ok ⟨.some base, contracts.satisfy twins.biUnique same, twins.run⟩
        · exact ih twins contracts (rel_orElse fallen (.some base)) met
      · exact .ok ⟨.some base, contracts, twins.run⟩
    | circular => exact ih twins contracts fallen (rel_orElse met (twins.cached? scenes same))
    | unpopulated => exact ih twins contracts fallen met

theorem accept (twins : TwinSessions pairs first second session twin) {contract terms : Option Contract}
    (contracts : Option.Rel (TwinContracts (pairs.ids session)) contract terms) {base other : Option ParallelId}
    (bases : Option.Rel (Numbered (pairs.ids session)) base other) :
    Lockstep (Option.Rel (TwinContracts (pairs.ids session))) (session.accept contract base)
      (twin.accept terms other) := by
  cases contracts with
  | none => exact .ok .none
  | some contracts =>
    cases bases with
    | none => exact .ok (.some contracts)
    | some same =>
      simp only [Session.accept, contracts.isOpen]
      split
      · exact .ok (.some contracts)
      · exact (twins.lineageOf same).bind fun lineage others same =>
          .pure (.some (contracts.satisfy twins.biUnique same))

theorem chooseBase (scenes : TwinScenes pairs first second)
    (drills : TwinDrillers pairs first second drill again)
    (twins : TwinSessions pairs first second session twin)
    (same : List.Forall₂ (TwinSuccessors pairs first.graph second.graph) candidates others)
    {contract terms : Option Contract} (contracts : Option.Rel (TwinContracts (pairs.ids session)) contract terms) :
    Lockstep (TwinChoices pairs first second (fun roll => Option.Rel (TwinContracts roll)) (pairs.ids session))
      (session.chooseBase drill first contract candidates)
      (twin.chooseBase again second terms others) := by
  have byNearness : Lockstep
      (TwinChoices pairs first second (fun roll => Option.Rel (TwinContracts roll)) (pairs.ids session))
      (session.nearest drill first none candidates >>= fun result =>
        result.2.accept contract result.1 >>= fun kept => pure (result.1, kept, result.2))
      (twin.nearest again second none others >>= fun result =>
        result.2.accept terms result.1 >>= fun kept => pure (result.1, kept, result.2)) := by
    refine (twins.nearest scenes drills same .none).bind ?_
    rintro ⟨base, session⟩ ⟨other, twin⟩ ⟨bases, sessions⟩
    have contracts := rel_option_mono (fun _ _ same => same.mono sessions.grown) contracts
    exact (sessions.accept contracts bases).bind fun _ _ kept => .ok ⟨bases, kept, sessions⟩
  cases contracts with
  | none => exact byNearness
  | some contracts =>
    cases same with
    | nil => exact byNearness
    | cons nearer rest =>
      cases rest with
      | nil => exact byNearness
      | cons next rest =>
        refine (twins.satisfying scenes drills (.cons nearer (.cons next rest)) contracts .none .none).bind ?_
        rintro ⟨_, _, session⟩ ⟨base, contract, twin⟩ ⟨bases, kept, sessions⟩
        exact .ok ⟨bases, .some kept, sessions⟩

end Candidates

section Edges

theorem setBase (scenes : TwinScenes pairs first second) (twins : TwinSessions pairs first second session twin)
    (same : Numbered (pairs.ids session) id number) {edge opposite : EdgeId}
    (edges : TwinEdgeIds pairs first.graph second.graph edge opposite) {base other : ParallelId}
    (bases : Numbered (pairs.ids session) base other) :
    TwinRuns pairs first second (pairs.ids session) (session.modify id (Parallel.setBase edge base))
      (twin.modify number (Parallel.setBase opposite other)) := by
  refine twins.modify same (fun _ => rfl) (fun _ => rfl) fun parallel twin twins => ?_
  refine twins.mapResolved fun resolved twin twins => ⟨twins.node, ?_, twins.contract⟩
  exact OrderedMap.rel_insert scenes.paired.biUnique_twinEdgeIds twins.bases edges bases

theorem setContract (twins : TwinSessions pairs first second session twin)
    (same : Numbered (pairs.ids session) id number) {contract terms : Option Contract}
    (contracts : Option.Rel (TwinContracts (pairs.ids session)) contract terms) :
    TwinRuns pairs first second (pairs.ids session) (session.modify id (Parallel.setContract contract))
      (twin.modify number (Parallel.setContract terms)) := by
  refine twins.modify same (fun _ => rfl) (fun _ => rfl) fun parallel twin twins => ?_
  exact twins.mapResolved fun resolved twin twins => { twins with contract := contracts }

theorem rakeEdge (scenes : TwinScenes pairs first second) (drills : TwinDrillers pairs first second drill again)
    (same : Numbered roll id number) {state other : Option Contract × Session}
    (twins : TwinResults pairs first second (fun roll => Option.Rel (TwinContracts roll)) roll state other)
    {edge twinEdge : Edge} (edges : TwinEdges pairs first.graph second.graph edge twinEdge) :
    Lockstep (TwinResults pairs first second (fun roll => Option.Rel (TwinContracts roll)) roll)
      (Session.rakeEdge drill first id state edge) (Session.rakeEdge again second number other twinEdge) := by
  obtain ⟨contract, session⟩ := state
  obtain ⟨terms, twin⟩ := other
  obtain ⟨contracts, sessions⟩ := twins
  have ids : TwinEdgeIds pairs first.graph second.graph edge.id twinEdge.id := ⟨edge, twinEdge, edges, rfl, rfl⟩
  have marked := sessions.cruft _ _ (.edge ids)
  have candidates : List.Forall₂ (TwinSuccessors pairs first.graph second.graph)
      (edge.successors.filter fun candidate => !session.cruft.hasNode candidate.node)
      (twinEdge.successors.filter fun candidate => !twin.cruft.hasNode candidate.node) := by
    refine List.rel_filter (fun candidate other same => ?_)
      ((scenes.paired.successors edges).imp fun _ _ same => ⟨same.1, same.2⟩)
    have marked := sessions.cruft _ _ (.node same.node)
    simp only [Cruft.hasNode, marked]
  simp only [Session.rakeEdge, Cruft.hasEdge, marked]
  split
  · exact .ok ⟨contracts, sessions⟩
  · generalize edge.successors.filter _ = some at candidates ⊢
    generalize twinEdge.successors.filter _ = others at candidates ⊢
    have none : others.isEmpty = some.isEmpty := by cases candidates <;> rfl
    rw [none]
    split
    · have condemned := sessions.toTwinSessions.condemn scenes (.edge ids) .unresolved
      exact .ok ⟨contracts, condemned.since sessions.grown⟩
    · refine (sessions.toTwinSessions.chooseBase scenes drills candidates contracts).bind ?_
      rintro ⟨base, contract, session⟩ ⟨other, terms, twin⟩ ⟨bases, contracts, further⟩
      have all := further.since sessions.grown
      cases bases with
      | none => exact .ok ⟨contracts, all⟩
      | some base =>
        have set := further.toTwinSessions.setBase scenes (same.mono all.grown) ids base
        exact .ok ⟨rel_option_mono (fun _ _ same => same.mono set.grown) contracts, set.since all.grown⟩

end Edges

section Contracts

theorem violationMessage (twins : TwinSessions pairs first second session twin) {path other : TypePath}
    (same : pairs.SamePath path other) {unsatisfied others : List ParallelId}
    (missing : List.Forall₂ (Numbered (pairs.ids session)) unsatisfied others) :
    Lockstep Eq (session.violationMessage path unsatisfied) (twin.violationMessage other others) := by
  have text {path other : TypePath} (same : pairs.SamePath path other) : other.text = path.text := by
    rw [TypePath.text, TypePath.text, Paired.names_of_samePath same]
  unfold Session.violationMessage
  refine Lockstep.bind (Lockstep.mapM missing (fun id number same => ?_) : Lockstep (List.Forall₂ Eq) _ _)
    fun required _ quoted => ?_
  · exact (twins.parallelOf same).bind fun parallel opposite alike => .pure (by rw [text alike.path])
  · rw [List.forall₂_eq_eq_eq] at quoted
    exact .pure (by rw [quoted, text same])

theorem notes (scenes : TwinScenes pairs first second) {log other : FaultLog} (logs : TwinLogs pairs log other)
    {faults others : List (Option Fault)} (same : List.Forall₂ (Option.Rel (TwinFaults pairs)) faults others) :
    TwinLogs pairs (faults.foldl FaultLog.note log) (others.foldl FaultLog.note other) := by
  induction same generalizing log other with
  | nil => exact logs
  | cons same _ ih => exact ih (scenes.note logs same)

theorem reportViolation (scenes : TwinScenes pairs first second)
    (twins : TwinSessions pairs first second session twin) {path other : TypePath} (paths : pairs.SamePath path other)
    {node twinNode : Node} (same : Twins pairs first.graph second.graph node twinNode)
    {contract terms : Option Contract} (contracts : Option.Rel (TwinContracts (pairs.ids session)) contract terms) :
    Lockstep (TwinRuns pairs first second (pairs.ids session)) (session.reportViolation first path node contract)
      (twin.reportViolation second other twinNode terms) := by
  cases contracts with
  | none => exact .ok twins.run
  | some contracts =>
    rename_i contract terms
    have missing := contracts.unsatisfied
    unfold OrderedSet.Rel at missing
    unfold Session.reportViolation
    simp only [Option.map_some]
    generalize contract.unsatisfied.toList = unsatisfied at missing ⊢
    generalize terms.unsatisfied.toList = others at missing ⊢
    cases missing with
    | nil => exact .ok twins.run
    | cons first rest =>
      refine (twins.violationMessage paths (.cons first rest)).bind ?_
      rintro message _ rfl
      have lines : List.Forall₂ pairs.SameLine (node.declarations.toList.map SpanId.statement)
          (twinNode.declarations.toList.map SpanId.statement) := by
        rw [List.forall₂_map_left_iff, List.forall₂_map_right_iff]
        exact (scenes.order.declarations node twinNode same).imp fun _ _ place =>
          (Pairing.samePlace_iff.mp place).1
      have statements := OrderedSet.rel_ofList scenes.paired.biUnique_sameLine lines
      refine .ok { twins.run with faults := notes scenes twins.faults ?_ }
      rw [List.forall₂_map_left_iff, List.forall₂_map_right_iff]
      refine statements.imp fun id again line => ?_
      rcases eq_none_or_exists_of_rel (scenes.atStatement? .contract line) with
        ⟨here, there⟩ | ⟨_, _, here, there, fault⟩ <;> rw [here, there]
      · exact .none
      · exact .some { fault with message := rfl }

theorem contractOf (scenes : TwinScenes pairs first second)
    (twins : TwinSessions pairs first second session twin) (numbers : Numbered (pairs.ids session) id number)
    {parallel other : Parallel} (same : TwinParallels pairs first second (pairs.ids session) parallel other) :
    Lockstep (Option.Rel (TwinContracts (pairs.ids session))) (session.contractOf first id parallel)
      (twin.contractOf second number other) := by
  simp only [Session.contractOf, scenes.checks, same.isApex]
  split
  · exact (twins.conditionsOf numbers).bind fun _ _ same => .pure (.some (.requiring twins.biUnique same))
  · exact .ok .none

end Contracts

section Parallels

theorem raking_cons (twins : TwinSessions pairs first second session twin)
    (same : Numbered (pairs.ids session) id number) :
    TwinSessions pairs first second { session with raking := id :: session.raking }
      { twin with raking := number :: twin.raking } :=
  { twins with raking := .cons same twins.raking }

theorem raking_drop (twins : TwinSessions pairs first second session twin) :
    TwinSessions pairs first second { session with raking := session.raking.drop 1 }
      { twin with raking := twin.raking.drop 1 } :=
  { twins with raking := List.forall₂_drop 1 twins.raking }

theorem rakeExplicit (scenes : TwinScenes pairs first second)
    (drills : TwinDrillers pairs first second drill again) (numbers : Numbered (pairs.ids session) id number)
    (twins : TwinSessions pairs first second session twin) :
    Lockstep (TwinRuns pairs first second (pairs.ids session)) (session.rakeExplicit drill first id)
      (twin.rakeExplicit again second number) := by
  refine (twins.parallelOf numbers).bind fun parallel other same => ?_
  rcases eq_none_or_exists_of_rel same.explicit with ⟨here, there⟩ | ⟨resolved, twinResolved, here, there, explicit⟩
  · simp only [here, there]
    exact .ok twins.run
  · obtain ⟨node, twinNode, found, present, nodes⟩ := scenes.node? explicit.node
    simp only [here, there, found, present]
    refine (twins.contractOf scenes numbers same).bind fun contract terms contracts => ?_
    have outbounds := scenes.order.outbounds node twinNode nodes
    have started : TwinResults pairs first second (fun roll => Option.Rel (TwinContracts roll)) (pairs.ids session)
        (contract, { session with raking := id :: session.raking })
        (terms, { twin with raking := number :: twin.raking }) := ⟨contracts, (twins.raking_cons numbers).run⟩
    refine (Lockstep.foldlM outbounds started fun _ _ _ _ twins same =>
      rakeEdge scenes drills numbers twins same).bind ?_
    rintro ⟨contract, next⟩ ⟨terms, last⟩ ⟨contracts, sessions⟩
    have dropped : TwinRuns pairs first second (pairs.ids session) { next with raking := next.raking.drop 1 }
        { last with raking := last.raking.drop 1 } :=
      { sessions.toTwinSessions.raking_drop with grown := sessions.grown }
    refine (dropped.reportViolation scenes same.path nodes contracts).bind fun next last told => ?_
    have all := told.since dropped.grown
    have set := told.toTwinSessions.setContract (numbers.mono all.grown)
      (rel_option_mono (fun _ _ same => same.mono told.grown) contracts)
    exact .ok (set.since all.grown)

/-- The bounds may differ, as a rake that meets its bound does not end. -/
theorem rakeWithin (scenes : TwinScenes pairs first second)
    (drills : TwinDrillers pairs first second drill again) (bound limit : Nat)
    (numbers : Numbered (pairs.ids session) id number) (twins : TwinSessions pairs first second session twin) :
    Lockstep (TwinRuns pairs first second (pairs.ids session)) (Session.rakeWithin drill first bound id session)
      (Session.rakeWithin again second limit number twin) := by
  induction bound generalizing limit id number session twin with
  | zero => exact .error_left _
  | succ bound ih =>
    cases limit with
    | zero => exact .error_right _
    | succ limit =>
      refine (twins.parallelOf numbers).bind fun parallel other same => ?_
      simp only [same.raked]
      split
      · exact .ok twins.run
      · have started : TwinRuns pairs first second (pairs.ids session)
            (session.modify id fun parallel => { parallel with raked := true })
            (twin.modify number fun parallel => { parallel with raked := true }) :=
          twins.modify numbers (fun _ => rfl) (fun _ => rfl) fun _ _ same => { same with raked := rfl }
        refine (Lockstep.foldlM same.edges started fun next last edge opposite sessions edges => ?_).bindRuns
          fun next last twins grown => ?_
        · exact (ih limit (edges.mono sessions.grown) sessions.toTwinSessions).mono fun _ _ h => h.since sessions.grown
        · refine (twins.rakeExplicit scenes drills (numbers.mono grown)).bind fun next last twins => .pure ?_
          exact { twins with }

theorem rake (scenes : TwinScenes pairs first second) (drills : TwinDrillers pairs first second drill again)
    (numbers : Numbered (pairs.ids session) id number) (twins : TwinSessions pairs first second session twin) :
    Lockstep (TwinRuns pairs first second (pairs.ids session)) (Session.rake drill first id session)
      (Session.rake again second number twin) := twins.rakeWithin scenes drills _ _ numbers

end Parallels

end TwinSessions

end OutlineTypes
