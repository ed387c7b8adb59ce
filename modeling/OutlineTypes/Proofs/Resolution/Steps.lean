import OutlineTypes.Proofs.Graph.Isolation
import OutlineTypes.Proofs.Resolution.Drill
import OutlineTypes.Proofs.Resolution.Ledger

/-! Steps. All that the drill of a path does to a session comes down to a few kinds of step, each of them to
the parallels, the edges and the lines of the document of the path. -/
namespace OutlineTypes.Session

variable {scene : Scene} {document other : DocumentId} {session next last : Session} {id : ParallelId}
  {drill : Driller}

/-- The parallel leads to parallels of the document, and its node is one of the document. -/
structure Local (graph : Graph) (document : DocumentId) (session : Session) (parallel : Parallel) : Prop where
  branches : ∀ branch ∈ parallel.branches, session.Holds document branch
  node : ∀ resolved, parallel.explicit = some resolved →
    ∃ node ∈ graph.nodesIn document, node.id = resolved.node

/-- Nothing leads out of the document. -/
structure Closed (graph : Graph) (document : DocumentId) (session : Session) : Prop where
  numbers : ∀ id parallel, session.parallel? id = some parallel → parallel.id = id
  locals : ∀ id parallel, session.parallel? id = some parallel → parallel.path.document = document →
    session.Local graph document parallel

/-- The report of what a contract misses, in all lines that declare the node. -/
def accuse (session : Session) (scene : Scene) (node : Node) (message : String) : Session :=
  let lines := (OrderedSet.ofList (node.declarations.toList.map SpanId.statement)).toList
  { session with faults := (lines.map (violation? scene.documents message)).foldl FaultLog.note session.faults }

/-- One thing that drills in a document do. -/
inductive Step (scene : Scene) (document : DocumentId) (session : Session) : Session → Prop where
  | insert {path : TypePath} {container : Option ParallelId} {inserted : ParallelId × Session}
    (ours : path.document = document)
    (done : session.insert path container (session.soundNode? scene path) = .ok inserted) :
    Step scene document session inserted.2
  | modify {id : ParallelId} {change : Parallel → Parallel} (held : session.Holds document id)
    (number : ∀ parallel, (change parallel).id = parallel.id)
    (path : ∀ parallel, (change parallel).path = parallel.path)
    (stays : ∀ parallel, session.parallel? id = some parallel →
      session.Local scene.graph document (change parallel)) :
    Step scene document session (session.modify id change)
  | condemn {edge : Edge} (listed : edge ∈ scene.graph.edgesIn document) (kind : FaultKind) :
    Step scene document session (session.condemn scene (.edge edge.id) kind)
  | accuse {node : Node} (listed : node ∈ scene.graph.nodesIn document) (message : String) :
    Step scene document session (session.accuse scene node message)
  /-- What is under way and what is raked to the end are kept account of. -/
  | account (raking : List ParallelId) (inFlight : List TypePath) (settled : List ParallelId) :
    Step scene document session { session with raking, inFlight, settled }

/-- Any number of steps. -/
def Steps (scene : Scene) (document : DocumentId) : Session → Session → Prop :=
  Relation.ReflTransGen (Step scene document)

section Closure

theorem Holds.of_parallels (held : session.Holds other id)
    (keeps : ∀ parallel, session.parallel? id = some parallel →
      ∃ now, next.parallel? id = some now ∧ now.path = parallel.path) : next.Holds other id := by
  obtain ⟨parallel, found, ours⟩ := held
  obtain ⟨now, present, path⟩ := keeps parallel found
  exact ⟨now, present, path ▸ ours⟩

theorem parallels_insert {path : TypePath} {container : Option ParallelId} {node : Option NodeId}
    {result : ParallelId × Session} (done : session.insert path container node = .ok result) :
    result.1 = ⟨session.size⟩ ∧ result.2.parallels = session.parallels ++
      [⟨⟨session.size⟩, path, container, ∅, node.map fun node => ⟨node, ∅, none⟩, false⟩] := by
  unfold insert at done
  split at done
  · contradiction
  · cases done
    exact ⟨rfl, rfl⟩

theorem Step.keeps (step : Step scene document session next) {parallel : Parallel}
    (found : session.parallel? id = some parallel) :
    ∃ now, next.parallel? id = some now ∧ now.path = parallel.path := by
  cases step with
  | insert ours done =>
    refine ⟨parallel, ?_, rfl⟩
    rw [parallel?, (parallels_insert done).2, List.getElem?_append_left (lt_of_parallel? found)]
    exact found
  | modify held number path stays =>
    obtain ⟨now, present, rfl | ⟨_, rfl⟩⟩ := exists_modified _ _ found
    · exact ⟨_, present, rfl⟩
    · exact ⟨_, present, path parallel⟩
  | condemn listed kind =>
    refine ⟨parallel, ?_, rfl⟩
    rw [parallel?, (calm_condemn session scene _ kind).parallels]
    exact found
  | accuse => exact ⟨parallel, found, rfl⟩
  | account => exact ⟨parallel, found, rfl⟩

theorem Step.holds (step : Step scene document session next) (held : session.Holds other id) :
    next.Holds other id :=
  held.of_parallels fun _ => step.keeps

theorem Steps.holds (steps : Steps scene document session next) (held : session.Holds other id) :
    next.Holds other id := by
  induction steps with
  | refl => exact held
  | tail _ step ih => exact step.holds ih

theorem Local.of_parallels {parallel : Parallel} (stays : session.Local scene.graph document parallel)
    (step : Step scene document session next) : next.Local scene.graph document parallel :=
  ⟨fun branch member => step.holds (stays.branches branch member), stays.node⟩

/-- A parallel that is new leads nowhere yet. -/
theorem local_inserted (session : Session) (scene : Scene) {path : TypePath} (ours : path.document = document)
    (id : ParallelId) (container : Option ParallelId) : session.Local scene.graph document
      ⟨id, path, container, ∅, (session.soundNode? scene path).map fun node => ⟨node, ∅, none⟩, false⟩ := by
  constructor
  · intro branch member
    cases sound : session.soundNode? scene path <;>
    · rw [sound] at member
      contradiction
  · intro resolved explicit
    obtain ⟨node, sound, rfl⟩ := Option.map_eq_some_iff.mp explicit
    obtain ⟨found, member, id, at_⟩ := exists_node_of_soundNode? sound
    exact ⟨found, Graph.mem_nodesIn.mpr ⟨member, by rw [at_, ours]⟩, id⟩

/-- A change that keeps the node is a matter of what the parallel leads to. -/
theorem Local.of_node {parallel now : Parallel} (stays : session.Local scene.graph document parallel)
    (branches : ∀ branch ∈ now.branches, session.Holds document branch)
    (node : now.explicit.map Resolved.node = parallel.explicit.map Resolved.node) :
    session.Local scene.graph document now := by
  refine ⟨branches, fun resolved explicit => ?_⟩
  rw [explicit, Option.map_some, eq_comm, Option.map_eq_some_iff] at node
  obtain ⟨old, stands, same⟩ := node
  exact same ▸ stays.node old stands

/-- What a step leaves was there before, or it is a parallel of the document. -/
theorem Step.origin (step : Step scene document session next) {now : Parallel}
    (found : next.parallel? id = some now) : session.parallel? id = some now ∨
      now.path.document = document ∧ session.Local scene.graph document now ∧
        (now.id = id ∨ ∃ parallel, session.parallel? id = some parallel ∧ parallel.id = now.id) := by
  cases step with
  | insert ours done =>
    rename_i path container inserted
    rw [parallel?, (parallels_insert done).2, List.getElem?_append] at found
    split at found
    · exact .inl found
    · rename_i beyond
      rw [List.getElem?_singleton] at found
      split at found
      · rename_i last
        cases found
        have number : id = ⟨session.size⟩ := by
          cases id
          simp only [ParallelId.mk.injEq, size] at *
          omega
        exact .inr ⟨ours, local_inserted session scene ours _ _, .inl number.symm⟩
      · contradiction
  | modify held number path stays =>
    obtain ⟨parallel, there, rfl | ⟨rfl, rfl⟩⟩ := exists_of_modified _ _ found
    · exact .inl there
    · obtain ⟨same, again, ours⟩ := held
      cases there.symm.trans again
      exact .inr ⟨path parallel ▸ ours, stays parallel there, .inr ⟨parallel, there, (number parallel).symm⟩⟩
  | condemn listed kind =>
    rw [parallel?, (calm_condemn session scene _ kind).parallels] at found
    exact .inl found
  | accuse => exact .inl found
  | account => exact .inl found

theorem Closed.step (closed : session.Closed scene.graph document) (step : Step scene document session next) :
    next.Closed scene.graph document where
  numbers id parallel found := by
    rcases step.origin found with before | ⟨_, _, fresh | ⟨earlier, before, same⟩⟩
    · exact closed.numbers id parallel before
    · exact fresh
    · exact same ▸ closed.numbers id earlier before
  locals id parallel found ours := by
    rcases step.origin found with before | ⟨_, stays, _⟩
    · exact (closed.locals id parallel before ours).of_parallels step
    · exact stays.of_parallels step

theorem Closed.steps (closed : session.Closed scene.graph document) (steps : Steps scene document session next) :
    next.Closed scene.graph document := by
  induction steps with
  | refl => exact closed
  | tail _ step ih => exact ih.step step

end Closure

theorem Sane.closed (sane : session.Sane scene.graph) (document : DocumentId) :
    session.Closed scene.graph document where
  numbers := sane.numbers
  locals id parallel found ours := by
    refine ⟨fun branch member => ours ▸ sane.branches id parallel found branch member, fun resolved explicit => ?_⟩
    obtain ⟨node, member, same, path⟩ := sane.explicit id parallel found resolved explicit
    exact ⟨node, Graph.mem_nodesIn.mpr ⟨member, by rw [path, ours]⟩, same⟩

section Reach

theorem Closed.holds_of_mem_branchesOf (closed : session.Closed scene.graph document)
    (held : session.Holds document id) : ∀ branch ∈ session.branchesOf id, session.Holds document branch := by
  intro branch member
  obtain ⟨parallel, found, ours⟩ := held
  simp only [branchesOf, found, Option.toList_some, List.flatMap_singleton] at member
  exact (closed.locals id parallel found ours).branches branch member

theorem Closed.holds_of_mem_lineage (closed : session.Closed scene.graph document)
    (held : session.Holds document id) : ∀ other ∈ session.lineage id, session.Holds document other :=
  forall_mem_breadthFirst (fun _ => closed.holds_of_mem_branchesOf) _ (by simpa using held)

theorem Closed.holds_of_lookup? (closed : session.Closed scene.graph document) {path : TypePath}
    (cached : session.lookup? path = some id) : session.Holds path.document id := by
  obtain ⟨parallel, met, rfl⟩ := Option.map_eq_some_iff.mp cached
  obtain ⟨id, present⟩ := exists_of_mem (List.mem_of_find?_eq_some met)
  have at_ : parallel.path = path := by simpa using List.find?_some met
  exact ⟨parallel, closed.numbers id parallel present ▸ present, by rw [at_]⟩

theorem local_of_holds (closed : session.Closed scene.graph document) (held : session.Holds document id)
    {parallel : Parallel} (found : session.parallel? id = some parallel) :
    session.Local scene.graph document parallel := by
  obtain ⟨same, again, ours⟩ := held
  cases found.symm.trans again
  exact closed.locals id parallel found ours

end Reach

section Raking

variable {candidate : Successor} {candidates : List Successor}

/-- Drills of paths of the document take steps in it and come to parallels of it. -/
def DrillsInside (scene : Scene) (document : DocumentId) (drill : Driller) : Prop :=
  ∀ path session, path.document = document → session.Closed scene.graph document →
    Ensures (drill path session) fun result => Steps scene document session result.2 ∧
      ∀ id, result.1 = .resolved id → result.2.Holds document id

theorem Sound.steps {base : Option ParallelId} (sound : session.Sound document base)
    (steps : Steps scene document session next) : next.Sound document base :=
  fun id same => steps.holds (sound id same)

variable (framed : scene.graph.Framed) (drills : DrillsInside scene document drill)
  (closed : session.Closed scene.graph document)

include framed drills closed

theorem drillCandidate_steps (eligible : Eligible scene.graph document candidate) :
    Ensures (session.drillCandidate drill scene candidate) fun result =>
      Steps scene document session result.2 ∧ (∀ id, result.1 = .resolved id → result.2.Holds document id) ∧
        result.2.Sound document (result.2.cached? scene candidate) := by
  obtain ⟨node, member, same, ours⟩ := eligible
  simp only [drillCandidate, cached?, ← same, framed.node?_id member, Option.bind_some]
  refine (drills node.path session ours closed).mono fun result h => ⟨h.1, h.2, fun id cached => ?_⟩
  exact ours ▸ (closed.steps h.1).holds_of_lookup? cached

theorem nearest_steps {circular : Option ParallelId} (sound : session.Sound document circular)
    (eligible : ∀ candidate ∈ candidates, Eligible scene.graph document candidate) :
    Ensures (nearest drill scene circular session candidates) fun result =>
      Steps scene document session result.2 ∧ result.2.Sound document result.1 := by
  induction candidates generalizing session circular with
  | nil => exact .ok ⟨.refl, sound⟩
  | cons candidate rest ih =>
    rw [List.forall_mem_cons] at eligible
    rw [nearest]
    refine (drillCandidate_steps framed drills closed eligible.1).bind fun result h => ?_
    obtain ⟨outcome, next⟩ := result
    obtain ⟨steps, held, cached⟩ := h
    have nextClosed := closed.steps steps
    cases outcome with
    | resolved base =>
      refine .pure ⟨steps, fun id found => ?_⟩
      cases found
      exact held base rfl
    | circular =>
      exact (ih nextClosed (sound_or (sound.steps steps) cached) eligible.2).mono
        fun _ h => ⟨steps.trans h.1, h.2⟩
    | unpopulated =>
      exact (ih nextClosed (sound.steps steps) eligible.2).mono fun _ h => ⟨steps.trans h.1, h.2⟩

theorem satisfying_steps {contract : Contract} {fallback circular : Option ParallelId}
    (fallbackSound : session.Sound document fallback) (circularSound : session.Sound document circular)
    (eligible : ∀ candidate ∈ candidates, Eligible scene.graph document candidate) :
    Ensures (satisfying drill scene contract fallback circular session candidates) fun result =>
      Steps scene document session result.2.2 ∧ result.2.2.Sound document result.1 := by
  induction candidates generalizing session fallback circular with
  | nil => exact .ok ⟨.refl, sound_or fallbackSound circularSound⟩
  | cons candidate rest ih =>
    rw [List.forall_mem_cons] at eligible
    rw [satisfying]
    refine (drillCandidate_steps framed drills closed eligible.1).bind fun result h => ?_
    obtain ⟨outcome, next⟩ := result
    obtain ⟨steps, held, cached⟩ := h
    have nextClosed := closed.steps steps
    cases outcome with
    | resolved base =>
      have found : next.Sound document (some base) := fun id same => by
        cases same
        exact held base rfl
      simp only
      split
      · refine (Ensures.anything _).bind fun lineage _ => ?_
        split
        · exact .pure ⟨steps, found⟩
        · exact (ih nextClosed (sound_or (fallbackSound.steps steps) found) (circularSound.steps steps)
            eligible.2).mono fun _ h => ⟨steps.trans h.1, h.2⟩
      · exact .pure ⟨steps, found⟩
    | circular =>
      exact (ih nextClosed (fallbackSound.steps steps) (sound_or (circularSound.steps steps) cached)
        eligible.2).mono fun _ h => ⟨steps.trans h.1, h.2⟩
    | unpopulated =>
      exact (ih nextClosed (fallbackSound.steps steps) (circularSound.steps steps) eligible.2).mono
        fun _ h => ⟨steps.trans h.1, h.2⟩

theorem chooseBase_steps (contract : Option Contract)
    (eligible : ∀ candidate ∈ candidates, Eligible scene.graph document candidate) :
    Ensures (session.chooseBase drill scene contract candidates) fun result =>
      Steps scene document session result.2.2 ∧ result.2.2.Sound document result.1 := by
  have nothing : session.Sound document none := fun id same => by contradiction
  unfold chooseBase
  split
  · exact (satisfying_steps framed drills closed nothing nothing eligible).bind fun _ h => .pure h
  · refine (nearest_steps framed drills closed nothing eligible).bind fun _ h => ?_
    exact (Ensures.anything _).bind fun _ _ => .pure h

omit closed in
theorem rakeEdge_steps (held : session.Holds document id) {state : Option Contract × Session}
    (steps : Steps scene document session state.2) (closed : state.2.Closed scene.graph document) {edge : Edge}
    (listed : edge ∈ scene.graph.edgesIn document)
    (eligible : ∀ candidate ∈ edge.successors, Eligible scene.graph document candidate) :
    Ensures (rakeEdge drill scene id state edge) fun result => Steps scene document session result.2 := by
  unfold rakeEdge
  simp only
  split
  · exact .pure steps
  · split
    · exact .pure (steps.tail (.condemn listed .unresolved))
    · refine (chooseBase_steps framed drills closed state.1 fun candidate member =>
        eligible candidate (List.mem_filter.mp member).1).bind fun result h => ?_
      obtain ⟨base, contract, next⟩ := result
      obtain ⟨more, sound⟩ := h
      have all : Steps scene document session next := steps.trans more
      cases base with
      | none => exact .pure all
      | some base =>
        refine .pure (all.tail (.modify (all.holds held) (fun _ => rfl) (fun _ => rfl) fun parallel found => ?_))
        have before := local_of_holds (closed.steps more) (all.holds held) found
        refine before.of_node (fun branch member => ?_) (node_setBase edge.id base parallel)
        exact (mem_bases_setBase member).elim (fun same => sound branch (congrArg some same.symm))
          (before.branches branch)

omit framed drills closed in
theorem reportViolation_accuses (session : Session) (scene : Scene) (path : TypePath) (node : Node)
    (contract : Option Contract) : Ensures (session.reportViolation scene path node contract) fun next =>
      next = session ∨ ∃ message, next = session.accuse scene node message := by
  unfold reportViolation
  split
  · exact .ok (.inl rfl)
  · exact .ok (.inl rfl)
  · exact (Ensures.anything _).bind fun message _ => .pure (.inr ⟨message, rfl⟩)

omit framed drills closed in
theorem branches_setContract (contract : Option Contract) (parallel : Parallel) :
    (parallel.setContract contract).branches = parallel.branches := by
  cases parallel with | mk id path container edges explicit raked =>
  cases explicit <;> rfl

omit framed closed in
theorem rakeExplicit_steps (coherent : scene.graph.Coherent) (closed : session.Closed scene.graph document)
    (held : session.Holds document id) :
    Ensures (session.rakeExplicit drill scene id) (Steps scene document session) := by
  unfold rakeExplicit
  refine (parallelOf_ensures session id).bind fun parallel found => ?_
  split
  · exact .pure .refl
  rename_i resolved explicit
  split
  · exact .error _
  rename_i node present
  obtain ⟨same, among, number⟩ := (local_of_holds closed held found).node resolved explicit
  obtain ⟨member, ours⟩ := Graph.mem_nodesIn.mp among
  obtain rfl : node = same := by
    rw [← number, coherent.node?_id member] at present
    exact (Option.some.inj present).symm
  refine (Ensures.anything _).bind fun contract _ => ?_
  have fold : Ensures ((scene.graph.outbounds node.id).foldlM (rakeEdge drill scene id)
      (contract, { session with raking := id :: session.raking }))
      fun state => Steps scene document session state.2 := by
    refine Ensures.foldlM_of_forall (fun state : Option Contract × Session =>
      Steps scene document session state.2) (.single (.account _ _ _)) fun edge outbound state steps => ?_
    have listed : edge ∈ scene.graph.edgesIn document :=
      Graph.mem_edgesIn.mpr ⟨(Graph.mem_outbounds.mp outbound).1, node, among, (Graph.mem_outbounds.mp outbound).2.symm⟩
    exact rakeEdge_steps coherent.toFramed drills held steps (closed.steps steps) listed
      (eligible_of_mem_outbounds coherent member ours outbound)
  refine fold.bind fun result steps => ?_
  obtain ⟨contract, last⟩ := result
  have ended : Steps scene document session { last with raking := last.raking.drop 1 } :=
    steps.tail (.account _ _ _)
  refine (reportViolation_accuses _ scene parallel.path node contract).bind fun next said => .pure ?_
  have told : Steps scene document session next := by
    rcases said with rfl | ⟨message, rfl⟩
    · exact ended
    · exact ended.tail (.accuse among message)
  refine told.tail (.modify (told.holds held) (fun _ => rfl) (fun _ => rfl) fun parallel found => ?_)
  have before := local_of_holds (closed.steps told) (told.holds held) found
  exact before.of_node (fun branch member => before.branches branch (branches_setContract contract parallel ▸ member))
    (node_setContract contract parallel)

omit framed closed in
theorem rakeWithin_steps (coherent : scene.graph.Coherent) (bound : Nat) (closed : session.Closed scene.graph document)
    (held : session.Holds document id) :
    Ensures (rakeWithin drill scene bound id session) (Steps scene document session) := by
  induction bound generalizing session id with
  | zero => exact .error _
  | succ bound ih =>
    rw [rakeWithin]
    refine (parallelOf_ensures session id).bind fun parallel found => ?_
    have stays := local_of_holds closed held found
    split
    · exact .pure .refl
    have begun : Steps scene document session
        (session.modify id fun parallel => { parallel with raked := true }) := by
      refine .single (.modify held (fun _ => rfl) (fun _ => rfl) fun again there => ?_)
      cases found.symm.trans there
      exact ⟨stays.branches, stays.node⟩
    have fold : Ensures (parallel.edges.toList.foldlM (fun session edge => rakeWithin drill scene bound edge session)
        (session.modify id fun parallel => { parallel with raked := true })) (Steps scene document session) := by
      refine Ensures.foldlM_of_forall (Steps scene document session) begun fun edge member state steps => ?_
      have inside := stays.branches edge (List.mem_append_left _ member)
      exact (ih (closed.steps steps) (steps.holds inside)).mono fun _ more => steps.trans more
    refine fold.bind fun state steps => ?_
    refine (rakeExplicit_steps drills coherent (closed.steps steps) (steps.holds held)).bind fun last more => .pure ?_
    exact (steps.trans more).tail (.account _ _ _)

omit framed closed in
theorem rake_steps (coherent : scene.graph.Coherent) (closed : session.Closed scene.graph document)
    (held : session.Holds document id) : Ensures (session.rake drill scene id) (Steps scene document session) :=
  rakeWithin_steps drills coherent _ closed held

end Raking

section Descending

variable {name : Name}

theorem insert_steps (session : Session) (scene : Scene) {path : TypePath} (ours : path.document = document)
    (container : Option ParallelId) :
    Ensures (session.insert path container (session.soundNode? scene path)) fun result =>
      Step scene document session result.2 ∧ result.2.Holds document result.1 := by
  intro result done
  obtain ⟨number, parallels⟩ := parallels_insert done
  have found : result.2.parallel? result.1 = some ⟨⟨session.size⟩, path, container, ∅,
      (session.soundNode? scene path).map fun node => ⟨node, ∅, none⟩, false⟩ := by
    rw [parallel?, number, parallels, size, List.getElem?_append_right (Nat.le_refl _), Nat.sub_self]
    rfl
  exact ⟨.insert ours done, _, found, ours⟩

/-- A layer in the document. -/
structure LayeredInside (scene : Scene) (document : DocumentId) (session : Session)
    (state : Session × List LayerEntry) : Prop where
  steps : Steps scene document session state.1
  entries : ∀ entry ∈ state.2, state.1.Holds document entry.container ∧ state.1.Holds document entry.child

theorem LayeredInside.enterLayer {state : Session × List LayerEntry}
    (layered : LayeredInside scene document session state) (closed : session.Closed scene.graph document)
    {container : ParallelId} (held : session.Holds document container) :
    Ensures (enterLayer scene name state container) (LayeredInside scene document session) := by
  obtain ⟨steps, entries⟩ := layered
  have held := steps.holds held
  unfold Session.enterLayer
  refine (parallelOf_ensures _ container).bind fun parallel found => ?_
  have ours : (parallel.path.child name).document = document := by
    obtain ⟨same, again, ours⟩ := held
    cases found.symm.trans again
    rw [TypePath.document_child, ours]
  simp only
  split
  · rename_i child cached
    refine .pure ⟨steps, fun entry member => ?_⟩
    rcases List.mem_append.mp member with before | last
    · exact entries entry before
    · obtain rfl := List.mem_singleton.mp last
      exact ⟨held, ours ▸ (closed.steps steps).holds_of_lookup? cached⟩
  · refine (insert_steps state.1 scene ours (some container)).bind fun result h => .pure ?_
    obtain ⟨step, stands⟩ := h
    refine ⟨steps.tail step, fun entry member => ?_⟩
    rcases List.mem_append.mp member with before | last
    · exact ⟨step.holds (entries entry before).1, step.holds (entries entry before).2⟩
    · obtain rfl := List.mem_singleton.mp last
      exact ⟨step.holds held, stands⟩

theorem LayeredInside.wire {state : Session × List LayerEntry} (layered : LayeredInside scene document session state)
    (closed : session.Closed scene.graph document) {entry : LayerEntry} (among : entry ∈ state.2) :
    LayeredInside scene document session (Session.wire state.2 state.1 entry, state.2) := by
  obtain ⟨steps, entries⟩ := layered
  unfold Session.wire
  split
  · have stays {parallel : Parallel} (found : state.1.parallel? entry.child = some parallel) :=
      local_of_holds (closed.steps steps) (entries entry among).2 found
    have step : Step scene document state.1 (state.1.modify entry.child fun child => { child with
        edges := child.edges.insertAll (((state.1.branchesOf entry.container).filterMap (childOf? state.2)).filter
          (· ≠ entry.child)) }) := by
      refine .modify (entries entry among).2 (fun _ => rfl) (fun _ => rfl) fun parallel found => ?_
      refine (stays found).of_node (fun branch member => ?_) rfl
      rcases List.mem_append.mp member with edge | base
      · rcases OrderedSet.mem_insertAll.mp edge with before | new
        · exact (stays found).branches branch (List.mem_append_left _ before)
        · obtain ⟨above, _, below⟩ := List.mem_filterMap.mp (List.mem_filter.mp new).1
          obtain ⟨other, met, rfl⟩ := Option.map_eq_some_iff.mp below
          exact (entries other (List.mem_of_find?_eq_some met)).2
      · exact (stays found).branches branch (List.mem_append_right _ base)
    exact ⟨steps.tail step, fun other member =>
      ⟨step.holds (entries other member).1, step.holds (entries other member).2⟩⟩
  · exact ⟨steps, entries⟩

theorem LayeredInside.wireAll {state : Session × List LayerEntry} (closed : session.Closed scene.graph document)
    (layered : LayeredInside scene document session state) {entries : List LayerEntry} (among : entries ⊆ state.2) :
    LayeredInside scene document session (entries.foldl (Session.wire state.2) state.1, state.2) := by
  induction entries generalizing state with
  | nil => exact layered
  | cons entry entries ih =>
    rw [List.cons_subset] at among
    exact ih (layered.wire closed among.1) among.2

theorem descend_steps (closed : session.Closed scene.graph document) {start : ParallelId}
    (held : session.Holds document start) (name : Name) :
    Ensures (session.descend scene start name) fun result => Steps scene document session result.2 ∧
      result.2.Sound document result.1 := by
  unfold descend
  refine Ensures.bind (?_ : Ensures _ fun lineage => ∀ other ∈ lineage, session.Holds document other)
    fun lineage members => ?_
  · exact (lineageOf_ensures session start).mono fun _ same => same ▸ closed.holds_of_mem_lineage held
  simp only
  split
  · exact .pure ⟨.refl, fun id same => by contradiction⟩
  have fold : Ensures ((session.reaching scene name lineage).foldlM (enterLayer scene name) (session, []))
      (LayeredInside scene document session) := by
    refine Ensures.foldlM_of_forall (LayeredInside scene document session) ⟨.refl, by simp⟩
      fun container member state layered => ?_
    exact layered.enterLayer closed (members container (List.mem_of_mem_filter member))
  refine fold.bind fun state layered => .pure ?_
  have wired := layered.wireAll closed (List.Subset.refl _)
  refine ⟨wired.steps, fun child same => ?_⟩
  obtain ⟨entry, met, rfl⟩ := Option.map_eq_some_iff.mp same
  exact (wired.entries entry (List.mem_of_find?_eq_some met)).2

end Descending

section Drilling

variable (drills : DrillsInside scene document drill) (coherent : scene.graph.Coherent)
  (closed : session.Closed scene.graph document) {path : TypePath}

include drills coherent closed

theorem surface_steps (ours : path.document = document) :
    Ensures (surface drill scene path session) fun result => Steps scene document session result.2 ∧
      result.2.Sound document result.1 := by
  have root : (path.upTo 1).document = document := ours
  unfold surface
  simp only
  split
  · exact .pure ⟨.refl, fun id same => by contradiction⟩
  · rename_i node sound
    rw [← sound]
    refine (insert_steps session scene root none).bind fun result h => ?_
    obtain ⟨id, next⟩ := result
    obtain ⟨step, held⟩ := h
    refine (rake_steps drills coherent (closed.step step) held).bind fun last steps => .pure ?_
    refine ⟨steps.head step, fun other same => ?_⟩
    cases same
    exact steps.holds held

theorem descendAlong_steps (names : List Name) (held : session.Holds document id) :
    Ensures (descendAlong drill scene names id session) fun result => Steps scene document session result.2 ∧
      ∀ last, result.1 = .resolved last → result.2.Holds document last := by
  induction names generalizing session id with
  | nil =>
    refine .ok ⟨.refl, fun last same => ?_⟩
    cases same
    exact held
  | cons name rest ih =>
    rw [descendAlong]
    refine (descend_steps closed held name).bind fun result h => ?_
    obtain ⟨child, next⟩ := result
    obtain ⟨steps, sound⟩ := h
    cases child with
    | none => exact .pure ⟨steps, fun last same => by contradiction⟩
    | some child =>
      have inside := sound child rfl
      refine (rake_steps drills coherent (closed.steps steps) inside).bind fun raked more => ?_
      have all : Steps scene document session raked := steps.trans more
      exact (ih (closed.steps all) (more.holds inside)).mono fun _ h => ⟨all.trans h.1, h.2⟩

theorem drillNew_steps (ours : path.document = document) :
    Ensures (drillNew drill scene path session) fun result => Steps scene document session result.2 ∧
      ∀ last, result.1 = .resolved last → result.2.Holds document last := by
  unfold drillNew
  split
  · rename_i length start cached
    have held := closed.holds_of_lookup? (longestCached?_eq_some cached).2
    exact descendAlong_steps drills coherent closed _ (ours ▸ held)
  · refine (surface_steps drills coherent closed ours).bind fun result h => ?_
    obtain ⟨start, next⟩ := result
    obtain ⟨steps, sound⟩ := h
    cases start with
    | none => exact .pure ⟨steps, fun last same => by contradiction⟩
    | some start =>
      exact (descendAlong_steps drills coherent (closed.steps steps) _ (sound start rfl)).mono
        fun _ h => ⟨steps.trans h.1, h.2⟩

omit drills coherent in
/-- A path that has a parallel is drilled in no step. -/
theorem cached_steps (ours : path.document = document) (cached : session.lookup? path = some id) :
    Steps scene document session session ∧
      ∀ other, (if id ∈ session.raking then Outcome.circular else .resolved id) = .resolved other →
        session.Holds document other := by
  refine ⟨.refl, fun other same => ?_⟩
  split at same
  · contradiction
  · cases same
    exact ours ▸ closed.holds_of_lookup? cached

omit drills closed in
theorem drillWithin_steps (bound : Nat) : DrillsInside scene document (drillWithin scene bound) := by
  intro path session ours closed
  unfold drillWithin
  split
  · exact .ok (cached_steps closed ours ‹_›)
  · split
    · exact .ok ⟨.refl, fun other same => by contradiction⟩
    · cases bound with
      | zero => exact .error _
      | succ bound =>
        have begun : Steps scene document session { session with inFlight := path :: session.inFlight } :=
          .single (.account _ _ _)
        have inner : DrillsInside scene document (drillWithin scene bound) := drillWithin_steps bound
        refine (drillNew_steps inner coherent (closed.steps begun) ours).bind fun result h => .pure ?_
        exact ⟨(begun.trans h.1).tail (.account _ _ _), h.2⟩

end Drilling

end OutlineTypes.Session
