import OutlineTypes.Proofs.Resolution.Cutting
import OutlineTypes.Proofs.Resolution.Tasks
import OutlineTypes.Proofs.Resolution.Waiver

/-! Leniency. Contracts that demand nothing weigh no candidate and report nothing, so a run in which none demands
anything comes, but for these contracts, to what the same run comes to without them. That none demands anything is
read off the end of the run, since what a parallel is bound by is kept once its raking has ended. -/
namespace OutlineTypes.Session

variable {scene : Scene} {session next last : Session} {id : ParallelId} {waiting : List ParallelId}

section Kept

/-- All that is in the session stays as it is declared, and what is raked stays so. -/
def Persists (session next : Session) : Prop :=
  ∀ id parallel, session.parallel? id = some parallel → ∃ now, next.parallel? id = some now ∧
    now.isExplicit = parallel.isExplicit ∧ (parallel.raked → now.raked)

/-- All that is in the session stays under the contract that it has, and none of it is raked. -/
def Retains (session next : Session) : Prop :=
  ∀ id parallel, session.parallel? id = some parallel → ∃ now, next.parallel? id = some now ∧
    now.explicit.map Resolved.contract = parallel.explicit.map Resolved.contract ∧ now.raked = parallel.raked

/-- Where contracts are checked, those of raked parallels demand nothing, apart from parallels that wait for the end
of their raking. -/
def Unbound (scene : Scene) (waiting : List ParallelId) (session : Session) : Prop :=
  scene.checksContracts → ∀ id parallel, session.parallel? id = some parallel → parallel.raked → id ∉ waiting →
    ∀ resolved, parallel.explicit = some resolved → ∀ contract, resolved.contract = some contract → contract.isOpen

/-- The raking of these parallels has begun. -/
def Begun (session : Session) (waiting : List ParallelId) : Prop :=
  ∀ id ∈ waiting, ∃ parallel, session.parallel? id = some parallel ∧ parallel.raked

theorem Persists.refl (session : Session) : Persists session session :=
  fun _ parallel found => ⟨parallel, found, rfl, fun h => h⟩

theorem Persists.trans (first : Persists session next) (second : Persists next last) : Persists session last := by
  intro id parallel found
  obtain ⟨mid, between, kind, raked⟩ := first id parallel found
  obtain ⟨now, present, same, still⟩ := second id mid between
  exact ⟨now, present, same.trans kind, fun begun => still (raked begun)⟩

theorem Persists.begun (persists : Persists session next) (begun : session.Begun waiting) : next.Begun waiting := by
  intro id member
  obtain ⟨parallel, found, raked⟩ := begun id member
  obtain ⟨now, present, _, still⟩ := persists id parallel found
  exact ⟨now, present, still raked⟩

theorem Retains.of_parallels (same : next.parallels = session.parallels) : Retains session next := by
  intro id parallel found
  exact ⟨parallel, by rwa [parallel?, same], rfl, rfl⟩

theorem Retains.refl (session : Session) : Retains session session := .of_parallels rfl

theorem Retains.trans (first : Retains session next) (second : Retains next last) : Retains session last := by
  intro id parallel found
  obtain ⟨mid, between, bound, raked⟩ := first id parallel found
  obtain ⟨now, present, same, still⟩ := second id mid between
  exact ⟨now, present, same.trans bound, still.trans raked⟩

theorem Retains.foldl {step : Session → α → Session} (each : ∀ session x, Retains session (step session x))
    (xs : List α) (session : Session) : Retains session (xs.foldl step session) := by
  induction xs generalizing session with
  | nil => exact .refl session
  | cons x xs ih => exact (each session x).trans (ih _)

theorem Retains.modify {change : Parallel → Parallel}
    (bound : ∀ parallel, (change parallel).explicit.map Resolved.contract = parallel.explicit.map Resolved.contract)
    (raked : ∀ parallel, (change parallel).raked = parallel.raked) : Retains session (session.modify id change) := by
  intro other parallel found
  obtain ⟨now, present, rfl | ⟨_, rfl⟩⟩ := exists_modified id change found
  · exact ⟨now, present, rfl, rfl⟩
  · exact ⟨_, present, bound parallel, raked parallel⟩

theorem retains_setBase (edge : EdgeId) (base : ParallelId) :
    Retains session (session.modify id (Parallel.setBase edge base)) := by
  refine .modify (fun parallel => ?_) fun _ => rfl
  cases explicit : parallel.explicit <;> simp [Parallel.setBase, Parallel.mapResolved, explicit]

theorem Retains.persists (retains : Retains session next) : Persists session next := by
  intro id parallel found
  obtain ⟨now, present, bound, raked⟩ := retains id parallel found
  refine ⟨now, present, ?_, fun begun => raked.trans begun⟩
  simpa [Parallel.isExplicit] using congrArg Option.isSome bound

theorem Retains.unbound (retains : Retains session next) (unbound : next.Unbound scene waiting) :
    session.Unbound scene waiting := by
  intro checks id parallel found raked outside resolved explicit contract held
  obtain ⟨now, present, bound, still⟩ := retains id parallel found
  rw [explicit, Option.map_some, held, Option.map_eq_some_iff] at bound
  obtain ⟨again, there, same⟩ := bound
  exact unbound checks id now present (still.trans raked) outside again there contract same

theorem Persists.modify {change : Parallel → Parallel}
    (kind : ∀ parallel, (change parallel).isExplicit = parallel.isExplicit)
    (raked : ∀ parallel, parallel.raked → (change parallel).raked) : Persists session (session.modify id change) := by
  intro other parallel found
  obtain ⟨now, present, rfl | ⟨_, rfl⟩⟩ := exists_modified id change found
  · exact ⟨now, present, rfl, fun begun => begun⟩
  · exact ⟨_, present, kind parallel, raked parallel⟩

end Kept

/-- All that is in the session before the run persists. If no contract that is left binds anything, none did
before, and the other run comes to the same without contracts. -/
def Waives (scene : Scene) (session : Session) (left : α → Session) (waive : α → β) (run : Except Fatal α)
    (other : Except Fatal β) : Prop :=
  Ensures run fun result => Persists session (left result) ∧ ∀ waiting, session.Begun waiting →
    (left result).Unbound scene waiting → session.Unbound scene waiting ∧ other = .ok (waive result)

namespace Waives

variable {left : α → Session} {waive : α → β} {run : Except Fatal α} {other : Except Fatal β}

theorem ok {result : α} {twin : β} (retains : Retains session (left result)) (same : twin = waive result) :
    Waives scene session left waive (.ok result) (.ok twin) :=
  Ensures.ok ⟨retains.persists, fun _ _ unbound => ⟨retains.unbound unbound, congrArg Except.ok same⟩⟩

theorem error (reason : Fatal) : Waives scene session left waive (.error reason) other := Ensures.error reason

/-- Steps that give no contract. -/
theorem of_retains (retains : Ensures run fun result => Retains session (left result))
    (same : ∀ result, run = .ok result → other = .ok (waive result)) : Waives scene session left waive run other :=
  fun result done => ⟨(retains result done).persists, fun _ _ unbound =>
    ⟨(retains result done).unbound unbound, same result done⟩⟩

theorem bind {further : γ → Session} {again : γ → δ} {next : α → Except Fatal γ} {onward : β → Except Fatal δ}
    (first : Waives scene session left waive run other)
    (second : ∀ result, run = .ok result →
      Waives scene (left result) further again (next result) (onward (waive result))) :
    Waives scene session further again (run >>= next) (other >>= onward) := by
  intro last done
  obtain ⟨mid, came, went⟩ := exists_ok_of_bind done
  obtain ⟨persists, waives⟩ := first mid came
  obtain ⟨still, waivesNext⟩ := second mid came last went
  refine ⟨persists.trans still, fun waiting begun unbound => ?_⟩
  obtain ⟨between, followed⟩ := waivesNext waiting (persists.begun begun) unbound
  obtain ⟨before, same⟩ := waives waiting begun between
  exact ⟨before, by rw [same, ok_bind, followed]⟩

theorem foldlM (left : α → Session) {step : α → γ → Except Fatal α} {onward : β → γ → Except Fatal β}
    (kept : α → Prop) {xs : List γ} {start : α} (initial : kept start)
    (each : ∀ state, kept state → ∀ x, Ensures (step state x) kept ∧
      Waives scene (left state) left waive (step state x) (onward (waive state) x)) :
    Waives scene (left start) left waive (xs.foldlM step start) (xs.foldlM onward (waive start)) := by
  induction xs generalizing start with
  | nil => exact .ok (.refl _) rfl
  | cons x xs ih =>
    rw [List.foldlM_cons, List.foldlM_cons]
    obtain ⟨keeps, waives⟩ := each start initial x
    exact waives.bind fun state came => ih (keeps state came)

end Waives

/-- The answer, and the session without its contracts. -/
def waivedResult (result : α × Session) : α × Session := (result.1, result.2.waived)

/-- Without contracts the other driller comes to what this one comes to. -/
def Forgoes (scene : Scene) (drill lenient : Driller) : Prop :=
  ∀ path session, Waives scene session Prod.snd waivedResult (drill path session) (lenient path session.waived)

variable {drill lenient : Driller} {contract : Option Contract} {candidates : List Successor}
  {circular : Option ParallelId}

section Choice

variable (forgoes : Forgoes scene drill lenient)
include forgoes

theorem waives_drillCandidate (candidate : Successor) :
    Waives scene session Prod.snd waivedResult (session.drillCandidate drill scene candidate)
      (session.waived.drillCandidate lenient scene.lenient candidate) := by
  unfold drillCandidate
  rw [Scene.graph_lenient]
  split
  · exact .ok (.refl session) rfl
  · exact forgoes _ _

theorem waives_nearest (circular : Option ParallelId) (candidates : List Successor) :
    Waives scene session Prod.snd waivedResult (nearest drill scene circular session candidates)
      (nearest lenient scene.lenient circular session.waived candidates) := by
  induction candidates generalizing circular session with
  | nil => exact .ok (.refl session) rfl
  | cons candidate rest ih =>
    rw [nearest, nearest]
    refine (waives_drillCandidate forgoes candidate).bind fun result _ => ?_
    obtain ⟨outcome, next⟩ := result
    cases outcome with
    | resolved base => exact .ok (.refl next) rfl
    | circular =>
      simp only [waivedResult, cached?_waived]
      exact ih _
    | unpopulated => exact ih _

omit forgoes

/-- No contract, or one that demands nothing. -/
def Idle (contract : Option Contract) : Prop := ∀ demanded, contract = some demanded → demanded = .requiring []

/-- By a contract that demands nothing the nearest candidate is chosen. -/
theorem satisfying_of_idle : satisfying drill scene (.requiring []) none circular session candidates = do
    let result ← nearest drill scene circular session candidates
    return (result.1, .requiring [], result.2) := by
  induction candidates generalizing circular session with
  | nil => rfl
  | cons candidate rest ih =>
    rw [satisfying, nearest, bind_assoc]
    congr 1
    funext result
    obtain ⟨outcome, next⟩ := result
    cases outcome with
    | resolved base => rfl
    | circular => exact ih
    | unpopulated => exact ih

theorem chooseBase_of_idle (idle : Idle contract) : session.chooseBase drill scene contract candidates = do
    let result ← nearest drill scene none session candidates
    return (result.1, contract, result.2) := by
  cases contract with
  | none => exact chooseBase_of_not_weighing rfl
  | some demanded =>
    obtain rfl := idle demanded rfl
    cases weighs : weighing (some (.requiring [])) candidates with
    | some weighed =>
      have same : weighed = .requiring [] := by
        unfold weighing at weighs
        split at weighs <;> simp_all
      rw [chooseBase_of_weighing weighs, same, satisfying_of_idle, bind_assoc]
      rfl
    | none =>
      rw [chooseBase_of_not_weighing weighs]
      congr 1
      funext result
      obtain ⟨base, next⟩ := result
      cases base <;> rfl

/-- Weighing candidates by a contract leaves its conditions. -/
theorem satisfying_keeps (forgoes : Forgoes scene drill lenient) (demanded : Contract)
    (fallback circular : Option ParallelId) (candidates : List Successor) :
    Ensures (satisfying drill scene demanded fallback circular session candidates) fun result =>
      Persists session result.2.2 ∧ result.2.1.conditions = demanded.conditions := by
  induction candidates generalizing fallback circular session with
  | nil => exact .ok ⟨.refl session, rfl⟩
  | cons candidate rest ih =>
    rw [satisfying]
    have drilled : Ensures (session.drillCandidate drill scene candidate) fun result => Persists session result.2 :=
      (waives_drillCandidate forgoes candidate).mono fun _ h => h.1
    refine drilled.bind fun result persists => ?_
    obtain ⟨outcome, next⟩ := result
    have onward (fallback circular : Option ParallelId) :
        Ensures (satisfying drill scene demanded fallback circular next rest) fun result =>
          Persists session result.2.2 ∧ result.2.1.conditions = demanded.conditions :=
      (ih fallback circular).mono fun _ h => ⟨persists.trans h.1, h.2⟩
    cases outcome with
    | resolved base =>
      simp only
      split
      · refine (Ensures.anything _).bind fun lineage _ => ?_
        split
        · exact .pure ⟨persists, rfl⟩
        · exact onward _ _
      · exact .pure ⟨persists, rfl⟩
    | circular => exact onward _ _
    | unpopulated => exact onward _ _

theorem accept_keeps (base : Option ParallelId) : Ensures (session.accept contract base) fun after =>
    after.map Contract.conditions = contract.map Contract.conditions := by
  unfold accept
  split
  · split
    · exact .ok rfl
    · exact (Ensures.anything _).bind fun _ _ => .pure rfl
  · exact .ok rfl

theorem chooseBase_keeps (forgoes : Forgoes scene drill lenient) (contract : Option Contract)
    (candidates : List Successor) : Ensures (session.chooseBase drill scene contract candidates) fun result =>
      Persists session result.2.2 ∧ result.2.1.map Contract.conditions = contract.map Contract.conditions := by
  cases weighs : weighing contract candidates with
  | some weighed =>
    have same : contract = some weighed := by
      unfold weighing at weighs
      split at weighs <;> simp_all
    rw [chooseBase_of_weighing weighs, same]
    exact (satisfying_keeps forgoes _ _ _ _).bind fun _ h => .pure ⟨h.1, congrArg some h.2⟩
  | none =>
    rw [chooseBase_of_not_weighing weighs]
    refine Ensures.bind (waives_nearest forgoes none candidates) fun result h => ?_
    exact (accept_keeps result.1).bind fun after same => .pure ⟨h.1, same⟩

end Choice

section Rake

theorem rakeEdge_of_cruft {edge : Edge} (cruft : session.cruft.hasEdge edge.id) :
    rakeEdge drill scene id (contract, session) edge = .ok (contract, session) := if_pos cruft

theorem rakeEdge_of_groundless {edge : Edge} (sound : session.cruft.hasEdge edge.id = false)
    (groundless : session.candidatesOf edge = []) : rakeEdge drill scene id (contract, session) edge =
      .ok (contract, session.condemn scene (.edge edge.id) .unresolved) := by
  have unmarked : ¬session.cruft.hasEdge edge.id := by simp [sound]
  exact (if_neg unmarked).trans (if_pos (List.isEmpty_iff.mpr groundless))

variable (forgoes : Forgoes scene drill lenient)
include forgoes

theorem rakeEdge_keeps (id : ParallelId) (state : Option Contract × Session) (edge : Edge) :
    Ensures (rakeEdge drill scene id state edge) fun result => Persists state.2 result.2 ∧
      result.1.map Contract.conditions = state.1.map Contract.conditions := by
  unfold rakeEdge
  simp only
  split
  · exact .pure ⟨.refl _, rfl⟩
  · split
    · exact .pure ⟨(Retains.of_parallels rfl).persists, rfl⟩
    · refine (chooseBase_keeps forgoes state.1 _).bind fun result ⟨persists, conditions⟩ => ?_
      obtain ⟨base, contract, next⟩ := result
      cases base with
      | none => exact .pure ⟨persists, conditions⟩
      | some base => exact .pure ⟨persists.trans (retains_setBase edge.id base).persists, conditions⟩

theorem rakeEdges_keeps (id : ParallelId) (edges : List Edge) (state : Option Contract × Session) :
    Ensures (edges.foldlM (rakeEdge drill scene id) state) fun result => Persists state.2 result.2 ∧
      result.1.map Contract.conditions = state.1.map Contract.conditions :=
  Ensures.foldlM_of_forall (fun result : Option Contract × Session => Persists state.2 result.2 ∧
      result.1.map Contract.conditions = state.1.map Contract.conditions) ⟨.refl state.2, rfl⟩
    fun edge _ between kept => (rakeEdge_keeps forgoes id between edge).mono fun _ more =>
      ⟨kept.1.trans more.1, more.2.trans kept.2⟩

theorem waives_rakeEdge (id : ParallelId) (idle : Idle contract) (edge : Edge) :
    Ensures (rakeEdge drill scene id (contract, session) edge) (fun result => result.1 = contract) ∧
    Waives scene session Prod.snd (fun result => (none, result.2.waived))
      (rakeEdge drill scene id (contract, session) edge)
      (rakeEdge lenient scene.lenient id (none, session.waived) edge) := by
  by_cases cruft : session.cruft.hasEdge edge.id
  · have marked : session.waived.cruft.hasEdge edge.id := cruft
    rw [rakeEdge_of_cruft cruft, rakeEdge_of_cruft marked]
    exact ⟨.ok rfl, .ok (.refl session) rfl⟩
  rw [Bool.not_eq_true] at cruft
  have sound : session.waived.cruft.hasEdge edge.id = false := cruft
  have candidates : session.waived.candidatesOf edge = session.candidatesOf edge := rfl
  by_cases groundless : session.candidatesOf edge = []
  · rw [rakeEdge_of_groundless cruft groundless, rakeEdge_of_groundless sound groundless]
    exact ⟨.ok rfl, .ok (.of_parallels rfl) rfl⟩
  have unbound : Idle none := fun _ wrong => by contradiction
  rw [rakeEdge_of_candidates cruft groundless, rakeEdge_of_candidates sound groundless, chooseBase_of_idle idle,
    chooseBase_of_idle unbound, candidates, bind_assoc, bind_assoc]
  constructor
  · refine (Ensures.anything _).bind fun result _ => ?_
    obtain ⟨base, next⟩ := result
    cases base <;> exact .pure rfl
  · refine (waives_nearest forgoes none _).bind fun result _ => ?_
    obtain ⟨base, next⟩ := result
    cases base with
    | none => exact .ok (.refl next) rfl
    | some base =>
      exact .ok (retains_setBase edge.id base) (congrArg (Prod.mk none) (next.waived_modify_setBase id _ _).symm)

theorem waives_rakeEdges (id : ParallelId) (idle : Idle contract) (edges : List Edge) (session : Session) :
    Ensures (edges.foldlM (rakeEdge drill scene id) (contract, session)) (fun result => result.1 = contract) ∧
    Waives scene session Prod.snd (fun result => (none, result.2.waived))
      (edges.foldlM (rakeEdge drill scene id) (contract, session))
      (edges.foldlM (rakeEdge lenient scene.lenient id) (none, session.waived)) := by
  have step (state : Option Contract × Session) (kept : state.1 = contract) (edge : Edge) :
      Ensures (rakeEdge drill scene id state edge) (fun result => result.1 = contract) ∧
        Waives scene state.2 Prod.snd (fun result => (none, result.2.waived)) (rakeEdge drill scene id state edge)
          (rakeEdge lenient scene.lenient id (none, state.2.waived) edge) := by
    obtain ⟨_, session⟩ := state
    subst kept
    exact waives_rakeEdge forgoes id idle edge
  refine ⟨?_, ?_⟩
  · exact Ensures.foldlM_of_forall (fun state : Option Contract × Session => state.1 = contract) rfl
      fun edge _ state kept => (step state kept edge).1
  · exact Waives.foldlM Prod.snd (fun state : Option Contract × Session => state.1 = contract) rfl step

omit forgoes

theorem contractOf_requires (session : Session) (scene : Scene) (id : ParallelId) (parallel : Parallel) :
    Ensures (session.contractOf scene id parallel) fun contract => ∀ demanded, contract = some demanded →
      scene.checksContracts ∧ ∃ conditions, demanded = .requiring conditions := by
  unfold contractOf
  split
  · rename_i checks
    refine (Ensures.anything _).bind fun conditions _ => .pure fun demanded same => ?_
    cases same
    exact ⟨(Bool.and_eq_true_iff.mp checks).1, conditions, rfl⟩
  · exact .pure fun demanded wrong => by contradiction

theorem reportViolation_of_idle (idle : Idle contract) (path : TypePath) (node : Node) :
    session.reportViolation scene path node contract = .ok session := by
  cases contract with
  | none => rfl
  | some demanded =>
    obtain rfl := idle demanded rfl
    rfl

theorem requiring_eq_of_isOpen {conditions : List ParallelId} (nothing : (Contract.requiring conditions).isOpen) :
    Contract.requiring conditions = .requiring [] := by
  have none : conditions = [] := by
    refine List.eq_nil_iff_forall_not_mem.mpr fun condition member => ?_
    have listed : condition ∈ (Contract.requiring conditions).conditions := OrderedSet.mem_ofList.mpr member
    rw [Contract.isOpen, OrderedSet.isEmpty, List.isEmpty_iff] at nothing
    rw [OrderedSet.mem_def, nothing] at listed
    exact List.not_mem_nil listed
  rw [none]

/-- The contract under which a parallel was raked demands nothing, if the one that is left does not. -/
theorem idle_of_unbound {parallel : Parallel} (demanded : session.contractOf scene id parallel = .ok contract)
    {after : Option Contract} (conditions : after.map Contract.conditions = contract.map Contract.conditions)
    {now : Parallel} (found : next.parallel? id = some now) (explicit : now.isExplicit) (raked : now.raked)
    (outside : id ∉ waiting) (unbound : (next.modify id (Parallel.setContract after)).Unbound scene waiting) :
    Idle contract := by
  intro required same
  obtain ⟨checks, all, rfl⟩ := contractOf_requires session scene id parallel contract demanded required same
  rw [same, Option.map_some, Option.map_eq_some_iff] at conditions
  obtain ⟨left, rfl, kept⟩ := conditions
  obtain ⟨resolved, declared⟩ := Option.isSome_iff_exists.mp explicit
  have stored : (next.modify id (Parallel.setContract (some left))).parallel? id =
      some (now.setContract (some left)) := by
    rw [parallel?_modify, if_pos rfl, found]
    rfl
  have nothing := unbound checks id _ stored raked outside { resolved with contract := some left }
    (by simp [Parallel.setContract, Parallel.mapResolved, declared]) left rfl
  refine requiring_eq_of_isOpen ?_
  rwa [Contract.isOpen, kept] at nothing

theorem Unbound.of_modify {change : Parallel → Parallel}
    (unbound : (session.modify id change).Unbound scene waiting) : session.Unbound scene (id :: waiting) := by
  intro checks other parallel found raked outside
  rw [List.mem_cons, not_or] at outside
  refine unbound checks other parallel ?_ raked outside.2
  rw [parallel?_modify, if_neg outside.1, found]

/-- What is marked was not raked before. -/
theorem Unbound.of_markRaked (unbound : (session.markRaked id).Unbound scene (id :: waiting)) {parallel : Parallel}
    (found : session.parallel? id = some parallel) (unraked : parallel.raked = false) :
    session.Unbound scene waiting := by
  intro checks other now there raked outside
  have apart : other ≠ id := by
    rintro rfl
    cases found.symm.trans there
    rw [unraked] at raked
    contradiction
  refine unbound checks other now ?_ raked fun member => (List.mem_cons.mp member).elim apart outside
  rw [markRaked, parallel?_modify, if_neg apart, there]

theorem Begun.not_mem (begun : session.Begun waiting) {parallel : Parallel}
    (found : session.parallel? id = some parallel) (unraked : parallel.raked = false) : id ∉ waiting := by
  intro member
  obtain ⟨other, there, raked⟩ := begun id member
  cases found.symm.trans there
  rw [unraked] at raked
  contradiction

/-- The edges of a parallel are resolved under a contract, to which the parallel is then bound. -/
def answerAll (drill : Driller) (scene : Scene) (id : ParallelId) (path : TypePath) (node : Node)
    (contract : Option Contract) (session : Session) : Except Fatal Session := do
  let (contract, session) ← (scene.graph.outbounds node.id).foldlM (rakeEdge drill scene id)
    (contract, { session with raking := id :: session.raking })
  let session ← { session with raking := session.raking.drop 1 }.reportViolation scene path node contract
  return session.modify id (Parallel.setContract contract)

section Unfolding

variable {parallel : Parallel} (met : session.parallelOf id = .ok parallel)
include met

theorem rakeExplicit_of_explicit {resolved : Resolved} (explicit : parallel.explicit = some resolved) {node : Node}
    (stands : scene.graph.node? resolved.node = some node)
    (demanded : session.contractOf scene id parallel = .ok contract) :
    rakeExplicit drill scene id session = answerAll drill scene id parallel.path node contract session := by
  simp only [rakeExplicit, answerAll, met, ok_bind, explicit, stands, demanded]

theorem rakeWithin_of_raked (raked : parallel.raked) (bound : Nat) :
    rakeWithin drill scene (bound + 1) id session = .ok session := by
  simp only [rakeWithin, met, ok_bind, raked, ↓reduceIte]
  rfl

theorem rakeWithin_of_unraked (unraked : parallel.raked = false) (bound : Nat) :
    rakeWithin drill scene (bound + 1) id session = do
      let mid ← parallel.edges.toList.foldlM (fun session edge => rakeWithin drill scene bound edge session)
        (session.markRaked id)
      let last ← mid.rakeExplicit drill scene id
      return { last with settled := last.settled ++ [id] } := by
  simp only [rakeWithin, met, ok_bind, unraked, Bool.false_eq_true, ↓reduceIte]
  rfl

end Unfolding

include forgoes

/-- The parallel waits for its contract during the run and is bound to it at the end. -/
def Binds (scene : Scene) (session : Session) (id : ParallelId) (run other : Except Fatal Session) : Prop :=
  Ensures run fun last => Persists session last ∧ ∀ waiting, id ∉ waiting → session.Begun waiting →
    last.Unbound scene waiting → session.Unbound scene (id :: waiting) ∧ other = .ok last.waived

theorem answerAll_binds {parallel : Parallel} (found : session.parallel? id = some parallel)
    (explicit : parallel.isExplicit) (raked : parallel.raked)
    (demanded : session.contractOf scene id parallel = .ok contract) (node : Node) :
    Binds scene session id (answerAll drill scene id parallel.path node contract session)
      (answerAll lenient scene.lenient id parallel.path node none session.waived) := by
  intro last done
  obtain ⟨⟨after, mid⟩, answered, onward⟩ := exists_ok_of_bind done
  obtain ⟨told, said, same⟩ := exists_ok_of_bind onward
  cases same
  obtain ⟨persists, conditions⟩ := rakeEdges_keeps forgoes id _ _ _ answered
  have reported : Retains mid told := by
    rcases reportViolation_accuses _ scene parallel.path node after told said with rfl | ⟨message, rfl⟩
    · exact .of_parallels rfl
    · exact .of_parallels rfl
  -- Under any contract the parallel is there to be bound to it, so the end tells what it demanded.
  have stays := persists.trans reported.persists
  have binds : Persists told (told.modify id (Parallel.setContract after)) :=
    .modify (Parallel.isExplicit_setContract after) fun _ begun => begun
  refine ⟨stays.trans binds, fun waiting outside begun unbound => ?_⟩
  obtain ⟨now, there, kind, still⟩ := stays id parallel found
  have idle := idle_of_unbound demanded conditions there (kind.trans explicit) (still raked) outside unbound
  obtain ⟨kept, waives⟩ := waives_rakeEdges forgoes id idle (scene.graph.outbounds node.id)
    { session with raking := id :: session.raking }
  obtain rfl : after = contract := kept _ answered
  rw [reportViolation_of_idle idle, Except.ok.injEq] at said
  subst said
  obtain ⟨before, followed⟩ := (waives _ answered).2 (id :: waiting)
    (List.forall_mem_cons.mpr ⟨⟨parallel, found, raked⟩, begun⟩) (reported.unbound (Unbound.of_modify unbound))
  have again : (scene.lenient.graph.outbounds node.id).foldlM (rakeEdge lenient scene.lenient id)
      (none, { session.waived with raking := id :: session.waived.raking }) = .ok (none, mid.waived) := followed
  refine ⟨before, ?_⟩
  rw [answerAll, again, waived_modify_setContract]
  rfl

theorem rakeExplicit_binds (raked : ∀ parallel, session.parallel? id = some parallel → parallel.raked) :
    Binds scene session id (rakeExplicit drill scene id session)
      (rakeExplicit lenient scene.lenient id session.waived) := by
  intro last done
  obtain ⟨parallel, met, onward⟩ := exists_ok_of_bind done
  have found := parallelOf_ensures session id parallel met
  have again := session.parallelOf_waived met
  cases explicit : parallel.explicit with
  | none =>
    simp only [explicit] at onward
    cases onward
    refine ⟨.refl session, fun waiting _ _ unbound => ⟨fun checks other now there begun outside => ?_, ?_⟩⟩
    · exact unbound checks other now there begun fun member => outside (List.mem_cons_of_mem _ member)
    · simp only [rakeExplicit, again, ok_bind, Parallel.setContract, Parallel.mapResolved, explicit, Option.map_none]
      rfl
  | some resolved =>
    simp only [explicit] at onward
    cases stands : scene.graph.node? resolved.node with
    | none =>
      simp only [stands] at onward
      contradiction
    | some node =>
      simp only [stands] at onward
      obtain ⟨contract, demanded, _⟩ := exists_ok_of_bind onward
      have declared : (parallel.setContract none).explicit = some { resolved with contract := none } := by
        simp [Parallel.setContract, Parallel.mapResolved, explicit]
      have standing : scene.lenient.graph.node? resolved.node = some node := stands
      have unchecked : session.waived.contractOf scene.lenient id (parallel.setContract none) = .ok none := rfl
      rw [rakeExplicit_of_explicit met explicit stands demanded] at done
      rw [rakeExplicit_of_explicit again declared standing unchecked]
      exact answerAll_binds forgoes found (by simp [Parallel.isExplicit, explicit]) (raked parallel found) demanded
        node last done

theorem waives_rakeWithin (bound : Nat) (id : ParallelId) (session : Session) :
    Waives scene session (fun next => next) waived (rakeWithin drill scene bound id session)
      (rakeWithin lenient scene.lenient bound id session.waived) := by
  induction bound generalizing id session with
  | zero => exact .error _
  | succ bound ih =>
    intro last done
    obtain ⟨parallel, met, _⟩ := exists_ok_of_bind done
    have found := parallelOf_ensures session id parallel met
    have again := session.parallelOf_waived met
    cases raked : parallel.raked with
    | true =>
      rw [rakeWithin_of_raked met raked] at done
      cases done
      exact ⟨.refl session, fun waiting _ unbound => ⟨unbound, rakeWithin_of_raked again raked bound⟩⟩
    | false =>
      rw [rakeWithin_of_unraked met raked] at done
      obtain ⟨mid, overridden, onward⟩ := exists_ok_of_bind done
      obtain ⟨answered, explicit, same⟩ := exists_ok_of_bind onward
      cases same
      have marks : Persists session (session.markRaked id) := .modify (fun _ => rfl) fun _ _ => rfl
      have waives : Waives scene (session.markRaked id) (fun next => next) waived
          (parallel.edges.toList.foldlM (fun session edge => rakeWithin drill scene bound edge session)
            (session.markRaked id))
          (parallel.edges.toList.foldlM (fun session edge => rakeWithin lenient scene.lenient bound edge session)
            (session.markRaked id).waived) :=
        Waives.foldlM (fun next => next) (fun _ => True) trivial fun state _ edge => ⟨.anything _, ih edge state⟩
      obtain ⟨grows, overrides⟩ := waives mid overridden
      have marked := parallel?_markRaked found
      have begun : ∀ parallel, mid.parallel? id = some parallel → parallel.raked := by
        intro now there
        obtain ⟨same, present, _, still⟩ := grows id _ marked
        cases there.symm.trans present
        exact still rfl
      obtain ⟨further, answers⟩ := rakeExplicit_binds forgoes begun answered explicit
      refine ⟨marks.trans (grows.trans further), fun waiting working unbound => ?_⟩
      -- While what it overrides is raked the parallel waits, and so it does until it is bound itself.
      have earlier := marks.begun working
      obtain ⟨between, followed⟩ := answers waiting (working.not_mem found raked) (grows.begun earlier) unbound
      obtain ⟨before, came⟩ := overrides (id :: waiting)
        (List.forall_mem_cons.mpr ⟨⟨_, marked, rfl⟩, earlier⟩) between
      rw [waived_markRaked] at came
      refine ⟨before.of_markRaked found raked, ?_⟩
      rw [rakeWithin_of_unraked again raked, Parallel.edges_setContract, came, ok_bind, followed]
      rfl

theorem waives_rake (id : ParallelId) (session : Session) :
    Waives scene session (fun next => next) waived (session.rake drill scene id)
      (session.waived.rake lenient scene.lenient id) := by
  unfold rake
  rw [size_waived]
  exact waives_rakeWithin forgoes _ id session

end Rake

section Descent

variable {name : Name} {names : List Name} {path : TypePath}

theorem retains_insert {container : Option ParallelId} {node : Option NodeId} :
    Ensures (session.insert path container node) fun result => Retains session result.2 := by
  intro result done id parallel found
  unfold insert at done
  split at done
  · contradiction
  · cases done
    exact ⟨parallel, (List.getElem?_append_left (lt_of_parallel? found)).trans found, rfl, rfl⟩

theorem waives_insert (session : Session) (path : TypePath) (container : Option ParallelId) (node : Option NodeId) :
    Waives scene session Prod.snd waivedResult (session.insert path container node)
      (session.waived.insert path container node) :=
  .of_retains retains_insert fun _ made => session.insert_waived made

theorem retains_enterLayer (state : Session × List LayerEntry) (container : ParallelId) :
    Ensures (enterLayer scene name state container) fun result => Retains state.1 result.1 := by
  unfold enterLayer
  refine (Ensures.anything _).bind fun around _ => ?_
  simp only
  split
  · exact .pure (.refl _)
  · exact retains_insert.bind fun _ retains => .pure retains

theorem retains_wire (layer : List LayerEntry) (session : Session) (entry : LayerEntry) :
    Retains session (wire layer session entry) := by
  unfold wire
  split
  · exact .modify (fun _ => rfl) fun _ => rfl
  · exact .refl session

theorem retains_descend (session : Session) (start : ParallelId) (name : Name) :
    Ensures (session.descend scene start name) fun result => Retains session result.2 := by
  unfold descend
  refine (Ensures.anything _).bind fun lineage _ => ?_
  simp only
  split
  · exact .pure (.refl session)
  · have entered (containers : List ParallelId) : Ensures (containers.foldlM (enterLayer scene name) (session, []))
        fun state => Retains session state.1 :=
      Ensures.foldlM_of_forall (fun state : Session × List LayerEntry => Retains session state.1) (.refl session)
        fun container _ state retains => (retains_enterLayer state container).mono fun _ more => retains.trans more
    exact (entered _).bind fun state retains => .pure (retains.trans (.foldl (retains_wire state.2) _ _))

theorem waives_descend (session : Session) (start : ParallelId) (name : Name) :
    Waives scene session Prod.snd waivedResult (session.descend scene start name)
      (session.waived.descend scene.lenient start name) :=
  .of_retains (retains_descend session start name) fun _ descended => session.descend_waived scene start descended

variable (forgoes : Forgoes scene drill lenient)
include forgoes

theorem waives_surface (path : TypePath) (session : Session) :
    Waives scene session Prod.snd waivedResult (session.surface drill scene path)
      (session.waived.surface lenient scene.lenient path) := by
  unfold surface
  simp only [soundNode?_waived]
  split
  · exact .ok (.refl session) rfl
  · refine (waives_insert session (path.upTo 1) none _).bind fun result _ => ?_
    exact (waives_rake forgoes result.1 result.2).bind fun next _ => .ok (.refl next) rfl

theorem waives_descendAlong (names : List Name) (id : ParallelId) (session : Session) :
    Waives scene session Prod.snd waivedResult (descendAlong drill scene names id session)
      (descendAlong lenient scene.lenient names id session.waived) := by
  induction names generalizing id session with
  | nil => exact .ok (.refl session) rfl
  | cons name rest ih =>
    rw [descendAlong, descendAlong]
    refine (waives_descend session id name).bind fun result _ => ?_
    obtain ⟨child, next⟩ := result
    cases child with
    | none => exact .ok (.refl next) rfl
    | some child => exact (waives_rake forgoes child next).bind fun last _ => ih child last

theorem forgoes_drillNew : Forgoes scene (drillNew drill scene) (drillNew lenient scene.lenient) := by
  intro path session
  unfold drillNew
  simp only [longestCached?_waived]
  split
  · exact waives_descendAlong forgoes _ _ session
  · refine (waives_surface forgoes path session).bind fun result _ => ?_
    obtain ⟨id, next⟩ := result
    cases id with
    | none => exact .ok (.refl next) rfl
    | some id => exact waives_descendAlong forgoes _ id next

end Descent

/-- A drill in which no contract binds anything is a drill without contracts. -/
theorem forgoes_drillWithin (bound : Nat) :
    Forgoes scene (drillWithin scene bound) (drillWithin scene.lenient bound) := by
  intro path session
  unfold drillWithin
  simp only [lookup?_waived, inFlight_waived, raking_waived]
  cases cached : session.lookup? path with
  | some id => exact .ok (.refl session) rfl
  | none =>
    by_cases flying : path ∈ session.inFlight
    · simp only [flying, ↓reduceIte]
      exact .ok (.refl session) rfl
    · simp only [flying, ↓reduceIte]
      cases bound with
      | zero => exact .error _
      | succ bound =>
        have entered : Waives scene session Prod.snd waivedResult
            (drillNew (drillWithin scene bound) scene path (session.enter path))
            (drillNew (drillWithin scene.lenient bound) scene.lenient path (session.waived.enter path)) :=
          forgoes_drillNew (forgoes_drillWithin bound) path (session.enter path)
        exact entered.bind fun result _ => .ok (.of_parallels rfl) rfl

theorem retains_cutCycles (session : Session) (scene : Scene) : Retains session (session.cutCycles scene) := by
  intro id parallel found
  refine ⟨_, parallel?_cutCycles_of scene found, ?_, rfl⟩
  cases explicit : parallel.explicit <;> simp [Parallel.dropBases, Parallel.mapResolved, explicit]

theorem waives_drill (session : Session) (path : TypePath) :
    Waives scene session Prod.snd waivedResult (session.drill scene path)
      (session.waived.drill scene.lenient path) := by
  refine (forgoes_drillWithin (drillBound scene) path session).bind fun result _ => ?_
  exact .ok (retains_cutCycles result.2 scene) (congrArg (Prod.mk _) (result.2.waived_cutCycles scene).symm)

end OutlineTypes.Session
