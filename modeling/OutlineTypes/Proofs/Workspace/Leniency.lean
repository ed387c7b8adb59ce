import OutlineTypes.Proofs.Lockstep
import OutlineTypes.Proofs.Resolution.Nearest
import OutlineTypes.Proofs.Workspace.Faults
import OutlineTypes.Proofs.Workspace.Tasks

/-! Workspaces with contracts switched off. Contracts are looked at in drills only, so one history leads to the same
documents and the same graph whether they are checked or not, and to the same session as long as none of them
demands anything. -/
namespace OutlineTypes

namespace Session

variable {scene : Scene} {session : Session}

/-- No contract of a parallel has a condition. Those that a contract has are kept with it. -/
def Undemanding (session : Session) : Prop :=
  ∀ parallel ∈ session.parallels, ∀ resolved ∈ parallel.explicit, ∀ contract ∈ resolved.contract,
    contract.conditions.isEmpty

instance (session : Session) : Decidable session.Undemanding :=
  inferInstanceAs (Decidable (∀ parallel ∈ session.parallels, ∀ resolved ∈ parallel.explicit,
    ∀ contract ∈ resolved.contract, contract.conditions.isEmpty))

theorem Undemanding.unbound (undemanding : session.Undemanding) (scene : Scene) : session.Unbound scene [] :=
  fun _ _ parallel found _ _ resolved explicit contract held =>
    undemanding parallel (List.mem_of_getElem? found) resolved explicit contract held

/-- A parallel of a session without contracts has none. -/
theorem contract_eq_none_of_waived (waived : session = session.waived) {parallel : Parallel}
    (listed : parallel ∈ session.parallels) {resolved : Resolved} (explicit : parallel.explicit = some resolved) :
    resolved.contract = none := by
  rw [waived] at listed
  obtain ⟨before, _, rfl⟩ := List.mem_map.mp listed
  obtain ⟨old, _, rfl⟩ := Option.map_eq_some_iff.mp explicit
  rfl

/-- Where no parallel has a contract, no fault is about one. -/
theorem Reconciled.kind_ne_contract (reconciled : session.Reconciled scene) (waived : session = session.waived)
    {fault : Fault} (listed : fault ∈ session.faults.faults) : fault.kind ≠ .contract := by
  intro kind
  obtain ⟨parallel, member, resolved, contract, explicit, held, _⟩ :=
    (reconciled.contracts fault.statement).mp ⟨fault, List.mem_filter.mpr ⟨listed, by simpa using kind⟩, rfl⟩
  rw [contract_eq_none_of_waived waived member explicit] at held
  contradiction

end Session

namespace Workspace

variable {workspace other : Workspace} {options : Options} {opened : Option Session}

/-- The workspace with contracts switched off, in which this session was opened. -/
def relaxed (workspace : Workspace) (opened : Option Session) : Workspace :=
  { workspace with options := { workspace.options with checksContracts := false }, opened }

/-- The workspaces differ in contracts only. -/
structure Relaxes (workspace other : Workspace) : Prop where
  alike : ∃ opened, other = workspace.relaxed opened
  opened : other.session? = none ↔ workspace.session? = none
  session : workspace.session.Unbound workspace.scene [] → other.session = workspace.session.waived

theorem documentOf_relaxed (id : DocumentId) :
    (workspace.relaxed opened).documentOf id = workspace.documentOf id := rfl

/-- A change does not depend on whether contracts are checked. -/
theorem serve_relaxed {request : Request} (changes : ¬request.asks) (opened : Option Session) :
    (workspace.relaxed opened).serve request =
      (workspace.serve request).map fun next => next.relaxed opened := by
  cases request with
  | add text =>
    let document := Document.ofText ⟨workspace.nextDocument⟩ workspace.options.tabSize text
    simp only [serve, add, relaxed]
    cases workspace.graph.change (document.replace []) document [] <;> rfl
  | remove id =>
    simp only [serve, remove, documentOf_relaxed]
    cases workspace.documentOf id with
    | error reason => rfl
    | ok document =>
      simp only [relaxed]
      cases workspace.graph.change document (document.replace []) [] <;> rfl
  | edit id edits =>
    simp only [serve, edit, documentOf_relaxed]
    cases workspace.documentOf id with
    | error reason => rfl
    | ok document =>
      cases planned : (document.plan edits).1 with
      | error reason =>
        simp only [planned]
        rfl
      | ok plan =>
        simp only [planned, relaxed]
        let counted := (document.plan edits).2
        cases workspace.graph.change counted (counted.replace plan.statements) plan.parents <;> rfl
  | _ => exact absurd rfl changes

theorem Relaxes.of_unopened (alike : ∃ opened, other = workspace.relaxed opened)
    (unopened : workspace.session? = none) (also : other.session? = none) : Relaxes workspace other where
  alike := alike
  opened := iff_of_true also unopened
  session _ := by
    obtain ⟨opened, rfl⟩ := alike
    have bare := (Session.calm_prepare (.empty workspace.version) workspace.scene).parallels
    rw [session_of_unopened unopened, session_of_unopened also, Session.waived_of_parallels_eq_nil bare]
    rfl

theorem Synchronised.session?_of_opened (synchronised : workspace.Synchronised)
    (opened : workspace.opened = some workspace.session) : workspace.session? = some workspace.session := by
  simp [session?, opened, synchronised.ready_session.2]

namespace Relaxes

variable (relaxes : Relaxes workspace other) (synchronised : workspace.Synchronised) (rested : workspace.Rested)
  (again : other.Synchronised) (still : other.Rested)
include relaxes synchronised rested again still

theorem change {request : Request} (changes : ¬request.asks) :
    Lockstep Relaxes (workspace.serve request) (other.serve request) := by
  intro next twin done doneToo
  have decided := (synchronised.serve_decides changes).post_of_eq done
  obtain ⟨opened, rfl⟩ := relaxes.alike
  rw [serve_relaxed changes, done] at doneToo
  cases doneToo
  rcases decided with ⟨document, revised⟩ | ⟨id, rfl | ⟨document, serial, _, _, rfl⟩⟩
  · exact .of_unopened ⟨opened, rfl⟩ (synchronised.session?_eq_none revised.opened revised.version)
      (again.session?_eq_none rfl revised.version)
  · exact relaxes
  · cases current : workspace.session? with
    | none => exact .of_unopened ⟨opened, rfl⟩ current (relaxes.opened.mpr current)
    | some session =>
      obtain ⟨twin, currentToo⟩ : ∃ twin, (workspace.relaxed opened).session? = some twin := by
        refine Option.ne_none_iff_exists'.mp fun unopened => ?_
        rw [relaxes.opened, current] at unopened
        contradiction
      refine ⟨⟨opened, rfl⟩, relaxes.opened, fun unbound => ?_⟩
      rw [rested.session_recount current] at unbound ⊢
      exact (still.session_recount currentToo _).trans (relaxes.session unbound)

theorem resolve (path : TypePath) :
    Lockstep (fun result twin => Relaxes result.2 twin.2) (workspace.resolve path) (other.resolve path) := by
  intro result twin done doneToo
  obtain ⟨drilled, _, scene, opened⟩ := synchronised.resolve_drills rested path result done
  obtain ⟨drilledToo, _, _, openedToo⟩ := again.resolve_drills still path twin doneToo
  have here := ((synchronised.resolve_succeeds path).post_of_eq done).synchronised.session?_of_opened opened
  have there := ((again.resolve_succeeds path).post_of_eq doneToo).synchronised.session?_of_opened openedToo
  obtain ⟨last, _, same⟩ := exists_ok_of_bind done
  obtain ⟨lastToo, _, sameToo⟩ := exists_ok_of_bind doneToo
  obtain ⟨opened, rfl⟩ := relaxes.alike
  refine ⟨?_, by simp [here, there], fun unbound => ?_⟩
  · cases same
    cases sameToo
    exact ⟨some lastToo.2, rfl⟩
  · rw [scene] at unbound
    obtain ⟨before, followed⟩ := (Session.waives_drill workspace.session path _ drilled).2 []
      (by simp [Session.Begun]) unbound
    rw [← relaxes.session before] at followed
    exact congrArg Prod.snd (Except.ok.inj (drilledToo.symm.trans followed))

theorem faults : Relaxes workspace.faults.2 other.faults.2 := by
  have same := synchronised.session_faults rested
  have sameToo := again.session_faults still
  have here := synchronised.served_faults.synchronised.session?_of_opened (by rw [same]; rfl)
  have there := again.served_faults.synchronised.session?_of_opened (by rw [sameToo]; rfl)
  refine ⟨?_, by simp [here, there], fun unbound => ?_⟩
  · obtain ⟨opened, rfl⟩ := relaxes.alike
    exact ⟨_, rfl⟩
  · rw [same] at unbound ⊢
    rw [sameToo]
    exact relaxes.session unbound

theorem serve (request : Request) : Lockstep Relaxes (workspace.serve request) (other.serve request) := by
  by_cases asks : request.asks
  · cases request with
    | add | remove | edit => contradiction
    | path | session => exact .ok relaxes
    | worker | faults => exact .ok (relaxes.faults synchronised rested again still)
    | resolve path =>
      exact (relaxes.resolve synchronised rested again still path).bind fun _ _ h => .pure h
    | drill document text =>
      have same : other.path document text = workspace.path document text := by
        obtain ⟨opened, rfl⟩ := relaxes.alike
        rfl
      rw [Workspace.serve, Workspace.serve, Workspace.drill, Workspace.drill, same]
      cases workspace.path document text with
      | error reason => exact .ok relaxes
      | ok path =>
        simp only [bind_assoc]
        exact (relaxes.resolve synchronised rested again still path).bind fun _ _ h => .pure h
  · exact relaxes.change synchronised rested again still asks

end Relaxes

theorem Synchronised.serve_steady (synchronised : workspace.Synchronised) (rested : workspace.Rested)
    (request : Request) : Ensures (workspace.serve request) fun next => next.Synchronised ∧ next.Rested :=
  ((synchronised.serve_succeeds request).ensures.mono fun _ served => served.synchronised).and
    (synchronised.serve_rested rested request)

/-- One history with contracts checked or not, and without them. -/
theorem histories_relax (options : Options) (requests : List Request) :
    Lockstep Relaxes ((empty options).serveAll requests) ((empty ⟨options.tabSize, false⟩).serveAll requests) := by
  let both (workspace other : Workspace) := Relaxes workspace other ∧
    (workspace.Synchronised ∧ workspace.Rested) ∧ (other.Synchronised ∧ other.Rested)
  have start : both (empty options) (empty ⟨options.tabSize, false⟩) :=
    ⟨.of_unopened ⟨none, rfl⟩ rfl rfl, ⟨synchronised_empty _, .of_unopened rfl⟩,
      ⟨synchronised_empty _, .of_unopened rfl⟩⟩
  refine (Lockstep.foldlM (List.forall₂_same.mpr fun request _ => rfl : List.Forall₂ Eq requests requests) start
    ?_).mono fun _ _ h => h.1
  rintro workspace other request _ ⟨relaxes, ⟨synchronised, rested⟩, again, still⟩ rfl
  exact (relaxes.serve synchronised rested again still request).and (synchronised.serve_steady rested request)
    (again.serve_steady still request)

/-- Without contracts every edge that the work of a drill resolves gets the nearest of its candidates. -/
theorem Synchronised.resolves_nearest (synchronised : workspace.Synchronised) (rested : workspace.Rested)
    (unchecked : workspace.options.checksContracts = false) {path : TypePath} {bound : Nat} {id : ParallelId}
    {contract : Option Contract} {session : Session} {edge : Edge}
    (within_ : Session.Task.Within workspace.scene
      (.drill (Session.drillBound workspace.scene) path workspace.session) (.edge bound id contract session edge)) :
    contract = none ∧ ∃ next,
      Session.rakeEdge (Session.drillWithin workspace.scene bound) workspace.scene id (none, session) edge =
        .ok (none, next) ∧
      Session.ResolvesNearest (Session.drillWithin workspace.scene bound) workspace.scene id session edge next := by
  obtain ⟨⟨_, _, facing⟩, ⟨after, next⟩, done⟩ := synchronised.task_within rested within_
  have bare : contract = none := by
    rcases Relation.ReflTransGen.cases_tail within_ with wrong | ⟨outer, _, starts⟩
    · contradiction
    · exact starts.contract_eq_none unchecked
  subst bare
  obtain ⟨same, resolves⟩ := facing.rakeEdge_resolves synchronised.settled.toCoherent done
  obtain rfl : after = none := same
  exact ⟨rfl, next, done, resolves⟩

/-- Switching contracts off only removes what they do. If a history with contracts checked gives no parallel a
contract with a condition, the same history without them leads to the same session, but for the contracts. Without
them no fault is about a contract, and wherever a drill resolves an edge, a base is the nearest candidate that is not
being raked when it is drilled, or the only candidate. -/
theorem histories_without_contracts (tabSize : Nat) (requests : List Request) :
    ∃ strict lenient, (empty ⟨tabSize, true⟩).serveAll requests = .ok strict ∧
      (empty ⟨tabSize, false⟩).serveAll requests = .ok lenient ∧
      lenient.documents = strict.documents ∧ lenient.graph = strict.graph ∧
      (strict.session.Undemanding → lenient.session = strict.session.waived) ∧
      (∀ fault ∈ lenient.session.faults.faults, fault.kind ≠ .contract) ∧
      ∀ path bound id contract session edge,
        Session.Task.Within lenient.scene (.drill (Session.drillBound lenient.scene) path lenient.session)
            (.edge bound id contract session edge) →
          contract = none ∧ ∃ next,
            Session.rakeEdge (Session.drillWithin lenient.scene bound) lenient.scene id (none, session) edge =
              .ok (none, next) ∧
            Session.ResolvesNearest (Session.drillWithin lenient.scene bound) lenient.scene id session edge next := by
  obtain ⟨strict, reached⟩ := (history_succeeds ⟨tabSize, true⟩ requests).imp fun _ h => h.1
  obtain ⟨lenient, reachedToo, served⟩ := history_succeeds ⟨tabSize, false⟩ requests
  obtain ⟨synchronised, rested, balanced⟩ := (history_balanced ⟨tabSize, false⟩ requests).post_of_eq reachedToo
  have unchecked : lenient.options.checksContracts = false := by rw [served.options]; rfl
  have relaxes := histories_relax ⟨tabSize, true⟩ requests strict lenient reached reachedToo
  -- Next to itself the history shows that it gives no contract at all.
  have waived := (histories_relax ⟨tabSize, false⟩ requests lenient lenient reachedToo reachedToo).session
    fun checks => by rw [scene, unchecked] at checks; contradiction
  have reconciled := rested.atRest_session.2.reconciled synchronised.settled.toFramed balanced
  refine ⟨strict, lenient, reached, reachedToo, ?_, ?_, fun undemanding => ?_, fun fault listed => ?_, ?_⟩
  · obtain ⟨opened, same⟩ := relaxes.alike
    rw [same]
    rfl
  · obtain ⟨opened, same⟩ := relaxes.alike
    rw [same]
    rfl
  · exact relaxes.session (undemanding.unbound _)
  · exact reconciled.kind_ne_contract waived listed
  · intro path bound id contract session edge within_
    exact synchronised.resolves_nearest rested unchecked within_

/-- `Dog/Sound` overrides `Animal/Sound`, which inherits nothing. -/
def indifferent : String := "Animal\n\tSound\nDog : Animal\n\tNoise\n\tSound : Noise\nNoise"

/-- A contract without conditions makes no difference to an edge with two candidates. -/
theorem open_contract_unnoticed : ∃ strict lenient parallel resolved contract,
    (empty ⟨4, true⟩).serveAll [.add indifferent, .resolve ⟨⟨0⟩, ["Dog", "Sound"], by decide⟩] = .ok strict ∧
      (empty ⟨4, false⟩).serveAll [.add indifferent, .resolve ⟨⟨0⟩, ["Dog", "Sound"], by decide⟩] = .ok lenient ∧
      strict.session.Undemanding ∧ strict.session.parallel? ⟨2⟩ = some parallel ∧
      parallel.explicit = some resolved ∧ resolved.contract = some contract ∧
      lenient.session = strict.session.waived ∧ lenient.session.basesOf ⟨2⟩ = [⟨4⟩] := by
  obtain ⟨strict, lenient, reached, reachedToo, _, _, same, _⟩ := histories_without_contracts 4
    [.add indifferent, .resolve ⟨⟨0⟩, ["Dog", "Sound"], by decide⟩]
  have evaluated : ((empty ⟨4, true⟩).serveAll
      [.add indifferent, .resolve ⟨⟨0⟩, ["Dog", "Sound"], by decide⟩]).toOption.bind (fun workspace => do
        let parallel ← workspace.session.parallel? ⟨2⟩
        let resolved ← parallel.explicit
        let contract ← resolved.contract
        return (decide workspace.session.Undemanding, contract.isOpen, workspace.session.waived.basesOf ⟨2⟩)) =
      some (true, true, [⟨4⟩]) := by
    decide +kernel
  simp only [Option.bind_eq_bind, Option.bind_eq_some_iff, Option.pure_def, Option.some.injEq, Prod.mk.injEq,
    decide_eq_true_eq, toOption_eq_some_iff] at evaluated
  obtain ⟨again, served, parallel, found, resolved, explicit, contract, held, undemanding, _, bases⟩ := evaluated
  cases reached.symm.trans served
  exact ⟨strict, lenient, parallel, resolved, contract, reached, reachedToo, undemanding, found, explicit, held,
    same undemanding, same undemanding ▸ bases⟩

/-- A contract with a condition does make one. -/
example : ((empty ⟨4, true⟩).serveAll [.add unrelated, .resolve ⟨⟨0⟩, ["Dog", "Sound"], by decide⟩]).toOption.map
      (·.session.waived) ≠
    ((empty ⟨4, false⟩).serveAll [.add unrelated, .resolve ⟨⟨0⟩, ["Dog", "Sound"], by decide⟩]).toOption.map
      (·.session) := by
  decide +kernel

end Workspace
end OutlineTypes
