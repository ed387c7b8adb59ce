import OutlineTypes.Proofs.Resolution.Leniency
import OutlineTypes.Proofs.Resolution.Selection

/-! The nearest candidate. Where no contract is checked, an edge gets its nearest candidate that is not being raked,
and one that is being raked only if it is the only candidate. -/
namespace OutlineTypes.Session

variable {drill : Driller} {scene : Scene} {session next : Session} {id : ParallelId} {edge : Edge} {bound : Nat}
  {contract : Option Contract} {parallel : Parallel} {node : Node} {candidates : List Successor} {trials : List Trial}
  {chosen : Trial} {base : ParallelId}

/-- The trials by which the nearest candidate is taken, and the one that decided. -/
structure TakesNearest (drill : Driller) (scene : Scene) (session : Session) (candidates : List Successor)
    (trials : List Trial) (chosen : Trial) (base : ParallelId) (next : Session) : Prop where
  tried : Trials drill scene session trials next
  front : trials.map Trial.candidate <+: candidates
  decided : ∀ trial ∈ trials, trial.Decided scene
  member : chosen ∈ trials
  base : chosen.session.cached? scene chosen.candidate = some base
  /-- A candidate that is being raked is taken only where there is no other. -/
  only : chosen.InProgress scene → candidates = [chosen.candidate]
  nearest : ∀ trial ∈ trials, ¬trial.InProgress scene → chosen.candidate.longitude ≤ trial.candidate.longitude
  untried : ∀ candidate ∈ candidates, candidate ∉ trials.map Trial.candidate →
    chosen.candidate.longitude < candidate.longitude

/-- What resolving an edge without a contract leaves: a base only for a sound edge with candidates, and then the
nearest of them. -/
inductive ResolvesNearest (drill : Driller) (scene : Scene) (id : ParallelId) (session : Session) (edge : Edge) :
    Session → Prop where
  | cruft (marked : session.cruft.hasEdge edge.id) : ResolvesNearest drill scene id session edge session
  | groundless (sound : session.cruft.hasEdge edge.id = false) (nothing : session.candidatesOf edge = []) :
      ResolvesNearest drill scene id session edge (session.condemn scene (.edge edge.id) .unresolved)
  | based {trials : List Trial} {chosen : Trial} {base : ParallelId} {next : Session}
      (sound : session.cruft.hasEdge edge.id = false)
      (takes : TakesNearest drill scene session (session.candidatesOf edge) trials chosen base next) :
      ResolvesNearest drill scene id session edge (next.modify id (Parallel.setBase edge.id base))

theorem Trial.Decided.cached_of_resolved {trial : Trial} (decided : trial.Decided scene)
    (resolved : trial.outcome = .resolved base) :
    trial.session.cached? scene trial.candidate = some base ∧ ¬trial.InProgress scene := by
  obtain ⟨id, cached, ⟨same, free⟩ | ⟨circular, _⟩⟩ := decided
  · cases resolved.symm.trans same
    exact ⟨cached, free⟩
  · rw [resolved] at circular
    contradiction

/-- A contract that demands nothing selects the nearest. -/
theorem Selects.takesNearest
    (selects : Selects drill scene (.requiring []) session candidates trials chosen base next) :
    TakesNearest drill scene session candidates trials chosen base next := by
  obtain ⟨cached, free⟩ := (selects.decided chosen selects.member).cached_of_resolved selects.resolved
  have unhelped : ¬chosen.Helps (.requiring []) := by
    rintro ⟨_, _, condition, missed, _⟩
    exact List.not_mem_nil missed
  exact ⟨selects.tried, selects.front, selects.decided, selects.member, cached, fun raking => absurd raking free,
    (selects.otherwise unhelped).2, selects.untried⟩

/-- The only candidate is taken, whether it is being raked or not. -/
theorem takesNearest_of_single {candidate : Successor} {choice : Option ParallelId}
    (done : nearest drill scene none session [candidate] = .ok (choice, next))
    (decided : ∀ trial : Trial, trial.candidate = candidate → Trials drill scene session [trial] trial.session →
      trial.Decided scene) :
    ∃ trials chosen base, TakesNearest drill scene session [candidate] trials chosen base next ∧
      choice = some base := by
  rw [nearest] at done
  obtain ⟨⟨outcome, last⟩, drilled, onward⟩ := exists_ok_of_bind done
  let trial : Trial := ⟨candidate, outcome, last⟩
  have tried : Trials drill scene session [trial] last := .cons drilled (.nil last)
  have verdict := decided trial rfl tried
  have takes {base : ParallelId} (cached : last.cached? scene candidate = some base) :
      TakesNearest drill scene session [candidate] [trial] trial base last := by
    refine ⟨tried, List.prefix_refl _, by simpa using verdict, List.mem_singleton_self trial, cached, fun _ => rfl,
      fun other member _ => ?_, fun other listed untouched => absurd listed untouched⟩
    rw [List.mem_singleton.mp member]
  obtain ⟨base, cached, ⟨resolved, _⟩ | ⟨circular, _⟩⟩ := verdict
  · obtain rfl : outcome = .resolved base := resolved
    cases onward
    exact ⟨_, _, _, takes cached, rfl⟩
  · obtain rfl : outcome = .circular := circular
    have cachedThere : last.cached? scene candidate = some base := cached
    simp only [nearest, cachedThere] at onward
    cases onward
    exact ⟨_, _, _, takes cached, rfl⟩

section Choice

variable (coherent : scene.graph.Coherent)
include coherent

theorem Facing.nearest_takes (facing : Facing scene id none session edge parallel node)
    (some_ : session.candidatesOf edge ≠ []) {choice : Option ParallelId}
    (searched : nearest (drillWithin scene bound) scene none session (session.candidatesOf edge) = .ok (choice, next)) :
    ∃ trials chosen base, TakesNearest (drillWithin scene bound) scene session (session.candidatesOf edge)
      trials chosen base next ∧ choice = some base := by
  have decided {trials : List Trial} {last : Session}
      (tried : Trials (drillWithin scene bound) scene session trials last)
      (listed : ∀ trial ∈ trials, trial.candidate ∈ session.candidatesOf edge) :=
    tried.decided coherent facing.poised fun trial member => facing.attainable coherent (listed trial member)
  match candidates : session.candidatesOf edge with
  | [] => exact absurd candidates some_
  | [candidate] =>
    rw [candidates] at searched
    refine takesNearest_of_single searched fun trial same tried => ?_
    exact (decided tried (by simp [candidates, same]) trial (List.mem_singleton_self _)).1
  | first :: second :: rest =>
    rw [← candidates]
    -- A contract that demands nothing makes the same search.
    have weighed : satisfying (drillWithin scene bound) scene (.requiring []) none none session
        (session.candidatesOf edge) = .ok (choice, .requiring [], next) := by
      rw [satisfying_of_idle, searched]
      rfl
    obtain ⟨trials, tried, ended⟩ := satisfying_ends weighed
    have listed : ∀ trial ∈ trials, trial.candidate ∈ session.candidatesOf edge := fun trial member =>
      ended.front.subset (List.mem_map_of_mem member)
    obtain ⟨chosen, base, selects, rfl, _⟩ := ended.selects tried
      (fun trial member => (decided tried listed trial member).1) (facing.nearestFirst coherent)
      (fun trial member => facing.innermost coherent (listed trial member) (decided tried listed trial member).2.tall
        (decided tried listed trial member).2.sane) (by simp [candidates])
    exact ⟨trials, chosen, base, selects.takesNearest, rfl⟩

/-- Without a contract an edge gets the nearest of its candidates. -/
theorem Facing.rakeEdge_resolves (facing : Facing scene id none session edge parallel node)
    {result : Option Contract × Session}
    (done : rakeEdge (drillWithin scene bound) scene id (none, session) edge = .ok result) :
    result.1 = none ∧ ResolvesNearest (drillWithin scene bound) scene id session edge result.2 := by
  by_cases marked : session.cruft.hasEdge edge.id
  · rw [rakeEdge_of_cruft marked] at done
    cases done
    exact ⟨rfl, .cruft marked⟩
  have sound : session.cruft.hasEdge edge.id = false := by simpa using marked
  by_cases nothing : session.candidatesOf edge = []
  · rw [rakeEdge_of_groundless sound nothing] at done
    cases done
    exact ⟨rfl, .groundless sound nothing⟩
  rw [rakeEdge_of_candidates sound nothing, chooseBase_of_not_weighing rfl] at done
  obtain ⟨_, chose, onward⟩ := exists_ok_of_bind done
  obtain ⟨⟨choice, next⟩, searched, accepted⟩ := exists_ok_of_bind chose
  cases accepted
  obtain ⟨trials, chosen, base, takes, rfl⟩ := facing.nearest_takes coherent nothing searched
  cases onward
  exact ⟨rfl, .based sound takes⟩

end Choice

/-- Where contracts are not checked, no edge is resolved under one. -/
theorem Task.Starts.contract_eq_none {outer : Task} (unchecked : scene.checksContracts = false)
    (starts : Task.Starts scene outer (.edge bound id contract session edge)) : contract = none := by
  cases starts with
  | @edge bound id _ parallel _ node demanded front _ edge state _ _ _ demands _ raked =>
    have none : demanded = none := by
      refine Option.eq_none_iff_forall_ne_some.mpr fun required same => ?_
      have checks := (contractOf_requires _ _ _ _ demanded demands required same).1
      rw [unchecked] at checks
      contradiction
    subst none
    obtain ⟨_, conditions⟩ := rakeEdges_keeps (forgoes_drillWithin bound) id front _ state raked
    exact Option.map_eq_none_iff.mp conditions

end OutlineTypes.Session
