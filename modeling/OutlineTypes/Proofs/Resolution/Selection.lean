import OutlineTypes.Proofs.Contract
import OutlineTypes.Proofs.Graph.Calls
import OutlineTypes.Proofs.Resolution.Tasks

/-! Selection. A parallel that overrides something weighs the candidates of an edge by what its contract still
misses. Only a candidate of the innermost scope can be the path of a raking under way, since those outside it are
shorter, so of several candidates one always resolves. -/
namespace OutlineTypes

namespace Session

variable {drill : Driller} {scene : Scene} {session next : Session} {id : ParallelId} {path : TypePath}
  {parallel : Parallel} {node : Node} {edge : Edge} {contract : Contract} {contract? : Option Contract}
  {candidate : Successor} {candidates : List Successor} {fallback circular : Option ParallelId}
  {trials : List Trial} {bound : Nat}

/-- The candidate's parallel is being raked. -/
def Trial.InProgress (scene : Scene) (trial : Trial) : Prop :=
  ∃ id, trial.session.cached? scene trial.candidate = some id ∧ id ∈ trial.session.raking

/-- The candidate has a parallel, in whose lineage stands something that the contract misses. -/
def Trial.Helps (contract : Contract) (trial : Trial) : Prop :=
  ∃ base, trial.outcome = .resolved base ∧
    ∃ condition ∈ contract.unsatisfied, condition ∈ trial.session.lineage base

/-- A candidate's parallel is the base that it offers, unless it is being raked. -/
def Trial.Decided (scene : Scene) (trial : Trial) : Prop :=
  ∃ id, trial.session.cached? scene trial.candidate = some id ∧
    (trial.outcome = .resolved id ∧ ¬trial.InProgress scene ∨ trial.outcome = .circular ∧ trial.InProgress scene)

/-- The trials by which a base is selected, and the one that decided. -/
structure Selects (drill : Driller) (scene : Scene) (contract : Contract) (session : Session)
    (candidates : List Successor) (trials : List Trial) (chosen : Trial) (base : ParallelId) (next : Session) :
    Prop where
  tried : Trials drill scene session trials next
  front : trials.map Trial.candidate <+: candidates
  decided : ∀ trial ∈ trials, trial.Decided scene
  member : chosen ∈ trials
  resolved : chosen.outcome = .resolved base
  helping : chosen.Helps contract →
    ∀ trial ∈ trials, trial.Helps contract → chosen.candidate.longitude ≤ trial.candidate.longitude
  otherwise : ¬chosen.Helps contract →
    (contract.hasUnsatisfied = false ∨
      trials.map Trial.candidate = candidates ∧ ∀ trial ∈ trials, ¬trial.Helps contract) ∧
    ∀ trial ∈ trials, ¬trial.InProgress scene → chosen.candidate.longitude ≤ trial.candidate.longitude
  untried : ∀ candidate ∈ candidates, candidate ∉ trials.map Trial.candidate →
    chosen.candidate.longitude < candidate.longitude

section Search

theorem Trial.not_helps_of_gain {trial : Trial} {base : ParallelId} (resolved : trial.outcome = .resolved base)
    (nothing : contract.gain (trial.session.lineage base) = 0) : ¬trial.Helps contract := by
  rintro ⟨other, same, condition, missed, inside⟩
  cases resolved.symm.trans same
  exact List.countP_eq_zero.mp nothing condition missed (by simpa using inside)

theorem Trial.Fails.not_helps {trial : Trial} (fails : trial.Fails (some contract)) : ¬trial.Helps contract := by
  rintro ⟨base, resolved, helps⟩
  obtain ⟨_, same, _, nothing⟩ := fails base resolved
  cases same
  exact trial.not_helps_of_gain resolved nothing ⟨base, resolved, helps⟩

/-- How a search by contract ends, after trials all but the last of which fail, or which all fail. -/
inductive Ended (contract : Contract) (fallback : Option ParallelId) :
    List Successor → List Trial → Option ParallelId → Contract → Prop where
  | met {front : List Trial} {chosen : Trial} {base : ParallelId} {back : List Successor}
      (failed : ∀ trial ∈ front, trial.Fails (some contract)) (resolved : chosen.outcome = .resolved base)
      (meets : contract.hasUnsatisfied → chosen.Helps contract) :
      Ended contract fallback ((front ++ [chosen]).map Trial.candidate ++ back) (front ++ [chosen]) (some base)
        (contract.satisfy (chosen.session.lineage base))
  | exhausted {trials : List Trial} {circular : Option ParallelId}
      (failed : ∀ trial ∈ trials, trial.Fails (some contract)) :
      Ended contract fallback (trials.map Trial.candidate) trials
        ((fallback <|> trials.findSome? (·.outcome.parallel?)) <|> circular) contract

/-- One more candidate at the front fails. -/
theorem Ended.cons {trial : Trial} {base : Option ParallelId} {after : Contract}
    (ended : Ended contract (fallback <|> trial.outcome.parallel?) candidates trials base after)
    (fails : trial.Fails (some contract)) :
    Ended contract fallback (trial.candidate :: candidates) (trial :: trials) base after := by
  have all {others : List Trial} (failed : ∀ other ∈ others, other.Fails (some contract)) :
      ∀ other ∈ trial :: others, other.Fails (some contract) := by
    intro other member
    rcases List.mem_cons.mp member with rfl | later
    · exact fails
    · exact failed other later
  cases ended with
  | met failed resolved meets => exact .met (all failed) resolved meets
  | @exhausted _ circular failed =>
    have same : ((fallback <|> trial.outcome.parallel?) <|> trials.findSome? (·.outcome.parallel?)) =
        (fallback <|> (trial :: trials).findSome? (·.outcome.parallel?)) := by
      cases outcome : trial.outcome.parallel? <;> cases fallback <;> simp [outcome]
    rw [same]
    exact .exhausted (all failed)

theorem satisfying_ends {result : Option ParallelId × Contract × Session}
    (done : satisfying drill scene contract fallback circular session candidates = .ok result) :
    ∃ trials, Trials drill scene session trials result.2.2 ∧
      Ended contract fallback candidates trials result.1 result.2.1 := by
  induction candidates generalizing fallback circular session with
  | nil =>
    cases done
    exact ⟨[], .nil session, by simpa using @Ended.exhausted contract fallback [] circular (by simp)⟩
  | cons candidate rest ih =>
    rw [satisfying] at done
    obtain ⟨⟨outcome, mid⟩, drilled, further⟩ := exists_ok_of_bind done
    let trial : Trial := ⟨candidate, outcome, mid⟩
    -- Whatever the candidate leaves open is left to the rest of them.
    have onward {circular : Option ParallelId} (fails : trial.Fails (some contract))
        (searched : satisfying drill scene contract (fallback <|> outcome.parallel?) circular mid rest = .ok result) :
        ∃ trials, Trials drill scene session trials result.2.2 ∧
          Ended contract fallback (candidate :: rest) trials result.1 result.2.1 := by
      obtain ⟨trials, tried, ended⟩ := ih searched
      exact ⟨trial :: trials, .cons drilled tried, ended.cons fails⟩
    have decides {base : ParallelId} (resolved : trial.outcome = .resolved base)
        (meets : contract.hasUnsatisfied → trial.Helps contract)
        (same : result = (some base, contract.satisfy (mid.lineage base), mid)) :
        ∃ trials, Trials drill scene session trials result.2.2 ∧
          Ended contract fallback (candidate :: rest) trials result.1 result.2.1 := by
      subst same
      have ended := @Ended.met contract fallback [] trial base rest (by simp) resolved meets
      exact ⟨[trial], .cons drilled (.nil mid), ended⟩
    cases outcome with
    | circular => exact onward (fun base same => by contradiction) (by simpa [Outcome.parallel?] using further)
    | unpopulated => exact onward (fun base same => by contradiction) (by simpa [Outcome.parallel?] using further)
    | resolved base =>
      simp only at further
      by_cases unsatisfied : contract.hasUnsatisfied
      · rw [if_pos unsatisfied] at further
        obtain ⟨lineage, listed, last⟩ := exists_ok_of_bind further
        cases lineage_of_lineageOf listed
        by_cases helps : 0 < contract.gain (mid.lineage base)
        · rw [if_pos helps] at last
          refine decides rfl (fun _ => ?_) (Except.ok.inj last).symm
          obtain ⟨condition, missed, inside⟩ := List.countP_pos_iff.mp helps
          exact ⟨base, rfl, condition, missed, by simpa using inside⟩
        · rw [if_neg helps] at last
          refine onward (fun other same => ?_) last
          cases same
          exact ⟨contract, rfl, unsatisfied, Nat.eq_zero_of_not_pos helps⟩
      · rw [if_neg unsatisfied] at further
        have none := contract.gain_of_satisfied (by simpa using unsatisfied) (mid.lineage base)
        refine decides rfl (fun missing => absurd missing unsatisfied) ?_
        rw [contract.satisfy_of_gain_eq_zero none]
        exact (Except.ok.inj further).symm

theorem Ended.front {base : Option ParallelId} {after : Contract}
    (ended : Ended contract fallback candidates trials base after) : trials.map Trial.candidate <+: candidates := by
  cases ended with
  | met => exact List.prefix_append _ _
  | exhausted => exact List.prefix_refl _

theorem Outcome.eq_resolved {outcome : Outcome} {base : ParallelId} (found : outcome.parallel? = some base) :
    outcome = .resolved base := by
  cases outcome with
  | resolved id => exact congrArg Outcome.resolved (Option.some.inj found)
  | unpopulated | circular => contradiction

theorem Trial.Decided.inProgress {trial : Trial} (decided : trial.Decided scene)
    (unresolved : trial.outcome.parallel? = none) : trial.InProgress scene := by
  obtain ⟨id, _, ⟨resolved, _⟩ | ⟨_, raking⟩⟩ := decided
  · rw [resolved] at unresolved
    contradiction
  · exact raking

theorem Trial.Decided.resolved {trial : Trial} (decided : trial.Decided scene) (free : ¬trial.InProgress scene) :
    ∃ base, trial.outcome = .resolved base := by
  obtain ⟨id, _, ⟨resolved, _⟩ | ⟨_, raking⟩⟩ := decided
  · exact ⟨id, resolved⟩
  · exact absurd raking free

variable (tried : Trials drill scene session trials next) (decided : ∀ trial ∈ trials, trial.Decided scene)
  (nearestFirst : candidates.Pairwise fun nearer further => nearer.longitude < further.longitude)
include tried decided nearestFirst

/-- The last trial is the one that decided. -/
theorem selects_last {front : List Trial} {chosen : Trial} {base : ParallelId} {back : List Successor}
    (all : trials = front ++ [chosen]) (split : candidates = trials.map Trial.candidate ++ back)
    (failed : ∀ trial ∈ front, trial.Fails (some contract)) (resolved : chosen.outcome = .resolved base)
    (meets : contract.hasUnsatisfied → chosen.Helps contract) :
    Selects drill scene contract session candidates trials chosen base next where
  tried := tried
  front := split ▸ List.prefix_append _ _
  decided := decided
  member := by simp [all]
  resolved := resolved
  helping _ trial member helps := by
    rw [all, List.mem_append, List.mem_singleton] at member
    rcases member with before | rfl
    · exact absurd helps (failed trial before).not_helps
    · exact Nat.le_refl _
  otherwise unhelped := by
    have satisfied : contract.hasUnsatisfied = false := by
      rw [← Bool.not_eq_true]
      exact fun missing => unhelped (meets missing)
    refine ⟨.inl satisfied, fun trial member free => ?_⟩
    obtain ⟨other, found⟩ := (decided trial member).resolved free
    rw [all, List.mem_append, List.mem_singleton] at member
    rcases member with before | rfl
    · obtain ⟨_, same, missing, _⟩ := failed trial before other found
      cases same
      rw [satisfied] at missing
      contradiction
    · exact Nat.le_refl _
  untried candidate listed untouched := by
    rw [split, List.pairwise_append] at nearestFirst
    rw [split, List.mem_append] at listed
    exact nearestFirst.2.2 _ (List.mem_map_of_mem (by simp [all])) candidate (listed.resolve_left untouched)

/-- Where all trials fail, the first that resolves is the one that decided. -/
theorem selects_first {front back : List Trial} {chosen : Trial} {base : ParallelId}
    (all : trials = front ++ chosen :: back) (split : candidates = trials.map Trial.candidate)
    (failed : ∀ trial ∈ trials, trial.Fails (some contract)) (resolved : chosen.outcome = .resolved base)
    (unresolved : ∀ trial ∈ front, trial.outcome.parallel? = none) :
    Selects drill scene contract session candidates trials chosen base next where
  tried := tried
  front := split ▸ List.prefix_refl _
  decided := decided
  member := by simp [all]
  resolved := resolved
  helping helps := absurd helps (failed chosen (by simp [all])).not_helps
  otherwise _ := by
    refine ⟨.inr ⟨split.symm, fun trial member => (failed trial member).not_helps⟩, fun trial member free => ?_⟩
    have onward := decided trial member
    rw [split, List.pairwise_map, all, List.pairwise_append, List.pairwise_cons] at nearestFirst
    rw [all, List.mem_append, List.mem_cons] at member
    rcases member with before | rfl | after
    · exact absurd (onward.inProgress (unresolved trial before)) free
    · exact Nat.le_refl _
    · exact Nat.le_of_lt (nearestFirst.2.1.1 trial after)
  untried candidate listed untouched := absurd (split ▸ listed) untouched

/-- Only the innermost candidate can be under way, so of several candidates one is selected. -/
theorem Ended.selects {base : Option ParallelId} {after : Contract}
    (ended : Ended contract none candidates trials base after)
    (innermost : ∀ trial ∈ trials, trial.InProgress scene → trial.candidate.longitude = 0)
    (several : 2 ≤ candidates.length) :
    ∃ chosen id, Selects drill scene contract session candidates trials chosen id next ∧ base = some id ∧
      after = contract.satisfy (chosen.session.lineage id) := by
  cases ended with
  | @met front chosen id back failed resolved meets =>
    exact ⟨chosen, id, selects_last tried decided nearestFirst rfl rfl failed resolved meets, rfl, rfl⟩
  | @exhausted _ circular failed =>
    have outside : ∃ trial ∈ trials, ¬trial.InProgress scene := by
      obtain ⟨first, second, rest, rfl⟩ : ∃ first second rest, trials = first :: second :: rest := by
        match trials, several with
        | first :: second :: rest, _ => exact ⟨first, second, rest, rfl⟩
      refine ⟨second, by simp, fun raking => ?_⟩
      have further := (List.pairwise_cons.mp nearestFirst).1 second.candidate (by simp)
      have none := innermost second (by simp) raking
      omega
    cases found : trials.findSome? (·.outcome.parallel?) with
    | none =>
      obtain ⟨trial, member, free⟩ := outside
      exact absurd ((decided trial member).inProgress (List.findSome?_eq_none_iff.mp found trial member)) free
    | some id =>
      obtain ⟨front, chosen, back, all, met, unresolved⟩ := List.findSome?_eq_some_iff.mp found
      have resolved := Outcome.eq_resolved met
      obtain ⟨_, same, _, nothing⟩ := failed chosen (by simp [all]) id resolved
      cases same
      exact ⟨chosen, id, selects_first tried decided nearestFirst all rfl failed resolved unresolved, rfl,
        (contract.satisfy_of_gain_eq_zero nothing).symm⟩

end Search

section Trials

variable (coherent : scene.graph.Coherent)

/-- What is being raked had its path before. -/
theorem lookup?_of_raking (sane : session.Sane scene.graph) (busy : session.Busy)
    (advances : Advances scene none session next) (cached : next.lookup? path = some id) (raking : id ∈ session.raking) :
    session.lookup? path = some id := by
  obtain ⟨_, parallel, found, _⟩ := busy id raking
  obtain ⟨now, present, path, _⟩ := advances.grows.keeps id parallel found
  obtain ⟨again, there, rfl⟩ := advances.sane.lookup?_eq_some cached
  cases present.symm.trans there
  rw [path]
  exact sane.lookup?_path found

/-- A drill resolves to no parallel that is being raked. -/
theorem not_mem_raking_of_resolved (sane : session.Sane scene.graph) (busy : session.Busy)
    (advances : Advances scene none session next) (cached : next.lookup? path = some id)
    (drilled : drillWithin scene bound path session = .ok (.resolved id, next)) : id ∉ session.raking := by
  intro raking
  have known := lookup?_of_raking sane busy advances cached raking
  unfold drillWithin at drilled
  simp only [known, if_pos raking] at drilled
  cases drilled

include coherent in
/-- Of every candidate it is known after its trial whether its parallel is being raked. -/
theorem Trials.decided (tried : Trials (drillWithin scene bound) scene session trials next)
    (poised : Poised scene path.length session)
    (attainable : ∀ trial ∈ trials, Attainable scene session path trial.candidate) :
    ∀ trial ∈ trials, trial.Decided scene ∧ Poised scene path.length trial.session := by
  induction tried with
  | nil => simp
  | @cons session last trial trials drilled _ ih =>
    have reachable := attainable trial List.mem_cons_self
    obtain ⟨advances, id, _, cached, came⟩ := drillCandidate_ensures coherent
      (obliges_drillWithin coherent bound _ _) (Nat.le_refl _) poised.toWorkable reachable
      (List.mem_singleton_self _) _ drilled
    have now : Poised scene path.length trial.session := poised.advance advances
    intro other member
    rcases List.mem_cons.mp member with rfl | later
    · refine ⟨⟨id, cached, ?_⟩, now⟩
      rcases came with resolved | ⟨met, raking⟩
      · refine .inl ⟨resolved, ?_⟩
        rintro ⟨again, same, raking⟩
        cases cached.symm.trans same
        obtain ⟨node, stands, known⟩ := Option.bind_eq_some_iff.mp cached
        rw [drillCandidate, stands, show other.outcome = .resolved id from resolved] at drilled
        exact not_mem_raking_of_resolved poised.sane poised.busy advances known drilled
          (advances.grows.raking ▸ raking)
      · exact .inr ⟨met, id, cached, advances.grows.raking ▸ raking⟩
    · refine ih now (fun next listed => ?_) other later
      exact (attainable next (List.mem_cons_of_mem _ listed)).advance poised.sane advances

end Trials

section Choice

variable (coherent : scene.graph.Coherent)
include coherent

theorem Facing.nearestFirst (facing : Facing scene id contract? session edge parallel node) :
    (session.candidatesOf edge).Pairwise fun nearer further => nearer.longitude < further.longitude :=
  (coherent.pairwise_successors (List.mem_filter.mp facing.outbound).1).filter _

/-- A candidate that is being raked stands in the innermost scope, since no shorter path is being raked. -/
theorem Facing.innermost (facing : Facing scene id contract? session edge parallel node) {trial : Trial}
    (listed : trial.candidate ∈ session.candidatesOf edge) (tall : trial.session.Tall parallel.path.length)
    (sane : trial.session.Sane scene.graph) (inProgress : trial.InProgress scene) :
    trial.candidate.longitude = 0 := by
  obtain ⟨raked, cached, raking⟩ := inProgress
  obtain ⟨other, stands, known⟩ := Option.bind_eq_some_iff.mp cached
  obtain ⟨near, scope⟩ := facing.inScope coherent listed stands
  obtain ⟨standing, found, path⟩ := sane.lookup?_eq_some known
  obtain ⟨again, there, long⟩ := tall raked raking
  cases found.symm.trans there
  have length := @TypePath.length_inScope _ _ edge.subject near
  rw [← scope, ← path] at length
  omega

/-- An edge with several candidates gets a base that is selected among them, and the contract is satisfied by the
lineage of that base. -/
theorem Facing.rakeEdge_selects (facing : Facing scene id (some contract) session edge parallel node)
    (sound : session.cruft.hasEdge edge.id = false) (several : 2 ≤ (session.candidatesOf edge).length)
    {result : Option Contract × Session}
    (done : rakeEdge (drillWithin scene bound) scene id (some contract, session) edge = .ok result) :
    ∃ trials chosen base next, Selects (drillWithin scene bound) scene contract session
        (session.candidatesOf edge) trials chosen base next ∧
      result = (some (contract.satisfy (chosen.session.lineage base)),
        next.modify id (Parallel.setBase edge.id base)) := by
  have weighs : weighing (some contract) (session.candidatesOf edge) = some contract := by
    match session.candidatesOf edge, several with
    | _ :: _ :: _, _ => rfl
  have nonempty : session.candidatesOf edge ≠ [] := List.ne_nil_of_length_pos (by omega)
  rw [rakeEdge_of_candidates sound nonempty, chooseBase_of_weighing weighs] at done
  obtain ⟨_, chose, onward⟩ := exists_ok_of_bind done
  obtain ⟨⟨choice, after, next⟩, searched, same⟩ := exists_ok_of_bind chose
  cases same
  obtain ⟨trials, tried, ended⟩ := satisfying_ends searched
  have listed : ∀ trial ∈ trials, trial.candidate ∈ session.candidatesOf edge := fun trial member =>
    ended.front.subset (List.mem_map_of_mem member)
  have decided := tried.decided coherent facing.poised fun trial member =>
    facing.attainable coherent (listed trial member)
  obtain ⟨chosen, base, selects, rfl, rfl⟩ := ended.selects tried (fun trial member => (decided trial member).1)
    (facing.nearestFirst coherent) (fun trial member => facing.innermost coherent (listed trial member)
      (decided trial member).2.tall (decided trial member).2.sane) several
  exact ⟨trials, chosen, base, next, selects, (Except.ok.inj onward).symm⟩

end Choice

end Session
end OutlineTypes
