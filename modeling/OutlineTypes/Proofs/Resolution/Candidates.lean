import OutlineTypes.Proofs.Resolution.Selection

/-! Drills of candidates. Rakings inside one another never go to longer paths, so those under way while an edge is
resolved are all of paths that are no shorter than that of its parallel. A candidate of the innermost scope may be one
of them; a candidate further out is shorter and always resolves. -/
namespace OutlineTypes.Session

variable {scene : Scene} {session next : Session} {id : ParallelId} {parallel : Parallel} {node : Node} {edge : Edge}
  {contract : Option Contract} {candidate : Successor} {bound depth : Nat}

section Tiered

/-- Of any two rakings under way the inner one is of a path that is no longer. -/
def Tiered (session : Session) : Prop :=
  session.raking.Pairwise fun inner outer => ∃ below above, session.parallel? inner = some below ∧
    session.parallel? outer = some above ∧ below.path.length ≤ above.path.length

theorem AtRest.tiered (rest : session.AtRest scene) : session.Tiered := by
  rw [Tiered, rest.quiet]
  exact .nil

theorem Tiered.extends (tiered : session.Tiered) (grows : Extends session next) : next.Tiered := by
  rw [Tiered, grows.raking]
  refine tiered.imp fun {inner outer} ⟨below, above, found, there, le⟩ => ?_
  obtain ⟨now, present, path, _⟩ := grows.keeps inner below found
  obtain ⟨after, beside, same, _⟩ := grows.keeps outer above there
  refine ⟨now, after, present, beside, ?_⟩
  rwa [path, same]

/-- The raking of a parallel begins inside rakings of paths that are no shorter. -/
theorem Tiered.push (tiered : session.Tiered) (found : session.parallel? id = some parallel)
    (tall : session.Tall parallel.path.length) : { session with raking := id :: session.raking }.Tiered := by
  refine List.pairwise_cons.mpr ⟨fun outer member => ?_, tiered⟩
  obtain ⟨above, there, long⟩ := tall outer member
  exact ⟨parallel, above, found, there, long⟩

/-- The raking of a parallel goes on to what it overrides inside the same rakings. -/
theorem Poised.rakeEach_grows (coherent : scene.graph.Coherent) (poised : Poised scene parallel.path.length session)
    (found : session.parallel? id = some parallel) (unraked : parallel.raked = false) {edges : List ParallelId}
    (overridden : edges ⊆ parallel.edges.toList)
    (raked : edges.foldlM (fun session edge => rakeWithin (drillWithin scene bound) scene depth edge session)
      (session.markRaked id) = .ok next) : Extends session next := by
  obtain ⟨advances, _⟩ := poised.rakeEach_advances coherent found unraked overridden raked
  exact (extends_markRaked session id).trans advances.grows

end Tiered

namespace Task

/-- The rakings under way during the task are tiered. While the edges of a parallel are resolved, its own is the
innermost of them. -/
def Tiered : Task → Prop
  | .drill _ _ session | .follow _ _ _ session | .descent _ _ session | .rake _ _ _ session => session.Tiered
  | .answer _ id session => Session.Tiered { session with raking := id :: session.raking }
  | .edge _ id _ session _ => session.raking.head? = some id ∧ session.Tiered

/-- Every task begins those of its work inside the same rakings, but that a parallel begins one of its own. -/
theorem Starts.tiered (coherent : scene.graph.Coherent) {outer inner : Task} (starts : Starts scene outer inner)
    (ready : outer.Ready scene) (tiered : outer.Tiered) : inner.Tiered := by
  cases starts with
  | resume => exact tiered
  | @surface _ path session _ _ absent _ uncached sound inserted =>
    have entered := ready.1.enter
    obtain ⟨laid, _⟩ := insert_laid entered.sane entered.orderly (lookup?_of_longestCached?_eq_none absent uncached)
      (container?_upTo_one path) sound _ inserted
    have begun : (session.enter path).Tiered := tiered
    exact begun.extends laid.grows
  | @surfaced _ path session _ _ absent _ uncached done =>
    obtain ⟨advances, _⟩ := ready.1.enter.surface_advances coherent
      (lookup?_of_longestCached?_eq_none absent uncached) done
    have begun : (session.enter path).Tiered := tiered
    exact begun.extends advances.grows
  | descend => exact tiered
  | rakeChild descended =>
    obtain ⟨_, heading⟩ := ready
    obtain ⟨laid, _⟩ := heading.laid descended
    exact Session.Tiered.extends tiered laid.grows
  | follow descended raked =>
    obtain ⟨_, heading⟩ := ready
    obtain ⟨advances, _⟩ := heading.advances coherent descended raked
    exact Session.Tiered.extends tiered advances.grows
  | override found unraked split raked =>
    obtain ⟨_, there, poised⟩ := ready
    cases found.symm.trans there
    exact Session.Tiered.extends tiered (poised.rakeEach_grows coherent found unraked (by simp [split]) raked)
  | answer found unraked raked =>
    obtain ⟨_, there, poised⟩ := ready
    cases found.symm.trans there
    have grows := poised.rakeEach_grows coherent found unraked (List.Subset.refl _) raked
    obtain ⟨present, _, now⟩ := poised.rakeEach coherent found unraked (List.Subset.refl _) raked
    exact (Session.Tiered.extends tiered grows).push present now.tall
  | edge found explicit stands demanded split raked =>
    obtain ⟨_, there, begun, unsettled, pristine, poised⟩ := ready
    cases found.symm.trans there
    obtain ⟨_, answering⟩ := poised.answering coherent found begun unsettled pristine explicit stands demanded split
      raked
    refine ⟨?_, Session.Tiered.extends tiered answering.advances.grows⟩
    rw [answering.advances.grows.raking]
    rfl
  | candidate _ split tried =>
    obtain ⟨_, _, facing⟩ := ready
    exact tiered.2.extends (facing.advances coherent split tried).grows

/-- However deep in the work of a drill a task is begun, the rakings under way are tiered. -/
theorem Within.tiered (coherent : scene.graph.Coherent) {outer inner : Task} (within_ : Within scene outer inner)
    (ready : outer.Ready scene) (tiered : outer.Tiered) : inner.Tiered := by
  induction within_ with
  | refl => exact tiered
  | tail before starts ih => exact starts.tiered coherent (Within.ready coherent before ready) ih

end Task

section Candidates

/-- The search for the base of an edge comes to the candidate, in the session that the candidates before it left. -/
def ComesTo (scene : Scene) (bound : Nat) (contract : Option Contract) (session : Session) (edge : Edge)
    (candidate : Successor) (next : Session) : Prop :=
  session.cruft.hasEdge edge.id = false ∧ ∃ trials back,
    session.candidatesOf edge = trials.map Trial.candidate ++ candidate :: back ∧
      Trials (drillWithin scene bound) scene session trials next ∧
      ∀ trial ∈ trials, trial.Fails (weighing contract (session.candidatesOf edge))

/-- Drilling the candidate finds its parallel, unless the candidate is of the innermost scope and its parallel is being
raked. -/
def Found (scene : Scene) (candidate : Successor) (session : Session) (result : Outcome × Session) : Prop :=
  (∃ base, result.1 = .resolved base ∧ result.2.cached? scene candidate = some base) ∨
    result.1 = .circular ∧ candidate.longitude = 0 ∧
      ∃ other, session.cached? scene candidate = some other ∧ other ∈ session.raking

/-- A search begins with the nearest candidate. -/
theorem comesTo_nearest {back : List Successor} (sound : session.cruft.hasEdge edge.id = false)
    (split : session.candidatesOf edge = candidate :: back) :
    ComesTo scene bound contract session edge candidate session :=
  ⟨sound, [], back, split, .nil session, by simp⟩

theorem ComesTo.starts (comes : ComesTo scene bound contract session edge candidate next)
    (stands : scene.graph.node? candidate.node = some node) :
    Task.Starts scene (.edge bound id contract session edge) (.drill bound node.path next) := by
  obtain ⟨sound, trials, back, split, tried, failed⟩ := comes
  exact .candidate sound split tried failed stands

theorem ComesTo.mem (comes : ComesTo scene bound contract session edge candidate next) :
    candidate ∈ session.candidatesOf edge := by
  obtain ⟨_, trials, back, split, _⟩ := comes
  simp [split]

/-- A candidate is a node of the graph. -/
theorem Facing.exists_node (coherent : scene.graph.Coherent)
    (facing : Facing scene id contract session edge parallel node) (listed : candidate ∈ session.candidatesOf edge) :
    ∃ other, scene.graph.node? candidate.node = some other := by
  obtain ⟨other, member, same, _⟩ := facing.attainable coherent listed
  exact ⟨other, same ▸ coherent.node?_id member⟩

/-- No candidate that a search comes to is unpopulated. -/
theorem Facing.finds (coherent : scene.graph.Coherent)
    (facing : Facing scene id contract session edge parallel node)
    (comes : ComesTo scene bound contract session edge candidate next) {result : Outcome × Session}
    (done : next.drillCandidate (drillWithin scene bound) scene candidate = .ok result) :
    Found scene candidate next result := by
  have listed := comes.mem
  obtain ⟨_, trials, back, split, tried, _⟩ := comes
  have before := facing.advances coherent split tried
  have poised := facing.poised.advance before
  have attainable := (facing.attainable coherent listed).advance facing.poised.sane before
  obtain ⟨advances, other, _, cached, came⟩ := drillCandidate_ensures coherent
    (obliges_drillWithin coherent bound _ _) (Nat.le_refl _) poised.toWorkable attainable (List.mem_singleton_self _)
    _ done
  rcases came with resolved | ⟨circular, raking⟩
  · exact .inl ⟨other, resolved, cached⟩
  · obtain ⟨node, stands, known⟩ := Option.bind_eq_some_iff.mp cached
    have now : next.cached? scene candidate = some other :=
      Option.bind_eq_some_iff.mpr ⟨node, stands, lookup?_of_raking poised.sane poised.busy advances known raking⟩
    let trial : Trial := ⟨candidate, .circular, next⟩
    have inProgress : trial.InProgress scene := ⟨other, now, raking⟩
    have innermost : trial.candidate.longitude = 0 :=
      facing.innermost coherent listed poised.tall poised.sane inProgress
    exact .inr ⟨circular, innermost, other, now, raking⟩

end Candidates

end OutlineTypes.Session
