import OutlineTypes.Proofs.Resolution.Cutting

/-! Constancy. A path that was drilled keeps its answer for as long as the session is used: what has a
parallel keeps it, and what is blocked stays blocked, since nothing below a settled parallel changes but by
a cut, which takes branches away. -/
namespace OutlineTypes.Session

variable {scene : Scene} {session next : Session} {path : TypePath} {id : ParallelId}

namespace AtRest

theorem advance (rest : session.AtRest scene) (advances : Advances scene none session next) :
    next.AtRest scene where
  sane := advances.sane
  orderly := advances.orderly
  idle := advances.grows.inFlight.trans rest.idle
  quiet := advances.grows.raking.trans rest.quiet
  settled := rest.settled.advance advances

theorem cutCycles (rest : session.AtRest scene) : (session.cutCycles scene).AtRest scene := by
  obtain ⟨sane, grows⟩ := rest.sane.cutCycles scene
  exact ⟨sane, rest.orderly.cutCycles rest.sane rest.settled, grows.inFlight.trans rest.idle,
    grows.raking.trans rest.quiet, rest.settled.cutCycles scene⟩

/-- Around a path with a parallel every prefix has one. -/
theorem lookup?_upTo (rest : session.AtRest scene) (cached : session.lookup? path = some id) {count : Nat}
    (positive : 1 ≤ count) (bound : count ≤ path.length) :
    ∃ around, session.lookup? (path.upTo count) = some around := by
  obtain ⟨parallel, found, rfl⟩ := rest.sane.lookup?_eq_some cached
  by_cases whole : count = parallel.path.length
  · rw [whole, TypePath.upTo_length]
    exact ⟨id, cached⟩
  · obtain ⟨around, known, _⟩ := rest.orderly.enclosed_upTo rest.sane found
      (parallel.path.length - count - 1) count positive (by omega)
    exact ⟨around, known⟩

end AtRest

namespace Blocked

theorem lookup?_eq_none (blocked : session.Blocked scene path) (rest : session.AtRest scene) :
    session.lookup? path = none := by
  by_contra known
  obtain ⟨id, cached⟩ := Option.ne_none_iff_exists'.mp known
  cases blocked with
  | root absent _ =>
    obtain ⟨around, front⟩ := rest.lookup?_upTo cached (Nat.le_refl 1) path.length_pos
    rw [absent] at front
    contradiction
  | below outer name more document names _ _ absent _ =>
    have length : outer.length + 1 ≤ path.length := by
      simp only [TypePath.length, names, List.length_append, List.length_cons]
      omega
    obtain ⟨around, again⟩ := rest.lookup?_upTo cached (by omega) length
    rw [TypePath.upTo_eq_child document names, absent] at again
    contradiction

theorem cutCycles (blocked : session.Blocked scene path) (sane : session.Sane scene.graph) :
    (session.cutCycles scene).Blocked scene path := by
  cases blocked with
  | root absent unsound =>
    refine .root ?_ ?_
    · rwa [lookup?_cutCycles sane]
    · rwa [soundNode?_congr (hasNode_cutCycles session scene)]
  | below outer name more document names around cached absent unreached =>
    refine .below outer name more document names around ?_ ?_ fun reaches => unreached reaches.of_cutCycles
    · rwa [lookup?_cutCycles sane]
    · rwa [lookup?_cutCycles sane]

theorem advance (blocked : session.Blocked scene path) (rest : session.AtRest scene)
    (advances : Advances scene none session next) : next.Blocked scene path := by
  cases blocked with
  | root absent unsound =>
    have still : next.soundNode? scene (path.upTo 1) = none := by rwa [soundNode?_congr advances.nodes]
    refine .root ?_ still
    cases known : next.lookup? (path.upTo 1) with
    | none => rfl
    | some id =>
      -- It would be the parallel of a root without a sound node.
      obtain ⟨parallel, found, same⟩ := advances.sane.lookup?_eq_some known
      have single : (path.upTo 1).container? = none := by
        simp [TypePath.container?, TypePath.isRoot, TypePath.length_upTo (Nat.le_refl 1) path.length_pos]
      have explicit := advances.orderly.roots id parallel found (same ▸ single)
      have node := advances.orderly.kinds id parallel found
      rw [same, still, Option.map_eq_none_iff] at node
      simp [Parallel.isExplicit, node] at explicit
  | below outer name more document names around cached absent unreached =>
    obtain ⟨parallel, found, same⟩ := rest.sane.lookup?_eq_some cached
    have unreached : ¬next.Reaches scene name around := by
      rwa [(advances.steady rest.sane).reaches_iff (rest.settled.deep rest.sane found)]
    obtain ⟨now, present, path, _⟩ := advances.grows.keeps around parallel found
    have there : now.path = outer := path.trans same
    refine .below outer name more document names around (advances.lookup? rest.sane cached) ?_ unreached
    rw [← there]
    exact advances.lookup?_child rest.sane present unreached (there ▸ absent)

end Blocked

/-- The session has this answer to a path. -/
def Answers (scene : Scene) (session : Session) (path : TypePath) : Option ParallelId → Prop
  | some id => session.lookup? path = some id
  | none => session.Blocked scene path

theorem Answers.unique {answer other : Option ParallelId} (answers : session.Answers scene path answer)
    (rest : session.AtRest scene) (again : session.Answers scene path other) : answer = other := by
  cases answer with
  | none =>
    cases other with
    | none => rfl
    | some id =>
      have absent := Blocked.lookup?_eq_none answers rest
      exact absurd (absent.symm.trans again) (by simp)
  | some id =>
    cases other with
    | none =>
      have absent := Blocked.lookup?_eq_none again rest
      exact absurd (absent.symm.trans answers) (by simp)
    | some other => exact answers.symm.trans again

/-- What is left of a session after it was drilled. -/
structure Continues (scene : Scene) (session next : Session) : Prop where
  rest : next.AtRest scene
  prepared : next.prepared = session.prepared
  nodes : ∀ node, next.cruft.hasNode node = session.cruft.hasNode node
  keeps : ∀ path answer, session.Answers scene path answer → next.Answers scene path answer

theorem AtRest.continues (rest : session.AtRest scene) (advances : Advances scene none session next) :
    Continues scene session (next.cutCycles scene) where
  rest := (rest.advance advances).cutCycles
  prepared := (prepared_cutCycles next scene).trans advances.prepared
  nodes node := (hasNode_cutCycles next scene node).trans (advances.nodes node)
  keeps path answer answers := by
    cases answer with
    | none => exact (Blocked.advance answers rest advances).cutCycles advances.sane
    | some id => exact (lookup?_cutCycles advances.sane path).trans (advances.lookup? rest.sane answers)

theorem AtRest.drill_ensures (coherent : scene.graph.Coherent) (rest : session.AtRest scene) (path : TypePath) :
    Ensures (session.drill scene path) fun result =>
      Continues scene session result.2 ∧ result.2.Answers scene path result.1 := by
  unfold drill
  refine (rest.drillWithin_ensures coherent (drillBound scene) path).bind fun result settles => .pure ?_
  obtain ⟨outcome, next⟩ := result
  obtain ⟨advances, came⟩ := settles
  refine ⟨rest.continues advances, ?_⟩
  rcases came with ⟨id, rfl, cached⟩ | ⟨rfl, blocked⟩
  · exact (lookup?_cutCycles advances.sane path).trans cached
  · exact Blocked.cutCycles blocked advances.sane

end OutlineTypes.Session
