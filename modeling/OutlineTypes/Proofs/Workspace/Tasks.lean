import OutlineTypes.Proofs.Resolution.Pruning
import OutlineTypes.Proofs.Resolution.Selection
import OutlineTypes.Proofs.Workspace.Rest

/-! The work of the drills of a workspace. However deep in a drill of the current session a layer is gone down or an
edge is resolved, it is done as it should be. -/
namespace OutlineTypes

namespace Session

variable {scene : Scene} {session last : Session} {path : TypePath} {bound : Nat} {id : ParallelId} {edge : Edge}
  {contract : Option Contract}

/-- The first edge that a drill resolves for the parallel that it goes down to first. -/
def firstEdge (scene : Scene) (bound : Nat) (path : TypePath) (session : Session) :
    Option (ParallelId × Option Contract × Session × Edge) := do
  guard (session.lookup? path = none ∧ path ∉ session.inFlight)
  let (length, start) ← (session.enter path).longestCached? path
  let name ← (path.names.drop length).head?
  let (child, next) ← ((session.enter path).descend scene start name).toOption
  let child ← child
  let parallel ← next.parallel? child
  guard (parallel.raked = false)
  let last ← (parallel.edges.toList.foldlM
    (fun session edge => rakeWithin (drillWithin scene bound) scene next.size edge session)
    (next.markRaked child)).toOption
  let raked ← last.parallel? child
  let resolved ← raked.explicit
  let node ← scene.graph.node? resolved.node
  let contract ← (last.contractOf scene child raked).toOption
  let edge ← (scene.graph.outbounds node.id).head?
  return (child, contract, { last with raking := child :: last.raking }, edge)

/-- The drill comes to that edge when it answers the parallel. -/
theorem answer_of_firstEdge (found : firstEdge scene bound path session = some (id, contract, last, edge)) :
    Task.Within scene (.drill (bound + 1) path session) (.answer bound id { last with raking := last.raking.drop 1 }) ∧
      Task.Starts scene (.answer bound id { last with raking := last.raking.drop 1 })
        (.edge bound id contract last edge) := by
  simp only [firstEdge, Option.bind_eq_bind, Option.bind_eq_some_iff, Option.guard_eq_some', toOption_eq_some_iff,
    List.head?_eq_some_iff, Option.pure_def, Option.some.injEq, Prod.mk.injEq] at found
  obtain ⟨_, ⟨absent, free⟩, ⟨length, start⟩, cached, name, ⟨rest, names⟩, ⟨_, next⟩, descended, child, rfl, parallel,
    there, _, unraked, last, raked, again, present, resolved, explicit, node, stands, contract, demanded, edge,
    ⟨back, split⟩, rfl, rfl, rfl, rfl⟩ := found
  refine ⟨.head (.resume absent free cached) ?_, ?_⟩
  · rw [names]
    exact .head (.rakeChild descended) (.single (.answer there unraked raked))
  · exact .edge present explicit stands demanded (split.trans (List.nil_append _).symm) rfl

theorem within_of_firstEdge (found : firstEdge scene bound path session = some (id, contract, last, edge)) :
    Task.Within scene (.drill (bound + 1) path session) (.edge bound id contract last edge) := by
  obtain ⟨within_, starts⟩ := answer_of_firstEdge found
  exact within_.tail starts

end Session

namespace Workspace

open Session (Task)

variable {workspace : Workspace} {path : TypePath} {task : Task}

/-- Whatever a drill of the current session begins, it begins as that needs it, and brings to an end. -/
theorem Synchronised.task_within (synchronised : workspace.Synchronised) (rested : workspace.Rested)
    (within_ : Task.Within workspace.scene
      (.drill (Session.drillBound workspace.scene) path workspace.session) task) :
    task.Ready workspace.scene ∧ task.Returns workspace.scene := by
  have coherent : workspace.scene.graph.Coherent := synchronised.settled.toCoherent
  obtain ⟨ready, _⟩ := synchronised.ready_session
  obtain ⟨_, rest⟩ := rested.atRest_session
  obtain ⟨result, _, _, done⟩ := ready.sane.drillWithin_succeeds coherent ready.idle path
  exact ⟨within_.ready coherent (rest.ready _ path), within_.returns ⟨result, done⟩⟩

/-- After any history, every descent in the work of any drill ends, and prunes exactly what leads to no sound node
of its name. -/
theorem history_prunes_exactly (options : Options) (requests : List Request) :
    ∃ workspace, (empty options).serveAll requests = .ok workspace ∧ ∀ path start name session,
      Task.Within workspace.scene (.drill (Session.drillBound workspace.scene) path workspace.session)
          (.descent start name session) →
        ∃ answer next, session.descend workspace.scene start name = .ok (answer, next) ∧
          Session.Prunes workspace.scene session start name answer next := by
  obtain ⟨workspace, reached, synchronised, rested⟩ := history_rested options requests
  refine ⟨workspace, reached, fun path start name session within_ => ?_⟩
  obtain ⟨⟨sane, deep⟩, _⟩ := synchronised.task_within rested within_
  obtain ⟨parallel, found, _⟩ := sane.settled start deep.settled
  obtain ⟨⟨answer, next⟩, descended, prunes⟩ := sane.descend_prunes ⟨parallel, found, rfl⟩ name
  exact ⟨answer, next, descended, prunes⟩

/-- A descent that finds something for a type gives nothing to its base, where nothing is declared. -/
theorem undeclared_child_pruned : ∃ workspace session start child next,
    (empty ⟨4, true⟩).serveAll [.add "Class\nSubClass : Class\n\tChild",
        .resolve ⟨⟨0⟩, ["SubClass"], by decide⟩] = .ok workspace ∧
      Task.Within workspace.scene (.drill (Session.drillBound workspace.scene)
        ⟨⟨0⟩, ["SubClass", "Child"], by decide⟩ workspace.session) (.descent start "Child" session) ∧
      session.descend workspace.scene start "Child" = .ok (some child, next) ∧
      Session.Prunes workspace.scene session start "Child" (some child) next ∧
      (session.lookup? ⟨⟨0⟩, ["Class"], by decide⟩).any (· ∈ session.basesOf start) ∧
      next.lookup? ⟨⟨0⟩, ["Class", "Child"], by decide⟩ = none := by
  obtain ⟨workspace, reached, prunes⟩ := history_prunes_exactly ⟨4, true⟩
    [.add "Class\nSubClass : Class\n\tChild", .resolve ⟨⟨0⟩, ["SubClass"], by decide⟩]
  let path : TypePath := ⟨⟨0⟩, ["SubClass", "Child"], by decide⟩
  have evaluated : ((empty ⟨4, true⟩).serveAll [.add "Class\nSubClass : Class\n\tChild",
      .resolve ⟨⟨0⟩, ["SubClass"], by decide⟩]).toOption.bind (fun workspace => do
        let session := workspace.session.enter path
        let result ← (session.descend workspace.scene ⟨0⟩ "Child").toOption
        return (decide (workspace.session.lookup? path = none ∧ path ∉ workspace.session.inFlight),
          session.longestCached? path, (session.lookup? ⟨⟨0⟩, ["Class"], by decide⟩).any (· ∈ session.basesOf ⟨0⟩),
          result.1, result.2.lookup? ⟨⟨0⟩, ["Class", "Child"], by decide⟩)) =
      some (true, some (1, ⟨0⟩), true, some ⟨2⟩, none) := by
    decide +kernel
  simp only [Option.bind_eq_bind, Option.bind_eq_some_iff, Option.pure_def, Option.some.injEq, Prod.exists,
    Prod.mk.injEq, decide_eq_true_eq, toOption_eq_some_iff] at evaluated
  obtain ⟨again, same, answer, next, descended, ⟨absent, free⟩, cached, base, rfl, childless⟩ := evaluated
  cases reached.symm.trans same
  have within_ : Task.Within workspace.scene (.drill (Session.drillBound workspace.scene) path workspace.session)
      (.descent ⟨0⟩ "Child" (workspace.session.enter path)) :=
    .head (.resume absent free cached) (.single .descend)
  obtain ⟨_, _, once, pruned⟩ := prunes _ _ _ _ within_
  cases descended.symm.trans once
  exact ⟨workspace, _, _, _, next, reached, within_, descended, pruned, base, childless⟩

/-- After any history with contracts checked, every sound edge that the work of any drill resolves for a parallel
that overrides something gets the base that is selected among its candidates, where there are several. An edge that
is cruft is passed over. -/
theorem history_selects_bases (tabSize : Nat) (requests : List Request) :
    ∃ workspace, (empty ⟨tabSize, true⟩).serveAll requests = .ok workspace ∧
      ∀ path bound id contract session edge,
        Task.Within workspace.scene (.drill (Session.drillBound workspace.scene) path workspace.session)
            (.edge bound id contract session edge) →
          ∀ parallel, session.parallel? id = some parallel → parallel.isApex = false →
            (session.cruft.hasEdge edge.id = true →
              Session.rakeEdge (Session.drillWithin workspace.scene bound) workspace.scene id (contract, session)
                edge = .ok (contract, session)) ∧
            (session.cruft.hasEdge edge.id = false → 2 ≤ (session.candidatesOf edge).length →
              ∃ weighed trials chosen base next, contract = some weighed ∧
                Session.Selects (Session.drillWithin workspace.scene bound) workspace.scene weighed session
                  (session.candidatesOf edge) trials chosen base next ∧
                Session.rakeEdge (Session.drillWithin workspace.scene bound) workspace.scene id (contract, session)
                  edge = .ok (some (weighed.satisfy (chosen.session.lineage base)),
                    next.modify id (Parallel.setBase edge.id base))) := by
  obtain ⟨workspace, reached, served, synchronised, rested⟩ :=
    (history_succeeds ⟨tabSize, true⟩ requests).and_ensures (history_rested ⟨tabSize, true⟩ requests).ensures
  have checks : workspace.scene.checksContracts = true := by
    rw [scene, served.options]
    rfl
  refine ⟨workspace, reached, fun path bound id contract session edge within_ parallel found overrides => ?_⟩
  obtain ⟨⟨_, node, facing⟩, result, done⟩ := synchronised.task_within rested within_
  refine ⟨fun cruft => if_pos cruft, fun sound several => ?_⟩
  cases found.symm.trans facing.found
  obtain ⟨weighed, rfl⟩ := Option.isSome_iff_exists.mp (facing.checked checks overrides)
  obtain ⟨trials, chosen, base, next, selects, rfl⟩ :=
    facing.rakeEdge_selects synchronised.settled.toCoherent sound several done
  exact ⟨weighed, trials, chosen, base, next, rfl, selects, done⟩

/-- `Dog/Sound` must make a noise as `Animal/Sound` does, and `Dog/Noise` is none. -/
def unrelated : String := "Animal\n\tSound : Noise\nDog : Animal\n\tNoise\n\tSound : Noise\nNoise"

/-- The nearest candidate is skipped where it does not help. -/
theorem unrelated_candidate_skipped : ∃ workspace bound id session edge weighed trials chosen base next noise,
    (empty ⟨4, true⟩).serveAll [.add unrelated, .resolve ⟨⟨0⟩, ["Dog"], by decide⟩] = .ok workspace ∧
      Task.Within workspace.scene (.drill (Session.drillBound workspace.scene)
        ⟨⟨0⟩, ["Dog", "Sound"], by decide⟩ workspace.session) (.edge bound id (some weighed) session edge) ∧
      session.candidatesOf edge = [⟨⟨4⟩, 0⟩, ⟨⟨2⟩, 1⟩] ∧
      Session.Selects (Session.drillWithin workspace.scene bound) workspace.scene weighed session
        (session.candidatesOf edge) trials chosen base next ∧
      (next.modify id (Parallel.setBase edge.id base)).lookup? ⟨⟨0⟩, ["Noise"], by decide⟩ = some noise ∧
      (next.modify id (Parallel.setBase edge.id base)).basesOf id = [noise] := by
  obtain ⟨workspace, reached, selects⟩ := history_selects_bases 4
    [.add unrelated, .resolve ⟨⟨0⟩, ["Dog"], by decide⟩]
  have evaluated : ((empty ⟨4, true⟩).serveAll
      [.add unrelated, .resolve ⟨⟨0⟩, ["Dog"], by decide⟩]).toOption.bind (fun workspace => do
        let scene := workspace.scene
        let bound := scene.graph.nodes.length
        let (id, contract, session, edge) ←
          Session.firstEdge scene bound ⟨⟨0⟩, ["Dog", "Sound"], by decide⟩ workspace.session
        let parallel ← session.parallel? id
        let raked ← (Session.rakeEdge (Session.drillWithin scene bound) scene id (contract, session) edge).toOption
        return (parallel.isApex, session.cruft.hasEdge edge.id, session.candidatesOf edge, raked.2.basesOf id,
          raked.2.lookup? ⟨⟨0⟩, ["Noise"], by decide⟩)) =
      some (false, false, [⟨⟨4⟩, 0⟩, ⟨⟨2⟩, 1⟩], [⟨4⟩], some ⟨4⟩) := by
    decide +kernel
  simp only [Option.bind_eq_bind, Option.bind_eq_some_iff, Option.pure_def, Option.some.injEq, Prod.exists,
    Prod.mk.injEq, toOption_eq_some_iff] at evaluated
  obtain ⟨again, same, id, contract, session, edge, first, parallel, found, after, last, raked, overrides, sound,
    candidates, bases, noise⟩ := evaluated
  cases reached.symm.trans same
  have within_ := Session.within_of_firstEdge first
  obtain ⟨weighed, trials, chosen, base, next, rfl, selected, done⟩ :=
    (selects _ _ id contract session edge within_ parallel found overrides).2 sound (by simp [candidates])
  cases raked.symm.trans done
  exact ⟨workspace, _, id, session, edge, weighed, trials, chosen, base, next, _, reached, within_, candidates,
    selected, noise, bases⟩

/-- An edge of `A/k` has candidates in two scopes, but a blank stands before the tab of its line. -/
def misindented : String := "x\nW\n\tk\nA : W\n \tk : x\n\tx\n\tk"

/-- An edge that is cruft gets no base, however many candidates it has. -/
theorem cruft_edge_gets_no_base : ¬∀ tabSize requests workspace,
    (empty ⟨tabSize, true⟩).serveAll requests = .ok workspace → ∀ path bound id contract session edge,
      Task.Within workspace.scene (.drill (Session.drillBound workspace.scene) path workspace.session)
          (.edge bound id contract session edge) →
        ∀ parallel, session.parallel? id = some parallel → parallel.isExplicit → parallel.isApex = false →
          2 ≤ (session.candidatesOf edge).length → ∃ after next base,
            Session.rakeEdge (Session.drillWithin workspace.scene bound) workspace.scene id (contract, session) edge =
              .ok (after, next) ∧ base ∈ next.basesOf id := by
  intro answers
  let requests : List Request := [.add misindented, .resolve ⟨⟨0⟩, ["A"], by decide⟩]
  have evaluated : (((empty ⟨4, true⟩).serveAll requests).toOption.bind fun workspace => do
      let scene := workspace.scene
      let bound := scene.graph.nodes.length
      let (id, contract, session, edge) ←
        Session.firstEdge scene bound ⟨⟨0⟩, ["A", "k"], by decide⟩ workspace.session
      let parallel ← session.parallel? id
      let raked ← (Session.rakeEdge (Session.drillWithin scene bound) scene id (contract, session) edge).toOption
      return (parallel.isExplicit, parallel.isApex, (session.candidatesOf edge).length, raked.2.basesOf id)) =
        some (true, false, 2, []) := by
    decide +kernel
  simp only [Option.bind_eq_bind, Option.bind_eq_some_iff, Option.pure_def, Option.some.injEq, Prod.exists,
    Prod.mk.injEq, toOption_eq_some_iff] at evaluated
  obtain ⟨workspace, reached, id, contract, session, edge, first, parallel, found, after, next, raked, explicit,
    overrides, several, baseless⟩ := evaluated
  obtain ⟨again, last, base, done, among⟩ := answers 4 requests workspace reached _ _ id contract session edge
    (Session.within_of_firstEdge first) parallel found explicit overrides (Nat.le_of_eq several.symm)
  cases raked.symm.trans done
  rw [baseless] at among
  exact List.not_mem_nil among

end Workspace
end OutlineTypes
