import OutlineTypes.Proofs.Resolution.Candidates
import OutlineTypes.Proofs.Workspace.Tasks

/-! The candidates that the drills of a workspace try. None is without a parallel, and where one is under way, it is in
the container of the parallel whose edges are resolved. -/
namespace OutlineTypes.Workspace

open Session (Task)

/-- After any history, no drill ends in a circle, and however deep in its work rakings are under way, the inner ones are
of paths that are no longer. Every candidate that the search for a base comes to resolves to its parallel, or else is of
the innermost scope and its parallel is being raked. -/
theorem history_finds_candidates (options : Options) (requests : List Request) :
    ∃ workspace, (empty options).serveAll requests = .ok workspace ∧ ∀ path,
      (∃ outcome last, Session.drillWithin workspace.scene (Session.drillBound workspace.scene) path
          workspace.session = .ok (outcome, last) ∧ outcome ≠ .circular) ∧
      (∀ task, Task.Within workspace.scene (.drill (Session.drillBound workspace.scene) path workspace.session) task →
        task.Tiered) ∧
      ∀ bound id contract session edge,
        Task.Within workspace.scene (.drill (Session.drillBound workspace.scene) path workspace.session)
            (.edge bound id contract session edge) →
          ∀ candidate next, Session.ComesTo workspace.scene bound contract session edge candidate next →
            ∃ result, next.drillCandidate (Session.drillWithin workspace.scene bound) workspace.scene candidate =
                .ok result ∧ Session.Found workspace.scene candidate next result := by
  obtain ⟨workspace, reached, synchronised, rested⟩ := history_rested options requests
  have coherent : workspace.scene.graph.Coherent := synchronised.settled.toCoherent
  obtain ⟨_, rest⟩ := rested.atRest_session
  refine ⟨workspace, reached, fun path => ⟨?_, fun task within_ => ?_, ?_⟩⟩
  · have within_ : Task.Within workspace.scene
        (.drill (Session.drillBound workspace.scene) path workspace.session) _ := .refl
    obtain ⟨_, result, done⟩ := synchronised.task_within rested within_
    obtain ⟨_, came⟩ := rest.drillWithin_ensures coherent _ path _ done
    refine ⟨_, _, done, fun circular => ?_⟩
    rcases came with ⟨id, resolved, _⟩ | ⟨unpopulated, _⟩
    · cases circular.symm.trans resolved
    · cases circular.symm.trans unpopulated
  · exact within_.tiered coherent (rest.ready _ path) rest.tiered
  · intro bound id contract session edge within_ candidate next comes
    obtain ⟨⟨parallel, node, facing⟩, _⟩ := synchronised.task_within rested within_
    obtain ⟨other, stands⟩ := facing.exists_node coherent comes.mem
    obtain ⟨_, result, done⟩ := synchronised.task_within rested (within_.tail (comes.starts stands))
    have drilled : next.drillCandidate (Session.drillWithin workspace.scene bound) workspace.scene candidate =
        .ok result := by
      rw [Session.drillCandidate, stands]
      exact done
    exact ⟨result, drilled, facing.finds coherent comes drilled⟩

/-- `T/R` inherits itself, and `T/P/Q` inherits `T/R`. -/
def inheritsItself : String := "T\n\tR : R\n\tP\n\t\tQ : R"

/-- Inside the raking of `T/P/Q` its only candidate is raked, whose own candidate is then in progress. -/
theorem own_candidate_circular : ∃ workspace bound id contract session edge candidate last other,
    (empty ⟨4, true⟩).serveAll [.add inheritsItself, .resolve ⟨⟨0⟩, ["T", "P"], by decide⟩] = .ok workspace ∧
      Task.Within workspace.scene (.drill (Session.drillBound workspace.scene) ⟨⟨0⟩, ["T", "P", "Q"], by decide⟩
        workspace.session) (.edge bound id contract session edge) ∧
      (Task.edge bound id contract session edge).Tiered ∧
      session.raking.filterMap (fun id => (session.parallel? id).map (·.path.length)) = [2, 3] ∧
      Session.ComesTo workspace.scene bound contract session edge candidate session ∧
      session.drillCandidate (Session.drillWithin workspace.scene bound) workspace.scene candidate =
        .ok (.circular, last) ∧
      candidate.longitude = 0 ∧ session.cached? workspace.scene candidate = some other ∧ other ∈ session.raking := by
  let path : TypePath := ⟨⟨0⟩, ["T", "P", "Q"], by decide⟩
  let requests : List Request := [.add inheritsItself, .resolve ⟨⟨0⟩, ["T", "P"], by decide⟩]
  obtain ⟨workspace, reached, finds⟩ := history_finds_candidates ⟨4, true⟩ requests
  have evaluated : ((empty ⟨4, true⟩).serveAll requests).toOption.bind (fun workspace => do
      let scene := workspace.scene
      let outer ← Session.firstEdge scene 4 path workspace.session
      let candidate ← (outer.2.2.1.candidatesOf outer.2.2.2).head?
      let node ← scene.graph.node? candidate.node
      let inner ← Session.firstEdge scene 3 node.path outer.2.2.1
      let session := inner.2.2.1
      let own ← (session.candidatesOf inner.2.2.2).head?
      let drilled ← (session.drillCandidate (Session.drillWithin scene 3) scene own).toOption
      return decide (scene.graph.nodes.length = 4 ∧ outer.2.2.1.cruft.hasEdge outer.2.2.2.id = false ∧
        session.cruft.hasEdge inner.2.2.2.id = false ∧ drilled.1 = .circular ∧
        session.raking.filterMap (fun id => (session.parallel? id).map (·.path.length)) = [2, 3])) = some true := by
    decide +kernel
  simp only [Option.bind_eq_bind, Option.bind_eq_some_iff, Option.pure_def, Option.some.injEq, Prod.exists,
    decide_eq_true_eq, List.head?_eq_some_iff, toOption_eq_some_iff] at evaluated
  obtain ⟨again, same, _, terms, first, asked, outer, candidate, ⟨back, split⟩, node, stands, id, contract, session, edge,
    inner, own, ⟨rest, alone⟩, outcome, last, drilled, nodes, sound, unmarked, circular, lengths⟩ := evaluated
  cases reached.symm.trans same
  have bounded : Session.drillBound workspace.scene = 4 + 1 := by rw [Session.drillBound, nodes]
  have comes : Session.ComesTo workspace.scene 4 terms first asked candidate first :=
    Session.comesTo_nearest sound split
  have within_ := ((Session.within_of_firstEdge outer).tail (comes.starts stands)).trans
    (Session.within_of_firstEdge inner)
  rw [← bounded] at within_
  have ownComes : Session.ComesTo workspace.scene 3 contract session edge own session :=
    Session.comesTo_nearest unmarked alone
  obtain ⟨_, tiered, found⟩ := finds path
  obtain ⟨result, done, came⟩ := found _ _ _ _ _ within_ _ _ ownComes
  cases drilled.symm.trans done
  subst circular
  rcases came with ⟨base, resolved, _⟩ | ⟨_, innermost, other, cached, raking⟩
  · cases resolved
  · exact ⟨workspace, 3, id, contract, session, edge, own, last, other, reached, within_, tiered _ within_, lengths,
      ownComes, drilled, innermost, cached, raking⟩

end OutlineTypes.Workspace
