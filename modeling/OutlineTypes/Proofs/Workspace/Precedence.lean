import OutlineTypes.Proofs.Resolution.Precedence
import OutlineTypes.Proofs.Workspace.Growth
import OutlineTypes.Proofs.Workspace.Tasks

/-! What the drills of a workspace build on. Layers are laid below what is settled only, and unless bases led in a
cycle, a parallel is answered when all that it overrides has been. -/
namespace OutlineTypes

namespace Session

variable {session : Session}

/-- Bases that always have higher numbers lead in no cycle. -/
theorem acyclic_of_ascending
    (ascending : ∀ index < session.size, ∀ base ∈ session.basesOf ⟨index⟩, index < base.index) : session.Acyclic := by
  have onward {id base : ParallelId} (inherits : session.Inherits id base) : id.index < base.index := by
    obtain ⟨parallel, found, _⟩ := List.mem_flatMap.mp inherits
    exact ascending id.index (lt_of_parallel? (Option.mem_toList.mp found)) base inherits
  intro id cycle
  have further (other : ParallelId) (path : Relation.TransGen session.Inherits id other) : id.index < other.index := by
    induction path with
    | single inherits => exact onward inherits
    | tail _ inherits ih => exact ih.trans (onward inherits)
  exact Nat.lt_irrefl _ (further id cycle)

end Session

namespace Workspace

open Session (Task)

/-- After any history, every descent in the work of any drill goes down from a parallel that is settled with all below
it. As long as no bases have led in a cycle, all that a parallel overrides, and what that overrides, and so on, has
settled when its own edges are to be answered. -/
theorem history_builds_on_settled (options : Options) (requests : List Request) :
    ∃ workspace, (empty options).serveAll requests = .ok workspace ∧ ∀ path,
      (∀ start name session,
        Task.Within workspace.scene (.drill (Session.drillBound workspace.scene) path workspace.session)
            (.descent start name session) →
          ∀ id, session.Below start id → id ∈ session.settled) ∧
      ∀ bound id session,
        Task.Within workspace.scene (.drill (Session.drillBound workspace.scene) path workspace.session)
            (.answer bound id session) → session.Uncycled →
          ∀ other, Relation.TransGen session.Shadows id other → other ∈ session.settled := by
  obtain ⟨workspace, reached, synchronised, rested, grown⟩ := history_grown options requests
  refine ⟨workspace, reached, fun path => ⟨fun start name session within_ => ?_, ?_⟩⟩
  · obtain ⟨⟨_, deep⟩, _⟩ := synchronised.task_within rested within_
    exact deep
  · intro bound id session within_ uncycled other shadows
    have coherent : workspace.scene.graph.Coherent := synchronised.settled.toCoherent
    obtain ⟨start, nothing, outgrows⟩ := grown
    have mirrored (uncut : workspace.session.Uncut) : workspace.session.AllMirrored workspace.scene :=
      fun id parallel found => outgrows.mirrored uncut id parallel found (Session.parallel?_eq_none nothing id)
    have inward := within_.inward coherent (outgrows.rest.ready _ path) (outgrows.rest.settled.inward mirrored path)
    obtain ⟨ready, _⟩ := synchronised.task_within rested within_
    exact Session.Task.settled_of_answer coherent uncycled ready inward shadows

/-- While `B/A` is answered, `B/C` is drilled, so the layer of `C` is laid below `B` and its base `X`. -/
def answeredInside : String := "B : X\n\tA : C\n\tC\nX\n\tA\n\tC"

/-- `X/A` is settled before `B/A` is answered, and `X` before the layer below it is laid. -/
theorem overridden_settled_first : ∃ workspace id overridden session start base inner bound,
    (empty ⟨4, true⟩).serveAll [.add answeredInside, .resolve ⟨⟨0⟩, ["B"], by decide⟩] = .ok workspace ∧
      Task.Within workspace.scene (.drill (Session.drillBound workspace.scene) ⟨⟨0⟩, ["B", "A"], by decide⟩
        workspace.session) (.answer bound id session) ∧
      session.Uncycled ∧ session.Shadows id overridden ∧ overridden ∈ session.settled ∧
      Task.Within workspace.scene (.drill (Session.drillBound workspace.scene) ⟨⟨0⟩, ["B", "A"], by decide⟩
        workspace.session) (.descent start "C" inner) ∧
      id ∈ inner.raking ∧ inner.Inherits start base ∧ base ∈ inner.settled := by
  let path : TypePath := ⟨⟨0⟩, ["B", "A"], by decide⟩
  let requests : List Request := [.add answeredInside, .resolve ⟨⟨0⟩, ["B"], by decide⟩]
  obtain ⟨workspace, reached, builds⟩ := history_builds_on_settled ⟨4, true⟩ requests
  have evaluated : ((empty ⟨4, true⟩).serveAll requests).toOption.bind (fun workspace => do
      let scene := workspace.scene
      let first ← Session.firstEdge scene 6 path workspace.session
      let session := first.2.2.1
      let candidate ← (session.candidatesOf first.2.2.2).head?
      let node ← scene.graph.node? candidate.node
      let longest ← (session.enter node.path).longestCached? node.path
      return decide (scene.graph.nodes.length = 6 ∧ session.Uncut ∧ (∀ index < session.size,
        ∀ base ∈ session.basesOf ⟨index⟩, index < base.index) ∧ ⟨3⟩ ∈ session.edgesOf first.1 ∧
        first.1 ∈ session.raking ∧ session.cruft.hasEdge first.2.2.2.id = false ∧ session.lookup? node.path = none ∧
        node.path ∉ session.inFlight ∧ node.path.names.drop longest.1 = ["C"] ∧
        ⟨1⟩ ∈ session.basesOf longest.2)) = some true := by
    decide +kernel
  simp only [Option.bind_eq_bind, Option.bind_eq_some_iff, Option.pure_def, Option.some.injEq, Prod.exists,
    decide_eq_true_eq, List.head?_eq_some_iff, toOption_eq_some_iff] at evaluated
  obtain ⟨again, same, id, contract, session, edge, first, candidate, ⟨back, split⟩, node, stands, length, start,
    cached, nodes, uncut, ascending, shadows, raking, sound, absent, free, names, inherits⟩ := evaluated
  cases reached.symm.trans same
  have bounded : Session.drillBound workspace.scene = 6 + 1 := by rw [Session.drillBound, nodes]
  obtain ⟨answering, edging⟩ := Session.answer_of_firstEdge first
  have front : session.candidatesOf edge = List.map Session.Trial.candidate [] ++ candidate :: back := split
  have drilling : Task.Starts workspace.scene (.edge 6 id contract session edge) (.drill 6 node.path session) :=
    .candidate sound front (.nil session) (by simp) stands
  have following : Task.Starts workspace.scene (.drill (5 + 1) node.path session)
      (.follow 5 (node.path.names.drop length) start (session.enter node.path)) := .resume absent free cached
  rw [names] at following
  have descending := (((answering.tail edging).tail drilling).tail following).tail .descend
  rw [← bounded] at answering descending
  obtain ⟨descents, answers⟩ := builds path
  have uncycled : { session with raking := session.raking.drop 1 }.Uncycled :=
    ⟨uncut, Session.acyclic_of_ascending ascending⟩
  have below : (session.enter node.path).Below start ⟨1⟩ := .single (Session.mem_branchesOf_iff.mpr (.inr inherits))
  exact ⟨workspace, id, ⟨3⟩, _, start, ⟨1⟩, _, _, reached, answering, uncycled, shadows,
    answers _ _ _ answering uncycled _ (.single shadows), descending, raking, inherits,
    descents _ _ _ descending _ below⟩

end Workspace
end OutlineTypes
