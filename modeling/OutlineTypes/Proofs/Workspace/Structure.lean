import OutlineTypes.Proofs.Workspace.DrillOrder
import OutlineTypes.Proofs.Workspace.Growth

/-! The structure of the current session. What is declared is found where it stands, overriding leads from all
that is found to something declared of that name, and what a parallel overrides is what the branches of its
container have there. -/
namespace OutlineTypes

namespace Session

variable {scene : Scene} {origin session : Session} {path : TypePath}

/-- What the answer to a drill stands for, where `origin` knows what is cruft. -/
structure Represents (scene : Scene) (origin session : Session) (path : TypePath) (answer : Option ParallelId) :
    Prop where
  declared : origin.Declared scene path → ∃ id parallel resolved, answer = some id ∧
    session.parallel? id = some parallel ∧ parallel.explicit = some resolved ∧
      origin.soundNode? scene path = some resolved.node
  grounded : ∀ id, answer = some id → ∃ parallel, session.parallel? id = some parallel ∧ parallel.path = path ∧
    session.Grounded id path.tip

theorem Finds.represents {answer : Option ParallelId} (finds : Finds scene origin session path answer)
    (grounded : session.AllGrounded) : Represents scene origin session path answer where
  declared declared := by
    obtain ⟨id, rfl⟩ := Option.isSome_iff_exists.mp (finds.declared declared)
    obtain ⟨parallel, found, rfl, node⟩ := finds.stands id rfl
    have sound := declared (parallel.path.length - 1) (Nat.sub_one_lt_of_lt parallel.path.length_pos)
    rw [Nat.sub_add_cancel parallel.path.length_pos, TypePath.upTo_length, ← node, Option.isSome_map] at sound
    obtain ⟨resolved, explicit⟩ := Option.isSome_iff_exists.mp sound
    exact ⟨id, parallel, resolved, rfl, found, explicit, by rw [← node, explicit]; rfl⟩
  grounded id same := by
    obtain ⟨parallel, found, rfl, _⟩ := finds.stands id same
    exact ⟨parallel, found, rfl, grounded id parallel found⟩

end Session

namespace Workspace

/-- After any history, drilling what is declared finds it, and whatever a drill finds overrides something
declared of its name, unless it is declared itself. -/
theorem history_represents (options : Options) (requests : List Request) :
    ∃ workspace, (empty options).serveAll requests = .ok workspace ∧
      ∀ path, ∃ answer next, workspace.resolve path = .ok (answer, next) ∧
        Session.Represents workspace.scene workspace.session next.session path answer := by
  obtain ⟨workspace, reached, synchronised, rested, grown⟩ := history_grown options requests
  refine ⟨workspace, reached, fun path => ?_⟩
  obtain ⟨⟨answer, next⟩, resolved, _, resumes, answers⟩ :=
    (synchronised.resolve_succeeds path).and_ensures (synchronised.resolve_ensures rested path)
  obtain ⟨_, _, outgrows⟩ := grown.resume resumes
  have rest := resumes.rested.atRest_session.2
  rw [resumes.scene] at rest
  exact ⟨answer, next, resolved, (answers.finds rest resumes.nodes).represents outgrows.grounded⟩

/-- What is declared in a type is found, and so is what the type inherits. -/
theorem declared_and_inherited_represented : ∃ workspace id next inherited last parallel,
    (empty ⟨4, true⟩).serveAll [.add "A : B\nB\n\tX"] = .ok workspace ∧
      workspace.session.Declared workspace.scene ⟨⟨0⟩, ["B", "X"], by decide⟩ ∧
      workspace.resolve ⟨⟨0⟩, ["B", "X"], by decide⟩ = .ok (some id, next) ∧
      (next.session.parallel? id).any Parallel.isExplicit ∧
      workspace.resolve ⟨⟨0⟩, ["A", "X"], by decide⟩ = .ok (some inherited, last) ∧
      last.session.parallel? inherited = some parallel ∧ parallel.isExplicit = false ∧
      last.session.Grounded inherited "X" := by
  obtain ⟨workspace, reached, represents⟩ := history_represents ⟨4, true⟩ [.add "A : B\nB\n\tX"]
  obtain ⟨answer, next, resolved, finds⟩ := represents ⟨⟨0⟩, ["B", "X"], by decide⟩
  obtain ⟨again, last, final, stands⟩ := represents ⟨⟨0⟩, ["A", "X"], by decide⟩
  have evaluated : ((empty ⟨4, true⟩).serveAll [.add "A : B\nB\n\tX"]).bind (fun workspace =>
      (workspace.resolve ⟨⟨0⟩, ["A", "X"], by decide⟩).map fun result =>
        (decide (workspace.session.Declared workspace.scene ⟨⟨0⟩, ["B", "X"], by decide⟩), result.1,
          result.2.session.isExplicit ⟨2⟩)) = .ok (true, some ⟨2⟩, false) := by
    decide +kernel
  simp only [reached, final, Except.bind, Except.map, Except.ok.injEq, Prod.mk.injEq, decide_eq_true_eq]
    at evaluated
  obtain ⟨declared, rfl, implicit⟩ := evaluated
  obtain ⟨id, parallel, resolution, rfl, found, explicit, _⟩ := finds.declared declared
  obtain ⟨other, present, _, grounded⟩ := stands.grounded _ rfl
  refine ⟨workspace, id, next, _, last, other, reached, declared, resolved, ?_, final, present, ?_, grounded⟩
  · rw [found, Option.any_some, Parallel.isExplicit, explicit]
    rfl
  · simpa only [Session.isExplicit, present, Option.any_some] using implicit

/-- After any history in which no cycle was cut, a parallel overrides what the branches of its container have at
its name, all of which is there. -/
theorem history_mirrors_containers (options : Options) (requests : List Request) :
    ∃ workspace, (empty options).serveAll requests = .ok workspace ∧ (workspace.session.Uncut →
      ∀ id parallel outer, workspace.session.parallel? id = some parallel → parallel.container = some outer →
        workspace.session.MirrorsContainer workspace.scene outer parallel) := by
  obtain ⟨workspace, reached, _, _, start, nothing, outgrows⟩ := history_grown options requests
  refine ⟨workspace, reached, fun uncut id parallel outer found container => ?_⟩
  exact outgrows.mirrorsContainer nothing uncut found container

/-- What is inherited by a type mirrors it. -/
theorem inherited_mirrors_container : ∃ workspace parallel,
    (empty ⟨4, true⟩).serveAll [.add "A : B\nB\n\tX", .resolve ⟨⟨0⟩, ["A", "X"], by decide⟩] = .ok workspace ∧
      workspace.session.Uncut ∧ workspace.session.parallel? ⟨2⟩ = some parallel ∧
      parallel.container = some ⟨0⟩ ∧ parallel.edges.toList = [⟨3⟩] ∧
      workspace.session.MirrorsContainer workspace.scene ⟨0⟩ parallel := by
  obtain ⟨workspace, reached, mirrors⟩ :=
    history_mirrors_containers ⟨4, true⟩ [.add "A : B\nB\n\tX", .resolve ⟨⟨0⟩, ["A", "X"], by decide⟩]
  have evaluated : ((empty ⟨4, true⟩).serveAll
      [.add "A : B\nB\n\tX", .resolve ⟨⟨0⟩, ["A", "X"], by decide⟩]).map (fun workspace =>
        (decide workspace.session.Uncut, (workspace.session.parallel? ⟨2⟩).map fun parallel =>
          (parallel.container, parallel.edges.toList))) = .ok (true, some (some ⟨0⟩, [⟨3⟩])) := by
    decide +kernel
  simp only [reached, Except.map, Except.ok.injEq, Prod.mk.injEq, decide_eq_true_eq, Option.map_eq_some_iff]
    at evaluated
  obtain ⟨uncut, parallel, found, container, edges⟩ := evaluated
  exact ⟨workspace, parallel, reached, uncut, found, container, edges, mirrors uncut _ parallel _ found container⟩

end Workspace
end OutlineTypes
