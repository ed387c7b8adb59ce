import OutlineTypes.Proofs.Workspace.Rest

/-! The order of drills. What is declared is found whatever was drilled before, and so is the kind of what
stands at a path: it is explicit exactly if a sound node stands there. What a parallel overrides and which
bases it has may depend on the drills before. -/
namespace OutlineTypes

/-- What stands at a path, with paths in place of numbers. -/
structure Finding where
  isExplicit : Bool
  overridden : List TypePath
  /-- The path of the base of each annotated subject. -/
  bases : List (Name × TypePath)
deriving DecidableEq

namespace Finding

/-- The same kind, the same overridden paths and the same bases, in whatever order. -/
structure Agrees (finding other : Finding) : Prop where
  isExplicit : other.isExplicit = finding.isExplicit
  overridden : ∀ path, path ∈ other.overridden ↔ path ∈ finding.overridden
  bases : ∀ entry, entry ∈ other.bases ↔ entry ∈ finding.bases

end Finding

namespace Session

def finding? (session : Session) (scene : Scene) (id : ParallelId) : Option Finding :=
  (session.parallel? id).map fun parallel => {
    isExplicit := parallel.isExplicit
    overridden := parallel.edges.toList.filterMap fun other => (session.parallel? other).map Parallel.path
    bases := parallel.baseEntries.filterMap fun (edge, base) => do
      return ((← scene.graph.edge? edge).subject, (← session.parallel? base).path) }

variable {scene : Scene} {session : Session} {path : TypePath}

/-- The path and all that contains it is declared, and nothing of it is cruft. -/
def Declared (scene : Scene) (session : Session) (path : TypePath) : Prop :=
  ∀ count < path.length, (session.soundNode? scene (path.upTo (count + 1))).isSome

instance (scene : Scene) (session : Session) (path : TypePath) : Decidable (session.Declared scene path) :=
  inferInstanceAs (Decidable (∀ count < path.length, (session.soundNode? scene (path.upTo (count + 1))).isSome))

/-- What is declared is not blocked, since its containers have it right below them. -/
theorem Declared.not_blocked (declared : session.Declared scene path) (sane : session.Sane scene.graph) :
    ¬session.Blocked scene path := by
  intro blocked
  cases blocked with
  | root _ unsound =>
    have sound := declared 0 path.length_pos
    rw [unsound] at sound
    contradiction
  | below outer name more document names around cached _ unreached =>
    obtain ⟨parallel, found, same⟩ := sane.lookup?_eq_some cached
    have sound := declared outer.length (by
      simp only [TypePath.length, names, List.length_append, List.length_cons]
      omega)
    rw [TypePath.upTo_eq_child document names] at sound
    refine unreached ⟨around, .refl, ?_⟩
    simp only [hasChildNode, found, Option.any_some, same]
    exact sound

/-- What of an answer depends on the graph and the statements alone, as they are known in `origin`. -/
structure Finds (scene : Scene) (origin session : Session) (path : TypePath) (answer : Option ParallelId) :
    Prop where
  declared : origin.Declared scene path → answer.isSome
  stands : ∀ id, answer = some id → ∃ parallel, session.parallel? id = some parallel ∧
    parallel.path = path ∧ parallel.explicit.map Resolved.node = origin.soundNode? scene path

theorem Answers.finds {origin : Session} {answer : Option ParallelId}
    (answers : session.Answers scene path answer) (rest : session.AtRest scene)
    (nodes : ∀ node, session.cruft.hasNode node = origin.cruft.hasNode node) :
    Finds scene origin session path answer where
  declared declared := by
    cases answer with
    | none =>
      have here : session.Declared scene path := fun count bound => by
        rw [soundNode?_congr nodes]
        exact declared count bound
      exact absurd answers (here.not_blocked rest.sane)
    | some id => rfl
  stands id same := by
    subst same
    obtain ⟨parallel, found, rfl⟩ := rest.sane.lookup?_eq_some answers
    exact ⟨parallel, found, rfl, (rest.orderly.kinds id parallel found).trans (soundNode?_congr nodes _ _)⟩

end Session

namespace Workspace

/-- Whatever is drilled before, what is declared is found, and the kind of what is found is the same. -/
theorem history_finds_declared (options : Options) (requests : List Request) :
    ∃ workspace, (empty options).serveAll requests = .ok workspace ∧
      ∀ further : List Request, (∀ request ∈ further, request.asks) → ∀ path, ∃ last answer next,
        workspace.serveAll further = .ok last ∧ last.resolve path = .ok (answer, next) ∧
          Session.Finds workspace.scene workspace.session next.session path answer := by
  obtain ⟨workspace, reached, synchronised, rested⟩ := history_rested options requests
  refine ⟨workspace, reached, fun further asks path => ?_⟩
  obtain ⟨last, onward, going, resumed⟩ := synchronised.serveAll_resumes rested asks
  obtain ⟨⟨answer, next⟩, final, _, ends, answers⟩ :=
    (going.resolve_succeeds path).and_ensures (going.resolve_ensures resumed.rested path)
  refine ⟨last, answer, next, onward, final, ?_⟩
  have rest := ends.rested.atRest_session.2
  rw [ends.scene, resumed.scene] at rest
  rw [resumed.scene] at answers
  exact answers.finds rest (resumed.trans ends).nodes

theorem declared_found_after_drill : ∃ workspace last id next,
    (empty ⟨4, true⟩).serveAll [.add "A : B\n\tX\nB"] = .ok workspace ∧
      (∀ request ∈ [Request.drill ⟨0⟩ "B"], request.asks) ∧
      workspace.session.Declared workspace.scene ⟨⟨0⟩, ["A", "X"], by decide⟩ ∧
      workspace.serveAll [.drill ⟨0⟩ "B"] = .ok last ∧
      last.resolve ⟨⟨0⟩, ["A", "X"], by decide⟩ = .ok (some id, next) := by
  obtain ⟨workspace, reached, finds⟩ := history_finds_declared ⟨4, true⟩ [.add "A : B\n\tX\nB"]
  have stands : ((empty ⟨4, true⟩).serveAll [.add "A : B\n\tX\nB"]).map (fun workspace =>
      decide (workspace.session.Declared workspace.scene ⟨⟨0⟩, ["A", "X"], by decide⟩)) = .ok true := by
    decide +kernel
  rw [reached] at stands
  have declared := of_decide_eq_true (Except.ok.inj stands)
  obtain ⟨last, answer, next, onward, final, found⟩ :=
    finds [.drill ⟨0⟩ "B"] (by decide) ⟨⟨0⟩, ["A", "X"], by decide⟩
  obtain ⟨id, rfl⟩ := Option.isSome_iff_exists.mp (found.declared declared)
  exact ⟨workspace, last, id, next, reached, by decide, declared, onward, final⟩

/-- What comes of the drill of a path after other drills. -/
def findingAfter (workspace : Workspace) (drills : List TypePath) (path : TypePath) :
    Except Fatal (Option Finding) := do
  let workspace ← workspace.serveAll (drills.map .resolve)
  let (answer, next) ← workspace.resolve path
  return answer.bind (next.session.finding? next.scene)

/-- A drill of `A/Z/x` builds the parallel of `A/x` and leaves it unraked while it rakes `A/k`. -/
def entangled : String :=
  "t\nx : t\nW\n\tk : t\nA : W\n\tx : t\n\tk : x\n\tB\n\t\tx : k\n\tZ : B, A\n\t\tx"

/-- In fresh sessions of one version the drills before a drill can change its bases, though nothing is
circular. -/
theorem order_of_drills_shows : ¬∀ options requests workspace,
    (empty options).serveAll requests = .ok workspace → workspace.session? = none →
      ∀ first second path one two, workspace.findingAfter first path = .ok one →
        workspace.findingAfter second path = .ok two → Option.Rel Finding.Agrees one two := by
  intro same
  let path : TypePath := ⟨⟨0⟩, ["A", "k"], by decide⟩
  let before : TypePath := ⟨⟨0⟩, ["A", "Z", "x"], by decide⟩
  obtain ⟨workspace, reached, _⟩ := history_rested ⟨4, true⟩ [.add entangled]
  have fresh : ((empty ⟨4, true⟩).serveAll [.add entangled]).map session? = .ok none := by decide +kernel
  have alone : ((empty ⟨4, true⟩).serveAll [.add entangled]).bind (findingAfter · [] path) =
      .ok (some ⟨true, [⟨⟨0⟩, ["W", "k"], by decide⟩], [("x", ⟨⟨0⟩, ["A", "x"], by decide⟩)]⟩) := by
    decide +kernel
  have after : ((empty ⟨4, true⟩).serveAll [.add entangled]).bind (findingAfter · [before] path) =
      .ok (some ⟨true, [⟨⟨0⟩, ["W", "k"], by decide⟩], [("x", ⟨⟨0⟩, ["x"], by decide⟩)]⟩) := by
    decide +kernel
  rw [reached] at fresh alone after
  cases same _ _ workspace reached (Except.ok.inj fresh) [] [before] path _ _ alone after with
  | some agrees => exact absurd ((agrees.bases _).mpr List.mem_cons_self) (by decide)

end Workspace

end OutlineTypes
