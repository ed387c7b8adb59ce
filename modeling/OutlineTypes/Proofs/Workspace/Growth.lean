import OutlineTypes.Proofs.Workspace.Rest

/-! Growth of the current session. After any history it has grown from nothing, and requests that change no
document let it grow on. What is there stays as it is, what was answered is answered from what is there, and
nothing is there that overriding does not lead from to something declared. -/
namespace OutlineTypes

namespace Workspace

variable {workspace next : Workspace}

section Growth

/-- The session of the current version has grown from one without parallels. -/
def Grown (workspace : Workspace) : Prop :=
  ∃ start, start.parallels = [] ∧ Session.Outgrows workspace.scene start workspace.session

namespace Grown

theorem of_unopened (unopened : workspace.session? = none) : workspace.Grown := by
  have calm := Session.calm_prepare (.empty workspace.version) workspace.scene
  rw [← session_of_unopened unopened] at calm
  exact ⟨workspace.session, calm.parallels, .of_calm calm⟩

theorem recount (grown : workspace.Grown) (rested : workspace.Rested) (documents : Documents) :
    { workspace with documents }.Grown := by
  cases current : workspace.session? with
  | none => exact .of_unopened current
  | some session =>
    obtain ⟨start, nothing, outgrows⟩ := grown
    refine ⟨start, nothing, ?_⟩
    rw [rested.session_recount current]
    exact outgrows.congr_scene rfl rfl

theorem acyclic (grown : workspace.Grown) : workspace.session.Acyclic := by
  obtain ⟨_, _, outgrows⟩ := grown
  exact outgrows.acyclic

theorem outgrows_self (grown : workspace.Grown) :
    Session.Outgrows workspace.scene workspace.session workspace.session := by
  obtain ⟨_, _, outgrows⟩ := grown
  exact .refl outgrows.rest outgrows.acyclic outgrows.grounded outgrows.housed

theorem resume (grown : workspace.Grown) (resumes : Resumes workspace next) : next.Grown := by
  obtain ⟨start, nothing, outgrows⟩ := grown
  refine ⟨start, nothing, ?_⟩
  rw [resumes.scene]
  exact resumes.outgrows start outgrows

end Grown

/-- A session that goes on leaves all that it found. -/
theorem Resumes.preserves (resumes : Resumes workspace next) (grown : workspace.Grown) :
    workspace.session.Preserves next.session :=
  (resumes.outgrows workspace.session grown.outgrows_self).preserves

theorem Synchronised.serve_grown (synchronised : workspace.Synchronised) (rested : workspace.Rested)
    (grown : workspace.Grown) (request : Request) : Ensures (workspace.serve request) Grown := by
  by_cases asks : request.asks
  · exact (synchronised.serve_resumes rested asks).mono fun _ resumes => grown.resume resumes
  · refine (synchronised.serve_outdates asks).mono fun next left => ?_
    rcases left with unopened | ⟨documents, rfl⟩
    · exact .of_unopened unopened
    · exact grown.recount rested documents

/-- After every history of a new workspace the current session is at rest and has grown from nothing. -/
theorem history_grown (options : Options) (requests : List Request) :
    Succeeds ((empty options).serveAll requests) fun workspace =>
      workspace.Synchronised ∧ workspace.Rested ∧ workspace.Grown :=
  (synchronised_empty options).serveAll_keeps (.of_unopened rfl) (.of_unopened rfl)
    (fun _ synchronised rested grown => synchronised.serve_grown rested grown) requests

end Growth

section Finality

/-- What has an answer in the session that is open is answered without a change. -/
theorem resolve_of_answers (rested : workspace.Rested) (grown : workspace.Grown)
    (opened : workspace.opened = some workspace.session) {path : TypePath} {answer : Option ParallelId}
    (answers : workspace.session.Answers workspace.scene path answer) :
    workspace.resolve path = .ok (answer, workspace) := by
  have same : { workspace with opened := some workspace.session } = workspace := by rw [← opened]
  unfold resolve
  rw [rested.atRest_session.2.drill_of_answers grown.acyclic answers, ok_bind]
  exact congrArg (fun next => Except.ok (answer, next)) same

/-- After any history, a drill and further requests that change no document leave every parallel that was there
as it was, with what was found faulty, and to drill again what was answered changes nothing. -/
theorem history_is_final (options : Options) (requests : List Request) :
    ∃ workspace, (empty options).serveAll requests = .ok workspace ∧ ∀ path, ∃ answer next,
      workspace.resolve path = .ok (answer, next) ∧ workspace.session.Preserves next.session ∧
        ∀ further : List Request, (∀ request ∈ further, request.asks) → ∃ last,
          next.serveAll further = .ok last ∧ next.session.Preserves last.session ∧
            last.resolve path = .ok (answer, last) ∧
            ∀ other id, last.session.lookup? other = some id → last.resolve other = .ok (some id, last) := by
  obtain ⟨workspace, reached, synchronised, rested, grown⟩ := history_grown options requests
  refine ⟨workspace, reached, fun path => ?_⟩
  obtain ⟨⟨answer, next⟩, resolved, served, ⟨_, _, _, opened⟩, resumes, answers⟩ :=
    (synchronised.resolve_succeeds path).and_ensures
      ((synchronised.resolve_drills rested path).and (synchronised.resolve_ensures rested path))
  have nextGrown := grown.resume resumes
  refine ⟨answer, next, resolved, resumes.preserves grown, fun further asks => ?_⟩
  obtain ⟨last, onward, going, resumed⟩ := served.synchronised.serveAll_resumes resumes.rested asks
  have lastGrown := nextGrown.resume resumed
  have current := resumed.current opened
  refine ⟨last, onward, resumed.preserves nextGrown, ?_, fun other id cached => ?_⟩
  · refine resolve_of_answers resumed.rested lastGrown current ?_
    rw [resumed.scene]
    exact resumed.keeps path answer (resumes.scene ▸ answers)
  · exact resolve_of_answers resumed.rested lastGrown current cached

/-- A type stays as it is while what inherits it is drilled. -/
theorem inherited_is_final : ∃ workspace next last id other,
    (empty ⟨4, true⟩).serveAll [.add "A : B\nB\n\tX\nC : A"] = .ok workspace ∧
      workspace.resolve ⟨⟨0⟩, ["A", "X"], by decide⟩ = .ok (some id, next) ∧
      (∀ request ∈ [Request.resolve ⟨⟨0⟩, ["C", "X"], by decide⟩, .faults], request.asks) ∧
      next.serveAll [.resolve ⟨⟨0⟩, ["C", "X"], by decide⟩, .faults] = .ok last ∧
      next.session.Preserves last.session ∧
      last.resolve ⟨⟨0⟩, ["A", "X"], by decide⟩ = .ok (some id, last) ∧
      last.session.lookup? ⟨⟨0⟩, ["B"], by decide⟩ = some other ∧
      last.resolve ⟨⟨0⟩, ["B"], by decide⟩ = .ok (some other, last) := by
  obtain ⟨workspace, reached, final⟩ := history_is_final ⟨4, true⟩ [.add "A : B\nB\n\tX\nC : A"]
  obtain ⟨answer, next, resolved, _, further⟩ := final ⟨⟨0⟩, ["A", "X"], by decide⟩
  obtain ⟨last, onward, preserves, again, cached⟩ :=
    further [.resolve ⟨⟨0⟩, ["C", "X"], by decide⟩, .faults] (by decide)
  have evaluated : ((empty ⟨4, true⟩).serveAll [.add "A : B\nB\n\tX\nC : A"]).bind (fun workspace =>
      (workspace.resolve ⟨⟨0⟩, ["A", "X"], by decide⟩).bind fun result =>
        (result.2.serveAll [.resolve ⟨⟨0⟩, ["C", "X"], by decide⟩, .faults]).map fun last =>
          (result.1, last.session.lookup? ⟨⟨0⟩, ["B"], by decide⟩)) = .ok (some ⟨2⟩, some ⟨1⟩) := by
    decide +kernel
  simp only [reached, resolved, onward, Except.bind, Except.map, Except.ok.injEq, Prod.mk.injEq] at evaluated
  obtain ⟨rfl, inherited⟩ := evaluated
  exact ⟨workspace, next, last, _, _, reached, resolved, by decide, onward, preserves, again, inherited,
    cached _ _ inherited⟩

end Finality

end Workspace
end OutlineTypes
