import OutlineTypes.Proofs.Resolution.Growth
import OutlineTypes.Proofs.Workspace.Synchronisation

/-! Rest. Between two requests the session of the current version is at rest. A change of a document leaves
the session behind, misuse and questions do not touch the graph, and a drill goes from rest to rest. -/
namespace OutlineTypes

namespace Request

/-- The request changes no document. -/
def asks : Request → Bool
  | add _ | remove _ | edit _ _ => false
  | path _ _ | drill _ _ | resolve _ | worker | session | faults => true

end Request

namespace Workspace

variable {workspace next : Workspace}

/-- A question changes nothing but the session. -/
theorem opens_of_asks {request : Request} (asks : request.asks) :
    Ensures (workspace.serve request) fun next => ∃ opened, next = { workspace with opened } := by
  cases request with
  | add | remove | edit => contradiction
  | path | session => exact .ok ⟨workspace.opened, rfl⟩
  | worker | faults => exact .ok ⟨_, rfl⟩
  | resolve path =>
    refine Ensures.bind (?_ : Ensures (workspace.resolve path) fun result =>
      ∃ opened, result.2 = { workspace with opened }) fun _ h => .pure h
    exact (Ensures.anything _).bind fun result _ => .pure ⟨_, rfl⟩
  | drill document text =>
    refine Ensures.bind (?_ : Ensures (workspace.drill document text) fun result =>
      ∃ opened, result.2 = { workspace with opened }) fun _ h => .pure h
    unfold drill
    split
    · exact .pure ⟨workspace.opened, rfl⟩
    · refine Ensures.bind (?_ : Ensures (workspace.resolve _) fun result =>
        ∃ opened, result.2 = { workspace with opened }) fun _ h => .pure h
      exact (Ensures.anything _).bind fun result _ => .pure ⟨_, rfl⟩

/-- The session of the current version, if there is one, is prepared and at rest. -/
def Rested (workspace : Workspace) : Prop :=
  ∀ session, workspace.session? = some session → session.prepared ∧ session.AtRest workspace.scene

theorem session_open {session : Session} (prepared : session.prepared = true)
    (version : session.version = workspace.version) :
    { workspace with opened := some session }.session = session := by
  have current : { workspace with opened := some session }.session? = some session := by
    simp [session?, version]
  rw [Workspace.session, current]
  exact Session.prepare_of_prepared prepared _

theorem session_of_unopened (unopened : workspace.session? = none) :
    workspace.session = (Session.empty workspace.version).prepare workspace.scene := by
  rw [session, unopened, Option.getD_none]

/-- A session that was opened before a change is of an earlier version. -/
theorem Synchronised.session?_eq_none (synchronised : workspace.Synchronised)
    (opened : next.opened = workspace.opened) (version : next.version = workspace.version + 1) :
    next.session? = none := by
  refine Option.eq_none_iff_forall_ne_some.mpr fun session current => ?_
  obtain ⟨found, same⟩ := Option.filter_eq_some_iff.mp current
  have before := (synchronised.opened session (opened ▸ found)).1
  have now : session.version = next.version := of_decide_eq_true same
  omega

namespace Rested

theorem of_unopened (unopened : workspace.session? = none) : workspace.Rested := by
  intro session current
  rw [unopened] at current
  contradiction

theorem atRest_session (rested : workspace.Rested) :
    workspace.session.prepared = true ∧ workspace.session.AtRest workspace.scene := by
  refine ⟨Session.prepared_prepare _ _, ?_⟩
  unfold Workspace.session
  cases current : workspace.session? with
  | none => exact Session.atRest_of_calm (Session.calm_prepare _ workspace.scene)
  | some session =>
    obtain ⟨prepared, rest⟩ := rested session current
    rw [Option.getD_some, Session.prepare_of_prepared prepared]
    exact rest

theorem open_ {session : Session} (prepared : session.prepared = true)
    (rest : session.AtRest workspace.scene) : { workspace with opened := some session }.Rested := by
  intro other current
  obtain ⟨same, _⟩ := Option.filter_eq_some_iff.mp current
  cases same
  exact ⟨prepared, rest⟩

/-- Lines that are counted open no session and end none. -/
theorem session_recount (rested : workspace.Rested) {session : Session}
    (current : workspace.session? = some session) (documents : Documents) :
    { workspace with documents }.session = workspace.session := by
  obtain ⟨prepared, _⟩ := rested session current
  have again : { workspace with documents }.session? = some session := current
  simp only [Workspace.session, again, current, Option.getD_some, Session.prepare_of_prepared prepared]

theorem recount (rested : workspace.Rested) (documents : Documents) :
    { workspace with documents }.Rested := by
  intro session current
  obtain ⟨prepared, rest⟩ := rested session current
  exact ⟨prepared, rest.sane, rest.orderly.congr_scene rfl, rest.idle, rest.quiet, rest.settled⟩

end Rested

/-- What a request for an answer leaves behind, where the same session goes on. -/
structure Resumes (workspace next : Workspace) : Prop where
  rested : next.Rested
  scene : next.scene = workspace.scene
  nodes : ∀ node, next.session.cruft.hasNode node = workspace.session.cruft.hasNode node
  keeps : ∀ path answer, workspace.session.Answers workspace.scene path answer →
    next.session.Answers workspace.scene path answer
  outgrows : ∀ earlier, Session.Outgrows workspace.scene earlier workspace.session →
    Session.Outgrows workspace.scene earlier next.session
  current : workspace.opened = some workspace.session → next.opened = some next.session
  balances : workspace.session.Balanced workspace.scene → next.session.Balanced workspace.scene

theorem Resumes.refl (rested : workspace.Rested) : Resumes workspace workspace :=
  ⟨rested, rfl, fun _ => rfl, fun _ _ h => h, fun _ h => h, fun h => h, fun h => h⟩

theorem Resumes.trans {last : Workspace} (first : Resumes workspace next) (second : Resumes next last) :
    Resumes workspace last where
  rested := second.rested
  scene := second.scene.trans first.scene
  nodes node := (second.nodes node).trans (first.nodes node)
  keeps path answer answers := by
    have between := first.keeps path answer answers
    rw [← first.scene] at between ⊢
    exact second.keeps path answer between
  outgrows earlier outgrows := by
    have between := first.outgrows earlier outgrows
    rw [← first.scene] at between ⊢
    exact second.outgrows earlier between
  current opened := second.current (first.current opened)
  balances balanced := by
    have between := first.balances balanced
    rw [← first.scene] at between ⊢
    exact second.balances between

/-- A change that was made leaves no session of the current version, and one that was refused counts lines at
most. -/
def Outdates (workspace next : Workspace) : Prop :=
  next.session? = none ∨ ∃ documents, next = { workspace with documents }

namespace Synchronised

variable (synchronised : workspace.Synchronised) (rested : workspace.Rested)

include synchronised rested in
/-- The session that a drill leaves is the one that goes on. -/
theorem resolve_drills (path : TypePath) : Ensures (workspace.resolve path) fun result =>
    workspace.session.drill workspace.scene path = .ok (result.1, result.2.session) ∧
      result.2.Rested ∧ result.2.scene = workspace.scene ∧ result.2.opened = some result.2.session := by
  obtain ⟨ready, version⟩ := synchronised.ready_session
  obtain ⟨prepared, rest⟩ := rested.atRest_session
  have coherent : workspace.scene.graph.Coherent := synchronised.settled.toCoherent
  obtain ⟨⟨answer, session⟩, drilled, ⟨_, grows⟩, continues, _⟩ :=
    (ready.sane.drill_succeeds coherent ready.idle path).and_ensures (rest.drill_ensures coherent path)
  have still := continues.prepared.trans prepared
  have same := session_open still (grows.version.trans version)
  unfold resolve
  rw [drilled]
  exact .pure ⟨by rw [same], .open_ still continues.rest, rfl, by rw [same]⟩

include synchronised rested in
theorem resolve_ensures (path : TypePath) : Ensures (workspace.resolve path) fun result =>
    Resumes workspace result.2 ∧ result.2.session.Answers workspace.scene path result.1 := by
  have coherent : workspace.scene.graph.Coherent := synchronised.settled.toCoherent
  refine (synchronised.resolve_drills rested path).mono fun result ⟨drilled, left, scene, opened⟩ => ?_
  obtain ⟨continues, answers⟩ := rested.atRest_session.2.drill_ensures coherent path _ drilled
  refine ⟨⟨left, scene, continues.nodes, continues.keeps, fun earlier outgrows => ?_, fun _ => opened,
    fun balanced => ?_⟩, answers⟩
  · exact outgrows.drill_ensures coherent path _ drilled
  · exact rested.atRest_session.2.drill_balances coherent balanced path _ drilled

include synchronised rested in
theorem session_faults : workspace.faults.2.session = workspace.session :=
  session_open rested.atRest_session.1 synchronised.ready_session.2

include synchronised rested in
theorem resumes_faults : Resumes workspace workspace.faults.2 := by
  have same := synchronised.session_faults rested
  obtain ⟨prepared, rest⟩ := rested.atRest_session
  exact ⟨.open_ prepared rest, rfl, fun node => by rw [same], fun path answer known => by rwa [same],
    fun earlier outgrows => by rwa [same], fun _ => by rw [same]; rfl, fun balanced => by rwa [same]⟩

include synchronised rested in
theorem serve_resumes {request : Request} (asks : request.asks) :
    Ensures (workspace.serve request) (Resumes workspace) := by
  cases request with
  | add text => contradiction
  | remove document => contradiction
  | edit document edits => contradiction
  | path document text => exact .ok (.refl rested)
  | session => exact .ok (.refl rested)
  | worker => exact .ok (synchronised.resumes_faults rested)
  | faults => exact .ok (synchronised.resumes_faults rested)
  | resolve path => exact (synchronised.resolve_ensures rested path).bind fun result h => .pure h.1
  | drill document text =>
    rw [serve, Workspace.drill]
    cases workspace.path document text with
    | error reason => exact .ok (.refl rested)
    | ok path =>
      simp only [bind_assoc]
      exact (synchronised.resolve_ensures rested path).bind fun result h => .pure h.1

include synchronised in
/-- A request to change a document makes the change or is refused. -/
theorem serve_decides {request : Request} (changes : ¬request.asks) :
    Succeeds (workspace.serve request) fun next =>
      (∃ document, Revised workspace document next) ∨ ∃ id, Refused workspace id next := by
  cases request with
  | add text => exact (synchronised.add_revises text).bind fun result h => .pure (.inl ⟨_, h.1⟩)
  | remove id =>
    refine (synchronised.remove_decides id).bind fun ⟨answer, next⟩ decided => .pure ?_
    cases answer with
    | error reason => exact .inr ⟨id, .inl decided⟩
    | ok document => exact .inl ⟨_, decided.2⟩
  | edit id edits =>
    refine (synchronised.edit_decides id edits).bind fun ⟨answer, next⟩ decided => .pure ?_
    cases answer with
    | error reason => exact .inr ⟨id, decided⟩
    | ok _ =>
      obtain ⟨document, _, revised⟩ := decided
      exact .inl ⟨document, revised⟩
  | _ => exact absurd rfl changes

include synchronised in
theorem serve_outdates {request : Request} (changes : ¬request.asks) :
    Ensures (workspace.serve request) (Outdates workspace) := by
  refine (synchronised.serve_decides changes).ensures.mono fun next decided => ?_
  rcases decided with ⟨document, revised⟩ | ⟨id, rfl | ⟨document, serial, _, _, rfl⟩⟩
  · exact .inl (synchronised.session?_eq_none revised.opened revised.version)
  · exact .inr ⟨next.documents, rfl⟩
  · exact .inr ⟨_, rfl⟩

include synchronised rested in
theorem serve_rested (request : Request) : Ensures (workspace.serve request) Rested := by
  by_cases asks : request.asks
  · exact (synchronised.serve_resumes rested asks).mono fun _ h => h.rested
  · refine (synchronised.serve_outdates asks).mono fun next left => ?_
    rcases left with unopened | ⟨documents, rfl⟩
    · exact .of_unopened unopened
    · exact rested.recount documents

include synchronised rested in
/-- What every request keeps up holds after every history. -/
theorem serveAll_keeps {kept : Workspace → Prop} (start : kept workspace)
    (keeps : ∀ state : Workspace, state.Synchronised → state.Rested → kept state → ∀ request,
      Ensures (state.serve request) kept) (requests : List Request) :
    Succeeds (workspace.serveAll requests) fun next => next.Synchronised ∧ next.Rested ∧ kept next := by
  refine Succeeds.foldlM_of_forall (fun next : Workspace => next.Synchronised ∧ next.Rested ∧ kept next)
    ⟨synchronised, rested, start⟩ fun request _ state h => ?_
  obtain ⟨here, still, holds⟩ := h
  have served := (here.serve_succeeds request).and_ensures
    ((here.serve_rested still request).and (keeps state here still holds request))
  exact served.mono fun next k => ⟨k.1.synchronised, k.2⟩

include synchronised rested in
theorem serveAll_rested (requests : List Request) :
    Succeeds (workspace.serveAll requests) fun next => next.Synchronised ∧ next.Rested :=
  (synchronised.serveAll_keeps rested trivial (fun _ _ _ _ _ => .anything _) requests).mono
    fun _ h => ⟨h.1, h.2.1⟩

include synchronised rested in
theorem serveAll_resumes {requests : List Request} (asks : ∀ request ∈ requests, request.asks) :
    Succeeds (workspace.serveAll requests) fun last => last.Synchronised ∧ Resumes workspace last := by
  refine Succeeds.foldlM_of_forall (fun next : Workspace => next.Synchronised ∧ Resumes workspace next)
    ⟨synchronised, .refl rested⟩ fun request member state h => ?_
  have served := (h.1.serve_succeeds request).and_ensures
    (h.1.serve_resumes h.2.rested (asks request member))
  exact served.mono fun next k => ⟨k.1.synchronised, h.2.trans k.2⟩

end Synchronised

/-- After every history of a new workspace the current session is at rest. -/
theorem history_rested (options : Options) (requests : List Request) :
    Succeeds ((empty options).serveAll requests) fun workspace => workspace.Synchronised ∧ workspace.Rested :=
  (synchronised_empty options).serveAll_rested (.of_unopened rfl) requests

end Workspace
end OutlineTypes
