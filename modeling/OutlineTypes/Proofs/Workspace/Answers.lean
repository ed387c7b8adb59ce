import OutlineTypes.Proofs.Workspace.Rest

/-! What drills leave behind. Every annotation of a parallel has a base or is cruft, no cycle is left among
the bases and only cycles are blamed, and whatever a drill answers is answered for as long as the session
goes on. -/
namespace OutlineTypes

namespace Session

variable {scene : Scene} {session before mid : Session} {path : TypePath}

section Annotations

/-- No annotation is dropped in silence: it has a base among its successors, or it is cruft. -/
structure Accounted (scene : Scene) (session : Session) : Prop where
  raked : ∀ parallel ∈ session.parallels, parallel.raked
  quiet : session.raking = []
  idle : session.inFlight = []
  answered : ∀ parallel ∈ session.parallels, ∀ resolved, parallel.explicit = some resolved →
    ∀ edge ∈ scene.graph.outbounds resolved.node,
      (∃ base, resolved.bases.find? edge.id = some base) ↔ session.cruft.hasEdge edge.id = false
  meant : ∀ parallel ∈ session.parallels, ∀ resolved, parallel.explicit = some resolved →
    ∀ edge ∈ scene.graph.outbounds resolved.node, ∀ base, resolved.bases.find? edge.id = some base →
      session.Meant edge base

theorem AtRest.accounted (rest : session.AtRest scene) (framed : scene.graph.Framed) :
    session.Accounted scene := by
  have among {parallel : Parallel} (member : parallel ∈ session.parallels) {resolved : Resolved}
      (explicit : parallel.explicit = some resolved) :
      session.Answered (scene.graph.outbounds resolved.node) resolved.bases := by
    obtain ⟨id, found⟩ := exists_of_mem member
    exact rest.orderly.answered id (rest.settled id parallel found) parallel found resolved explicit
  refine ⟨fun parallel member => ?_, rest.quiet, rest.idle, ?_, ?_⟩
  · obtain ⟨id, found⟩ := exists_of_mem member
    obtain ⟨again, present, raked⟩ := rest.sane.settled id (rest.settled id parallel found)
    cases found.symm.trans present
    exact raked
  · intro parallel member resolved explicit edge outbound
    constructor
    · rintro ⟨base, found⟩
      exact ((among member explicit).asked _ (resolved.bases.find?_eq_some_iff.mp found)).1
    · intro sound
      obtain ⟨base, listed⟩ := (among member explicit).answers edge outbound sound
      exact ⟨base, resolved.bases.find?_eq_some_iff.mpr listed⟩
  · intro parallel member resolved explicit edge outbound base found
    obtain ⟨_, again, listed, same, meant⟩ :=
      (among member explicit).asked _ (resolved.bases.find?_eq_some_iff.mp found)
    cases eq_of_key_eq framed.edgeIds (List.mem_of_mem_filter listed) (List.mem_of_mem_filter outbound) same
    exact meant

end Annotations

section Cycles

/-- The edge has come to be circular. -/
def turnsCircular (before after : Session) (edge : EdgeId) : Bool :=
  after.cruft.reason? (.edge edge) = some .circular ∧ before.cruft.reason? (.edge edge) ≠ some .circular

/-- What a cut makes of `mid`, to which a drill came from `before`. -/
structure CutsCycles (before mid after : Session) : Prop where
  acyclic : ∀ id, ¬Relation.TransGen after.Inherits id id
  blamed : ∀ edge, turnsCircular before after edge → mid.OnCycle edge
  dropped : ∀ id, after.baseEntriesOf id =
    (mid.baseEntriesOf id).filter fun entry => !turnsCircular before after entry.1
  /-- What leads into a cycle is on none. -/
  kept : ∀ id, ∀ entry ∈ mid.baseEntriesOf id, ¬mid.OnCycle entry.1 → entry ∈ after.baseEntriesOf id

/-- The edges on cycles are those that turn circular, since a drill marks edges as unresolved only. -/
theorem turnsCircular_cutCycles (rest : mid.AtRest scene)
    (marks : ∀ edge, mid.cruft.reason? (.edge edge) = before.cruft.reason? (.edge edge) ∨
      mid.cruft.reason? (.edge edge) = some .unresolved) (edge : EdgeId) :
    turnsCircular before (mid.cutCycles scene) edge ↔ edge ∈ mid.circularEdges := by
  simp only [turnsCircular, Bool.decide_and, Bool.and_eq_true, decide_eq_true_eq, reason?_cutCycles]
  constructor
  · intro ⟨now, earlier⟩
    by_contra absent
    rw [if_neg absent] at now
    rcases marks edge with same | unresolved
    · exact earlier (same ▸ now)
    · rw [unresolved] at now
      contradiction
  · intro member
    have clean := (rest.sane.of_circular member).2
    refine ⟨by rw [if_pos member, clean]; rfl, fun earlier => ?_⟩
    rcases marks edge with same | unresolved
    · rw [clean, earlier] at same
      contradiction
    · rw [clean] at unresolved
      contradiction

theorem AtRest.cutsCycles (rest : mid.AtRest scene)
    (marks : ∀ edge, mid.cruft.reason? (.edge edge) = before.cruft.reason? (.edge edge) ∨
      mid.cruft.reason? (.edge edge) = some .unresolved) :
    CutsCycles before mid (mid.cutCycles scene) := by
  have turns := turnsCircular_cutCycles rest marks
  have blamed (edge : EdgeId) (member : edge ∈ mid.circularEdges) : mid.OnCycle edge :=
    (rest.sane.of_circular member).1
  constructor
  · exact rest.acyclic_cutCycles
  · intro edge turned
    exact blamed edge ((turns edge).mp turned)
  · intro id
    rw [baseEntriesOf_cutCycles]
    refine List.filter_congr fun entry _ => ?_
    rw [Bool.eq_iff_iff, decide_eq_true_eq, ← turns entry.1, Bool.not_eq_true', Bool.not_eq_true]
  · intro id entry member apart
    rw [baseEntriesOf_cutCycles, List.mem_filter, decide_eq_true_eq]
    exact ⟨member, fun circular => apart (blamed entry.1 circular)⟩

end Cycles
end Session

namespace Workspace

/-- After any history every parallel of the current session is raked, and each of its annotations that is no
cruft has a base. -/
theorem history_accounts_for_annotations (options : Options) (requests : List Request) :
    ∃ workspace, (empty options).serveAll requests = .ok workspace ∧
      workspace.session.Accounted workspace.scene := by
  obtain ⟨workspace, reached, synchronised, rested⟩ := history_rested options requests
  have framed : workspace.scene.graph.Framed := synchronised.settled.toFramed
  exact ⟨workspace, reached, rested.atRest_session.2.accounted framed⟩

/-- One annotation of a type has a base, the other one is cruft. -/
theorem inherited_accounted : ∃ workspace,
    (empty ⟨4, true⟩).serveAll [.add "A : B, Z\nB\n\tX", .resolve ⟨⟨0⟩, ["A", "X"], by decide⟩] = .ok workspace ∧
      workspace.session.Accounted workspace.scene ∧
      workspace.session.parallels.map (fun parallel => (parallel.path.names, parallel.bases)) =
        [(["A"], [⟨1⟩]), (["B"], []), (["A", "X"], []), (["B", "X"], [])] ∧
      workspace.graph.edges.map (fun edge => (edge.subject, workspace.session.cruft.hasEdge edge.id)) =
        [("B", false), ("Z", true)] := by
  obtain ⟨workspace, reached, accounted⟩ :=
    history_accounts_for_annotations ⟨4, true⟩ [.add "A : B, Z\nB\n\tX", .resolve ⟨⟨0⟩, ["A", "X"], by decide⟩]
  have evaluated : ((empty ⟨4, true⟩).serveAll
      [.add "A : B, Z\nB\n\tX", .resolve ⟨⟨0⟩, ["A", "X"], by decide⟩]).map (fun workspace =>
        (workspace.session.parallels.map fun parallel => (parallel.path.names, parallel.bases),
          workspace.graph.edges.map fun edge => (edge.subject, workspace.session.cruft.hasEdge edge.id))) =
      .ok ([(["A"], [⟨1⟩]), (["B"], []), (["A", "X"], []), (["B", "X"], [])], [("B", false), ("Z", true)]) := by
    decide +kernel
  simp only [reached, Except.map, Except.ok.injEq, Prod.mk.injEq] at evaluated
  exact ⟨workspace, reached, accounted, evaluated⟩

/-- After any history every drill leaves no cycle of bases behind, and drops no base but those of the edges
on cycles. -/
theorem history_cuts_cycles (options : Options) (requests : List Request) :
    ∃ workspace, (empty options).serveAll requests = .ok workspace ∧ ∀ path, ∃ outcome mid,
      Session.drillWithin workspace.scene (Session.drillBound workspace.scene) path workspace.session =
        .ok (outcome, mid) ∧
      workspace.resolve path = .ok (outcome.parallel?,
        { workspace with opened := some (mid.cutCycles workspace.scene) }) ∧
      Session.CutsCycles workspace.session mid (mid.cutCycles workspace.scene) := by
  obtain ⟨workspace, reached, synchronised, rested⟩ := history_rested options requests
  refine ⟨workspace, reached, fun path => ?_⟩
  obtain ⟨ready, _⟩ := synchronised.ready_session
  have rest := rested.atRest_session.2
  have coherent : workspace.scene.graph.Coherent := synchronised.settled.toCoherent
  have sane : workspace.session.Sane workspace.scene.graph := ready.sane
  obtain ⟨⟨outcome, mid⟩, watched, _⟩ := sane.drillWithin_succeeds coherent ready.idle path
  have drilled := Session.refines_drillWatched (Nat.le_refl _) path workspace.session (outcome, mid) watched
  obtain ⟨advances, _⟩ := rest.drillWithin_ensures coherent _ path _ drilled
  refine ⟨outcome, mid, drilled, ?_, (rest.advance advances).cutsCycles advances.marks⟩
  simp only [resolve, Session.drill, drilled, ok_bind]
  rfl

/-- What a drill answers after any history is answered again after any further requests that change no
document. -/
theorem history_answers_stand (options : Options) (requests : List Request) :
    ∃ workspace, (empty options).serveAll requests = .ok workspace ∧
      ∀ path, ∃ answer next, workspace.resolve path = .ok (answer, next) ∧
        ∀ further : List Request, (∀ request ∈ further, request.asks) →
          ∃ last after, next.serveAll further = .ok last ∧ last.resolve path = .ok (answer, after) := by
  obtain ⟨workspace, reached, synchronised, rested⟩ := history_rested options requests
  refine ⟨workspace, reached, fun path => ?_⟩
  obtain ⟨⟨answer, next⟩, resolved, served, resumes, answers⟩ :=
    (synchronised.resolve_succeeds path).and_ensures (synchronised.resolve_ensures rested path)
  refine ⟨answer, next, resolved, fun further asks => ?_⟩
  obtain ⟨last, onward, going, resumed⟩ := served.synchronised.serveAll_resumes resumes.rested asks
  obtain ⟨⟨again, after⟩, final, _, ends, repeated⟩ :=
    (going.resolve_succeeds path).and_ensures (going.resolve_ensures resumed.rested path)
  have kept := (resumed.trans ends).keeps path answer (resumes.scene ▸ answers)
  have rest := ends.rested.atRest_session.2
  rw [resumes.scene] at kept
  rw [ends.scene, resumed.scene, resumes.scene] at rest
  rw [resumed.scene, resumes.scene] at repeated
  cases kept.unique rest repeated
  exact ⟨last, after, onward, final⟩

/-- A path at which nothing stands stays so while what contains it is drilled and raked, and a path that was found
keeps its parallel while others are. -/
theorem unpopulated_stands : ∃ workspace next last after found onward final,
    (empty ⟨4, true⟩).serveAll [.add "A : B\nB\n\tY"] = .ok workspace ∧
      (∀ request ∈ [Request.drill ⟨0⟩ "B", .faults, .drill ⟨0⟩ "A"], request.asks) ∧
      workspace.resolve ⟨⟨0⟩, ["A", "X"], by decide⟩ = .ok (none, next) ∧
      next.serveAll [.drill ⟨0⟩ "B", .faults, .drill ⟨0⟩ "A"] = .ok last ∧
      last.resolve ⟨⟨0⟩, ["A", "X"], by decide⟩ = .ok (none, after) ∧
      workspace.resolve ⟨⟨0⟩, ["A", "Y"], by decide⟩ = .ok (some ⟨2⟩, found) ∧
      found.serveAll [.drill ⟨0⟩ "B", .faults, .drill ⟨0⟩ "A"] = .ok onward ∧
      onward.resolve ⟨⟨0⟩, ["A", "Y"], by decide⟩ = .ok (some ⟨2⟩, final) := by
  obtain ⟨workspace, reached, stands⟩ := history_answers_stand ⟨4, true⟩ [.add "A : B\nB\n\tY"]
  obtain ⟨answer, next, resolved, again⟩ := stands ⟨⟨0⟩, ["A", "X"], by decide⟩
  obtain ⟨inherited, found, drilled, anew⟩ := stands ⟨⟨0⟩, ["A", "Y"], by decide⟩
  have evaluated : ((empty ⟨4, true⟩).serveAll [.add "A : B\nB\n\tY"]).bind (fun workspace =>
      (workspace.resolve ⟨⟨0⟩, ["A", "X"], by decide⟩).bind fun missed =>
        (workspace.resolve ⟨⟨0⟩, ["A", "Y"], by decide⟩).map fun met => (missed.1, met.1)) =
      .ok (none, some ⟨2⟩) := by
    decide +kernel
  simp only [reached, resolved, drilled, Except.bind, Except.map, Except.ok.injEq, Prod.mk.injEq] at evaluated
  obtain ⟨rfl, rfl⟩ := evaluated
  obtain ⟨last, after, later, repeated⟩ := again [.drill ⟨0⟩ "B", .faults, .drill ⟨0⟩ "A"] (by decide)
  obtain ⟨onward, final, further, kept⟩ := anew [.drill ⟨0⟩ "B", .faults, .drill ⟨0⟩ "A"] (by decide)
  exact ⟨workspace, next, last, after, found, onward, final, reached, by decide, resolved, later, repeated, drilled,
    further, kept⟩

end Workspace
end OutlineTypes
