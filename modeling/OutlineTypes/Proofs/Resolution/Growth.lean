import OutlineTypes.Proofs.Resolution.Finality

/-! Growth. A session at rest grows by drills. Overriding leads from all that is in it to something declared,
and for as long as no cycle was cut, whatever it grows by mirrors its container and was judged. -/
namespace OutlineTypes.Session

variable {scene : Scene} {earlier session next : Session} {id : ParallelId} {path : TypePath} {name : Name}

section Grounding

/-- Overriding leads from the parallel to an explicit one of this name, which may be itself. -/
def Grounded (session : Session) (id : ParallelId) (name : Name) : Prop :=
  ∃ other last, Relation.ReflTransGen (fun above below => below ∈ session.edgesOf above) id other ∧
    session.parallel? other = some last ∧ last.isExplicit ∧ last.path.tip = name

/-- No parallel stands for nothing that is declared. -/
def AllGrounded (session : Session) : Prop :=
  ∀ id parallel, session.parallel? id = some parallel → session.Grounded id parallel.path.tip

theorem Grounded.mono (grounded : session.Grounded id name)
    (keeps : ∀ id parallel, session.parallel? id = some parallel → ∃ now, next.parallel? id = some now ∧
      now.path = parallel.path ∧ now.edges = parallel.edges ∧ now.isExplicit = parallel.isExplicit) :
    next.Grounded id name := by
  obtain ⟨other, last, onward, found, explicit, tip⟩ := grounded
  obtain ⟨now, present, path, _, kind⟩ := keeps other last found
  refine ⟨other, now, Relation.ReflTransGen.mono (fun above below member => ?_) _ _ onward, present,
    kind.trans explicit, path ▸ tip⟩
  obtain ⟨parallel, there, listed⟩ := List.mem_flatMap.mp member
  obtain ⟨again, standing, _, edges, _⟩ := keeps above parallel (Option.mem_toList.mp there)
  rwa [edgesOf_eq standing, edges]

theorem AllGrounded.cutCycles (grounded : session.AllGrounded) (scene : Scene) :
    (session.cutCycles scene).AllGrounded := by
  intro id now found
  obtain ⟨parallel, there, rfl⟩ := parallel?_of_cutCycles found
  exact (grounded id parallel there).mono fun other again known =>
    ⟨_, parallel?_cutCycles_of scene known, rfl, rfl, isExplicit_congr (node_dropBases _ again)⟩

/-- Below what reaches a name, overriding leads from child to child until one is declared. -/
theorem Orderly.grounded_of_below (orderly : session.Orderly scene)
    {above other : ParallelId} (below : session.Below above other) (stands : session.hasChildNode scene name other)
    (wired : ∀ id parallel, session.parallel? id = some parallel →
      session.Grounded id parallel.path.tip ∨ session.Mirrored scene id parallel)
    {child : ParallelId} (standing : session.ChildOf name above child) : session.Grounded child name := by
  induction below using Relation.ReflTransGen.head_induction_on generalizing child with
  | refl =>
    obtain ⟨around, parallel, found, present, path⟩ := standing
    simp only [hasChildNode, found, Option.any_some, ← path, ← orderly.kinds child parallel present,
      Option.isSome_map] at stands
    exact ⟨child, parallel, .refl, present, stands, by rw [path, TypePath.tip_child]⟩
  | @head above branch step below ih =>
    obtain ⟨inner, beside⟩ := orderly.complete above name ⟨child, standing⟩ branch step ⟨other, below, stands⟩
    have deeper := ih beside
    obtain ⟨around, parallel, _, present, path⟩ := id standing
    have tip : parallel.path.tip = name := by rw [path, TypePath.tip_child]
    rcases wired child parallel present with grounded | mirrored
    · exact tip ▸ grounded
    · by_cases same : inner = child
      · exact same ▸ deeper
      · have edge : inner ∈ parallel.edges := by
          rw [mirrored.edges, tip]
          exact ⟨same, above, branch, standing, step, ⟨other, below, stands⟩, beside⟩
        obtain ⟨last, final, onward, rest⟩ := deeper
        refine ⟨last, final, .head ?_ onward, rest⟩
        rwa [edgesOf_eq present]

theorem AtRest.allGrounded_advance (rest : session.AtRest scene) (advances : Advances scene none session next)
    (grounded : session.AllGrounded) : next.AllGrounded := by
  have keeps (id : ParallelId) (parallel : Parallel) (found : session.parallel? id = some parallel) :
      ∃ now, next.parallel? id = some now ∧ now.path = parallel.path ∧ now.edges = parallel.edges ∧
        now.isExplicit = parallel.isExplicit := by
    have same := (advances.steady rest.sane).parallels id (rest.settled id parallel found)
    exact ⟨parallel, same.trans found, rfl, rfl, rfl⟩
  have old {id : ParallelId} {now parallel : Parallel} (found : next.parallel? id = some now)
      (before : session.parallel? id = some parallel) : next.Grounded id now.path.tip := by
    obtain ⟨again, present, path, _⟩ := keeps id parallel before
    cases found.symm.trans present
    exact path ▸ (grounded id parallel before).mono keeps
  intro id parallel found
  cases before : session.parallel? id with
  | some earlier => exact old found before
  | none =>
    cases container : parallel.path.container? with
    | none => exact ⟨id, parallel, .refl, found, advances.orderly.roots id parallel found container, rfl⟩
    | some outer =>
      obtain ⟨around, cached, other, below, stands⟩ :=
        (advances.fresh id parallel found before).2.1 outer container
      obtain ⟨inside, known, same⟩ := advances.sane.lookup?_eq_some cached
      refine advances.orderly.grounded_of_below below stands (fun other again there => ?_)
        ⟨inside, parallel, known, found, same ▸ eq_child_tip container⟩
      cases earlier : session.parallel? other with
      | some _ => exact .inl (old there earlier)
      | none => exact .inr (advances.fresh other again there earlier).2.2

end Grounding

section Housing

/-- The container of every parallel is what has been found at the path around it. -/
def Housed (session : Session) : Prop :=
  ∀ id parallel, session.parallel? id = some parallel →
    parallel.container = parallel.path.container?.bind session.lookup?

theorem AtRest.housed_advance (rest : session.AtRest scene) (advances : Advances scene none session next)
    (housed : session.Housed) : next.Housed := by
  intro id parallel found
  cases before : session.parallel? id with
  | none => exact (advances.fresh id parallel found before).2.2.container
  | some old =>
    rw [(advances.steady rest.sane).parallels id (rest.settled id old before), before] at found
    cases found
    rw [housed id parallel before]
    cases container : parallel.path.container? with
    | none => rfl
    | some outer =>
      obtain ⟨around, cached, _⟩ := rest.orderly.enclosed id parallel before outer container
      simp only [Option.bind_some, cached, advances.lookup? rest.sane cached]

theorem Housed.cutCycles (housed : session.Housed) (sane : session.Sane scene.graph) :
    (session.cutCycles scene).Housed := by
  intro id now found
  obtain ⟨parallel, there, rfl⟩ := parallel?_of_cutCycles found
  have same : (session.cutCycles scene).lookup? = session.lookup? := funext (lookup?_cutCycles sane)
  rw [same]
  exact housed id parallel there

end Housing

/-- What has become of an earlier session. Unless a cycle was cut, what is new mirrors its container, and what
its contract says of it holds. -/
structure Outgrows (scene : Scene) (earlier session : Session) : Prop where
  rest : session.AtRest scene
  acyclic : session.Acyclic
  grounded : session.AllGrounded
  housed : session.Housed
  preserves : Preserves earlier session
  deep : session.Uncut → ∀ id, earlier.Deep id → session.Deep id
  mirrored : session.Uncut → ∀ id parallel, session.parallel? id = some parallel →
    earlier.parallel? id = none → session.Mirrored scene id parallel
  judged : session.Uncut → ∀ id parallel, session.parallel? id = some parallel →
    earlier.parallel? id = none → Judged scene earlier session id

namespace Outgrows

theorem refl (rest : session.AtRest scene) (acyclic : session.Acyclic) (grounded : session.AllGrounded)
    (housed : session.Housed) : Outgrows scene session session where
  rest := rest
  acyclic := acyclic
  grounded := grounded
  housed := housed
  preserves := .refl session
  deep _ _ finished := finished
  mirrored _ _ _ found absent := by simp [found] at absent
  judged _ _ _ found absent := by simp [found] at absent

/-- A session without parallels is where growth begins. -/
theorem of_calm {version : Nat} (calm : Calm (empty version) session) : Outgrows scene session session := by
  have nothing (id : ParallelId) : session.parallel? id = none := by
    simp [parallel?, calm.parallels, empty]
  refine refl (atRest_of_calm calm) (fun id cycle => ?_) (fun id parallel found => ?_) fun id parallel found => ?_
  · obtain ⟨base, step, _⟩ := Relation.TransGen.head'_iff.mp cycle
    simp [Inherits, basesOf, nothing] at step
  · simp [nothing] at found
  · simp [nothing] at found

/-- Sessions look at no more of a scene than its graph, and at whether contracts are checked. -/
theorem congr_scene {other : Scene} (outgrows : Outgrows scene earlier session) (graph : other.graph = scene.graph)
    (checks : other.checksContracts = scene.checksContracts) : Outgrows other earlier session := by
  obtain ⟨⟨sane, orderly, idle, quiet, settled⟩, acyclic, grounded, housed, preserves, deep, mirrored, judged⟩ :=
    outgrows
  cases scene; cases other
  cases graph; cases checks
  refine ⟨⟨sane, orderly.congr_scene rfl, idle, quiet, settled⟩, acyclic, grounded, housed, preserves, deep, ?_,
    judged⟩
  intro uncut id parallel found absent
  obtain ⟨container, edges⟩ := mirrored uncut id parallel found absent
  exact ⟨container, edges⟩

theorem advance (outgrows : Outgrows scene earlier session) (framed : scene.graph.Framed)
    (advances : Advances scene none session next) : Outgrows scene earlier (next.cutCycles scene) := by
  have rest := outgrows.rest
  have nextRest := rest.advance advances
  have steady := advances.steady rest.sane
  have before (uncut : next.Uncut) : session.Uncut := uncut.of_remembers advances.remembers
  have preserves := outgrows.preserves.trans (rest.preserves outgrows.acyclic framed advances)
  refine ⟨nextRest.cutCycles, nextRest.acyclic_cutCycles,
    (rest.allGrounded_advance advances outgrows.grounded).cutCycles scene,
    (rest.housed_advance advances outgrows.housed).cutCycles advances.sane, preserves, ?_, ?_, ?_⟩
  all_goals
    intro uncut
    have same := advances.sane.cutCycles_of_uncut uncut
    rw [same] at uncut ⊢
  · exact fun id finished => steady.deep (outgrows.deep (before uncut) id finished)
  · intro id parallel found absent
    cases known : session.parallel? id with
    | some old =>
      rw [steady.parallels id (rest.settled id old known), known] at found
      cases found
      exact (outgrows.mirrored (before uncut) id parallel known absent).steady known rest.sane advances.sane
        rest.orderly steady advances.grows
    | none => exact (advances.fresh id parallel found known).2.2
  · intro id parallel found absent
    cases known : session.parallel? id with
    | some old =>
      exact (outgrows.judged (before uncut) id old known absent).carry (rest.settled id old known) rest.sane
        (advances.accrues rest.orderly) steady (outgrows.deep (before uncut))
    | none =>
      have new : id ∉ session.settled := by
        intro settled
        obtain ⟨_, there, _⟩ := rest.sane.settled id settled
        simp [known] at there
      exact (advances.judged id (nextRest.settled id parallel found) new).weaken (outgrows.deep (before uncut))

theorem drill_ensures (outgrows : Outgrows scene earlier session) (coherent : scene.graph.Coherent)
    (path : TypePath) : Ensures (session.drill scene path) fun result => Outgrows scene earlier result.2 := by
  unfold drill
  refine (outgrows.rest.drillWithin_ensures coherent (drillBound scene) path).bind fun result settles => .pure ?_
  exact outgrows.advance coherent.toFramed settles.1

end Outgrows

section Grown

variable {start : Session} {parallel : Parallel}

/-- What the branches of the container have at the name of the parallel is there, and the parallel overrides it
and nothing else. -/
structure MirrorsContainer (scene : Scene) (session : Session) (outer : ParallelId) (parallel : Parallel) :
    Prop where
  within : ∃ around, session.parallel? outer = some around ∧ parallel.path.container? = some around.path
  edges : ∀ edge, edge ∈ parallel.edges ↔ ∃ branch ∈ session.branchesOf outer,
    session.Reaches scene parallel.path.tip branch ∧ session.ChildOf parallel.path.tip branch edge
  cached : ∀ branch ∈ session.branchesOf outer, session.Reaches scene parallel.path.tip branch →
    ∃ edge, session.ChildOf parallel.path.tip branch edge

variable (nothing : start.parallels = []) (outgrows : Outgrows scene start session) (uncut : session.Uncut)
  (found : session.parallel? id = some parallel)

include nothing in
theorem parallel?_eq_none (id : ParallelId) : start.parallel? id = none := by
  simp only [Session.parallel?, nothing, List.getElem?_nil]

include nothing outgrows uncut found in
theorem Outgrows.mirrorsContainer {outer : ParallelId} (container : parallel.container = some outer) :
    session.MirrorsContainer scene outer parallel := by
  have mirrored (id : ParallelId) (parallel : Parallel) (found : session.parallel? id = some parallel) :=
    outgrows.mirrored uncut id parallel found (parallel?_eq_none nothing id)
  have sane := outgrows.rest.sane
  have within := (mirrored id parallel found).container
  rw [container, eq_comm, Option.bind_eq_some_iff] at within
  obtain ⟨path, outside, cached⟩ := within
  obtain ⟨around, present, rfl⟩ := sane.lookup?_eq_some cached
  have stands : session.ChildOf parallel.path.tip outer id :=
    ⟨around, parallel, present, found, eq_child_tip outside⟩
  -- A container among its own branches would override itself or inherit itself.
  have apart : outer ∉ session.branchesOf outer := by
    intro member
    rcases mem_branchesOf_iff.mp member with edge | base
    · rw [edgesOf_eq present] at edge
      exact (((mirrored outer around present).edges outer).mp edge).1 rfl
    · exact outgrows.acyclic outer (.single base)
  refine ⟨⟨around, present, outside⟩, fun edge => ?_, fun branch member reaches => ?_⟩
  · rw [(mirrored id parallel found).edges]
    constructor
    · rintro ⟨_, other, branch, beside, member, reaches, below⟩
      obtain ⟨rfl, _⟩ := beside.container_unique sane stands
      exact ⟨branch, member, reaches, below⟩
    · rintro ⟨branch, member, reaches, below⟩
      refine ⟨?_, outer, branch, stands, member, reaches, below⟩
      rintro rfl
      exact apart ((below.container_unique sane stands).1 ▸ member)
  · exact outgrows.rest.orderly.complete outer _ ⟨id, stands⟩ branch member reaches

/-- What the contract of a parallel says, in a session that has outgrown an earlier one. Its conditions are
demanded, and those it holds satisfied lie in the lineage of a base. Of what was there before the parallel came
it misses nothing. -/
structure Faithful (earlier session : Session) (id : ParallelId) (contract : Contract) : Prop where
  known : ∀ condition ∈ contract.unsatisfied, condition ∈ contract.conditions
  demanded : ∀ condition ∈ contract.conditions, session.Demands id condition
  satisfied : ∀ condition ∈ contract.conditions, condition ∉ contract.unsatisfied →
    ∃ base ∈ session.basesOf id, session.Below base condition
  complete : earlier.parallel? id = none →
    (∀ other, session.Overrides id other → (earlier.parallel? other).isSome) →
      ∀ condition, session.Demands id condition → condition ∈ contract.conditions
  unmet : earlier.parallel? id = none → ∀ base ∈ session.basesOf id, (earlier.parallel? base).isSome →
    ∀ condition ∈ contract.unsatisfied, ¬session.Below base condition

theorem AtRest.deep_of_isSome (rest : session.AtRest scene) (present : (session.parallel? id).isSome) :
    session.Deep id := by
  obtain ⟨parallel, found⟩ := Option.isSome_iff_exists.mp present
  exact rest.settled.deep rest.sane found

include nothing outgrows uncut found in
theorem Outgrows.exists_faithful (since : Outgrows scene earlier session) (before : earlier.AtRest scene)
    {resolved : Resolved} (explicit : parallel.explicit = some resolved) (checks : scene.checksContracts)
    (overrides : parallel.isApex = false) :
    ∃ contract, resolved.contract = some contract ∧ Faithful earlier session id contract := by
  obtain ⟨contract, stored, verdict⟩ := outgrows.judged uncut id parallel found (parallel?_eq_none nothing id)
    parallel resolved found explicit checks overrides
  -- A parallel that is new has been judged with the earlier session in view.
  have closer (new : earlier.parallel? id = none) : Verdict earlier session id (session.basesOf id) contract := by
    obtain ⟨again, same, verdict⟩ :=
      since.judged uncut id parallel found new parallel resolved found explicit checks overrides
    cases stored.symm.trans same
    exact verdict
  refine ⟨contract, stored, verdict.known, verdict.demanded, verdict.satisfied, fun new there condition => ?_,
    fun new base among there => ?_⟩
  · rintro ⟨other, overridden, path⟩
    refine (closer new).complete (fun other listed => before.deep_of_isSome (there other listed)) other condition
      overridden path ?_
    rintro rfl
    exact since.acyclic _ path
  · exact (closer new).unmet base among (before.deep_of_isSome there)

end Grown

end OutlineTypes.Session
