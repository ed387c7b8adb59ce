import OutlineTypes.Proofs.Resolution.Finality
import OutlineTypes.Proofs.Resolution.Tasks

/-! Precedence. What a parallel overrides is raked before it is, and where no bases lead in a cycle that raking
has also ended: a raking that has not could only lead back to the parallel from its own container. Rakings inside
one another never go to longer paths, and at one length they go along branches of containers, which are settled. -/
namespace OutlineTypes

namespace TypePath

/-- The innermost scope of a path is its container. -/
theorem container?_inScope_zero (path : TypePath) (subject : Name) :
    (path.inScope 0 subject).container? = path.container? := by
  have length : (path.inScope 0 subject).length + 0 = path.length := length_inScope path.length_pos
  cases container : (path.inScope 0 subject).container? with
  | none =>
    have single := (Session.upTo_one_of_container? container).1
    have root : path.isRoot = true := decide_eq_true (by omega)
    simp only [container?, root, ↓reduceIte]
  | some outer =>
    obtain ⟨positive, rfl⟩ := container?_inScope container
    have nested : path.isRoot = false := decide_eq_false (by omega)
    simp only [container?, nested, Bool.false_eq_true, ↓reduceIte, Nat.sub_zero]

/-- So what a path finds at its own length is in its container. -/
theorem container?_inScope_of_length {path : TypePath} {longitude : Nat} {subject : Name}
    (bound : longitude < path.length) (same : (path.inScope longitude subject).length = path.length) :
    (path.inScope longitude subject).container? = path.container? := by
  have outward : (path.inScope longitude subject).length + longitude = path.length := length_inScope bound
  obtain rfl : longitude = 0 := by omega
  exact container?_inScope_zero path subject

end TypePath

namespace Session

variable {scene : Scene} {session next last : Session} {id other start child base edge : ParallelId}
  {path inner : TypePath} {parallel now : Parallel} {name : Name} {names rest : List Name} {bound depth : Nat}

section Containers

/-- The parallel of what contains the path. -/
def around? (session : Session) (path : TypePath) : Option ParallelId := path.container?.bind session.lookup?

/-- Every parallel mirrors its container. -/
def AllMirrored (scene : Scene) (session : Session) : Prop :=
  ∀ id parallel, session.parallel? id = some parallel → session.Mirrored scene id parallel

/-- The second parallel is a branch of the first one. -/
def Branches (session : Session) (id branch : ParallelId) : Prop := branch ∈ session.branchesOf id

/-- The first parallel overrides the second one. -/
def Shadows (session : Session) (id edge : ParallelId) : Prop := edge ∈ session.edgesOf id

theorem Shadows.branches (shadows : session.Shadows id edge) : session.Branches id edge :=
  mem_branchesOf_iff.mpr (.inl shadows)

theorem Shadows.below (shadows : Relation.TransGen session.Shadows id other) : session.Below id other :=
  (Relation.TransGen.mono (fun _ _ => Shadows.branches) _ _ shadows).to_reflTransGen

theorem ChildOf.around? (stands : session.ChildOf name other id) (sane : session.Sane scene.graph)
    (found : session.parallel? id = some parallel) : session.around? parallel.path = some other := by
  obtain ⟨outer, again, there, present, path⟩ := stands
  cases found.symm.trans present
  rw [Session.around?, path, TypePath.container?_child, Option.bind_some]
  exact sane.lookup?_path there

variable (sane : session.Sane scene.graph) (orderly : session.Orderly scene) (mirrored : session.AllMirrored scene)

include sane in
theorem Sane.exists_of_branches (found : session.parallel? id = some parallel)
    (branches : session.Branches id other) : ∃ parallel, session.parallel? other = some parallel := by
  rw [Branches, branchesOf_eq found] at branches
  obtain ⟨below, there, _⟩ := sane.branches id parallel found other branches
  exact ⟨below, there⟩

include sane orderly in
/-- Branches lead to no longer path. -/
theorem Orderly.length_le (found : session.parallel? id = some parallel) (below : session.Below id other)
    (there : session.parallel? other = some now) : now.path.length ≤ parallel.path.length := by
  induction below generalizing now with
  | refl =>
    cases found.symm.trans there
    exact Nat.le_refl _
  | @tail between other below step ih =>
    obtain ⟨middle, present, _⟩ := sane.holds_of_below ⟨parallel, found, rfl⟩ below
    rw [branchesOf_eq present] at step
    exact (orderly.shorter between middle present other step now there).trans (ih present)

include orderly sane in
/-- What contains a parallel has one of its own, and all below that is settled. -/
theorem Orderly.deep_of_around? (found : session.parallel? id = some parallel)
    (around : session.around? parallel.path = some other) :
    ∃ outer, session.parallel? other = some outer ∧ outer.path.length < parallel.path.length ∧
      session.Deep other := by
  obtain ⟨path, container, cached⟩ := Option.bind_eq_some_iff.mp around
  obtain ⟨again, known, deep⟩ := orderly.enclosed id parallel found path container
  cases cached.symm.trans known
  obtain ⟨outer, there, rfl⟩ := sane.lookup?_eq_some cached
  obtain ⟨_, _, length⟩ := TypePath.of_container? container
  exact ⟨outer, there, by omega, deep⟩

include sane mirrored in
/-- An edge stands for a branch of the container. -/
theorem AllMirrored.branches (found : session.parallel? id = some parallel) (shadows : session.Shadows id edge)
    (there : session.parallel? edge = some now) :
    ∃ above below, session.around? parallel.path = some above ∧ session.around? now.path = some below ∧
      session.Branches above below := by
  rw [Shadows, edgesOf_eq found] at shadows
  obtain ⟨_, above, below, stands, branch, _, beside⟩ := ((mirrored id parallel found).edges edge).mp shadows
  exact ⟨above, below, stands.around? sane found, beside.around? sane there, branch⟩

include sane mirrored in
/-- So what edges lead to stands for what branches of the container lead to. -/
theorem AllMirrored.above (found : session.parallel? id = some parallel)
    (shadows : Relation.TransGen session.Shadows id other) (there : session.parallel? other = some now) :
    ∃ above below, session.around? parallel.path = some above ∧ session.around? now.path = some below ∧
      Relation.TransGen session.Branches above below := by
  induction shadows generalizing now with
  | single step =>
    obtain ⟨above, below, around, beside, branch⟩ := mirrored.branches sane found step there
    exact ⟨above, below, around, beside, .single branch⟩
  | @tail between other path step ih =>
    obtain ⟨middle, present, _⟩ := sane.holds_of_below ⟨parallel, found, rfl⟩ (Shadows.below path)
    obtain ⟨above, below, around, beside, branches⟩ := ih present
    obtain ⟨again, onward, same, after, branch⟩ := mirrored.branches sane present step there
    cases beside.symm.trans same
    exact ⟨above, onward, around, after, branches.tail branch⟩

include sane orderly in
/-- A base of the same length is in the same container. -/
theorem Orderly.container?_of_inherits (coherent : scene.graph.Coherent) (settled : id ∈ session.settled)
    (found : session.parallel? id = some parallel) (inherits : session.Inherits id base)
    (there : session.parallel? base = some now) (length : now.path.length = parallel.path.length) :
    now.path.container? = parallel.path.container? := by
  obtain ⟨key, entry⟩ := inherits_iff.mp inherits
  cases explicit : parallel.explicit with
  | none => simp [baseEntriesOf, found, Parallel.baseEntries, explicit] at entry
  | some resolved =>
    have listed : (key, base) ∈ resolved.bases.entries := by
      simpa [baseEntriesOf, found, Parallel.baseEntries, explicit] using entry
    obtain ⟨_, edge, outbound, _, candidate, among, again, present, means⟩ :=
      (orderly.answered id settled parallel found resolved explicit).asked _ listed
    cases there.symm.trans present
    obtain ⟨meant, explicitBase, means⟩ := Option.map_eq_some_iff.mp means
    obtain ⟨node, member, number, at_⟩ := sane.explicit id parallel found resolved explicit
    obtain ⟨other, inside, same, here⟩ := sane.explicit base now there meant explicitBase
    obtain ⟨near, target, within_, goal, scope⟩ := coherent.mem_successors member (number ▸ outbound) among
    cases eq_of_key_eq coherent.nodeIds within_ inside (goal.trans (means.symm.trans same.symm))
    rw [here, at_] at scope
    rw [scope] at length ⊢
    exact TypePath.container?_inScope_of_length (at_ ▸ near) length

include sane orderly mirrored in
/-- Branches among paths of one length are bases in one container, or stand for branches of the container. -/
theorem AllMirrored.abreast (coherent : scene.graph.Coherent) (deep : session.Deep id)
    (found : session.parallel? id = some parallel) (branches : Relation.TransGen session.Branches id other)
    (there : session.parallel? other = some now) (length : now.path.length = parallel.path.length) :
    (Relation.TransGen session.Inherits id other ∧ now.path.container? = parallel.path.container?) ∨
      ∃ above below, session.around? parallel.path = some above ∧ session.around? now.path = some below ∧
        Relation.TransGen session.Branches above below := by
  induction branches generalizing now with
  | single step =>
    rcases mem_branchesOf_iff.mp step with overrides | inherits
    · obtain ⟨above, below, around, beside, branch⟩ := mirrored.branches sane found overrides there
      exact .inr ⟨above, below, around, beside, .single branch⟩
    · have container := orderly.container?_of_inherits sane coherent deep.settled found inherits there length
      exact .inl ⟨.single inherits, container⟩
  | @tail between other path step ih =>
    have below : session.Below id between := path.to_reflTransGen
    obtain ⟨middle, present, _⟩ := sane.holds_of_below ⟨parallel, found, rfl⟩ below
    have upper := orderly.length_le sane found below present
    have lower := orderly.length_le sane present (.single step) there
    have before := ih present (by omega)
    rcases mem_branchesOf_iff.mp step with overrides | inherits
    · obtain ⟨again, onward, same, after, branch⟩ := mirrored.branches sane present overrides there
      rcases before with ⟨_, container⟩ | ⟨above, below, around, beside, branches⟩
      · refine .inr ⟨again, onward, ?_, after, .single branch⟩
        rwa [around?, ← container]
      · cases beside.symm.trans same
        exact .inr ⟨above, onward, around, after, branches.tail branch⟩
    · have settled := deep between below
      have container := orderly.container?_of_inherits sane coherent settled present inherits there (by omega)
      rcases before with ⟨bases, same⟩ | ⟨above, below, around, beside, branches⟩
      · exact .inl ⟨bases.tail inherits, container.trans same⟩
      · refine .inr ⟨above, below, around, ?_, branches⟩
        rwa [around?, container]

include sane orderly mirrored in
/-- No branches lead from a parallel back to it where all below it is settled and no bases do so. -/
theorem AllMirrored.not_cyclic (coherent : scene.graph.Coherent) (acyclic : session.Acyclic)
    (deep : session.Deep id) (found : session.parallel? id = some parallel) :
    ¬Relation.TransGen session.Branches id id := by
  -- A cycle stays at one length, so it stands for a shorter one or goes along bases only.
  induction length : parallel.path.length using Nat.strong_induction_on generalizing id parallel with
  | _ length ih =>
    intro cycle
    rcases mirrored.abreast sane orderly coherent deep found cycle found rfl with
      ⟨bases, _⟩ | ⟨above, below, around, same, branches⟩
    · exact acyclic id bases
    · cases around.symm.trans same
      obtain ⟨outer, there, shorter, enclosed⟩ := orderly.deep_of_around? sane found around
      exact ih outer.path.length (by omega) enclosed there rfl branches

end Containers

section Inward

/-- Branches lead from what contains the one path to what contains the other one. -/
def Leads (session : Session) (path other : TypePath) : Prop :=
  ∀ above, session.around? path = some above → ∃ below, session.around? other = some below ∧
    session.Below above below

/-- All rakings that have begun and not ended are of paths that are no shorter than this one. As long as no cycle
was cut, those that are as long have containers that lead to its container. -/
structure Inward (scene : Scene) (path : TypePath) (session : Session) : Prop where
  shorter : ∀ id parallel, session.parallel? id = some parallel → parallel.raked → id ∉ session.settled →
    path.length ≤ parallel.path.length
  mirrored : session.Uncut → session.AllMirrored scene
  leads : session.Uncut → ∀ id parallel, session.parallel? id = some parallel → parallel.raked →
    id ∉ session.settled → path.length = parallel.path.length → session.Leads parallel.path path

theorem Leads.refl (session : Session) (path : TypePath) : session.Leads path path :=
  fun above around => ⟨above, around, .refl⟩

theorem Leads.trans {third : TypePath} (first : session.Leads path inner) (second : session.Leads inner third) :
    session.Leads path third := by
  intro above around
  obtain ⟨between, there, upper⟩ := first above around
  obtain ⟨below, beside, lower⟩ := second between there
  exact ⟨below, beside, upper.trans lower⟩

theorem Leads.of_container? (same : inner.container? = path.container?) : session.Leads path inner := by
  intro above around
  refine ⟨above, ?_, .refl⟩
  rwa [around?, same]

theorem AllMirrored.leads (mirrored : session.AllMirrored scene) (sane : session.Sane scene.graph)
    (found : session.parallel? id = some parallel) (shadows : session.Shadows id edge)
    (there : session.parallel? edge = some now) : session.Leads parallel.path now.path := by
  intro above around
  obtain ⟨again, below, same, beside, branch⟩ := mirrored.branches sane found shadows there
  cases around.symm.trans same
  exact ⟨below, beside, .single branch⟩

/-- What lies around an enclosed path is settled, so branches lead from there as they did. -/
theorem Leads.steady (leads : session.Leads path inner) (enclosed : session.Enclosed path)
    (steady : Steady session next)
    (lookups : ∀ path id, session.lookup? path = some id → next.lookup? path = some id) : next.Leads path inner := by
  intro above around
  obtain ⟨outer, container, cached⟩ := Option.bind_eq_some_iff.mp around
  obtain ⟨again, known, deep⟩ := enclosed outer container
  cases cached.symm.trans (lookups outer again known)
  obtain ⟨below, beside, leads⟩ := leads above (Option.bind_eq_some_iff.mpr ⟨outer, container, known⟩)
  obtain ⟨last, inside, there⟩ := Option.bind_eq_some_iff.mp beside
  exact ⟨below, Option.bind_eq_some_iff.mpr ⟨last, inside, lookups last below there⟩, (steady.below_iff deep).mpr leads⟩

namespace Inward

variable (inward : Inward scene path session)
include inward

theorem congr (parallels : next.parallels = session.parallels) (settled : next.settled = session.settled)
    (cruft : next.cruft = session.cruft) : Inward scene path next := by
  cases session; cases next
  cases parallels; cases settled; cases cruft
  obtain ⟨shorter, mirrored, leads⟩ := inward
  refine ⟨shorter, fun uncut id parallel found => ?_, leads⟩
  exact (mirrored uncut id parallel found).congr rfl rfl

/-- Work goes on with a path that is no longer, and if it is as long, is led to. -/
theorem turn (shorter : inner.length ≤ path.length)
    (leads : session.Uncut → inner.length = path.length → session.Leads path inner) : Inward scene inner session where
  shorter id parallel found raked open_ := shorter.trans (inward.shorter id parallel found raked open_)
  mirrored := inward.mirrored
  leads uncut id parallel found raked open_ same := by
    have upper := inward.shorter id parallel found raked open_
    have first := inward.leads uncut id parallel found raked open_ (by omega)
    exact first.trans (leads uncut (by omega))

theorem inside (inside : Inside path inner) : Inward scene inner session := by
  obtain ⟨count, _, limit, rfl, length⟩ := inside_iff.mp inside
  refine inward.turn (by omega) fun _ same => ?_
  rw [show count = path.length by omega, TypePath.upTo_length]
  exact .refl session path

/-- A session in which all rakings of other paths that have begun have ended, or had begun before. -/
theorem forward (sane : session.Sane scene.graph) (orderly : session.Orderly scene) (nextSane : next.Sane scene.graph)
    (steady : Steady session next) (grows : Extends session next) (uncut : next.Uncut → session.Uncut)
    (containers : ∀ id parallel now, session.parallel? id = some parallel → next.parallel? id = some now →
      now.container = parallel.container)
    (fresh : ∀ id parallel, next.parallel? id = some parallel → session.parallel? id = none →
      next.Mirrored scene id parallel)
    (begun : ∀ id now, next.parallel? id = some now → now.raked → id ∉ next.settled → now.path = path ∨
      ∃ before, session.parallel? id = some before ∧ before.raked) : Inward scene path next := by
  have lookups (path : TypePath) (id : ParallelId) : session.lookup? path = some id → next.lookup? path = some id :=
    grows.lookup? sane nextSane
  have origin {id : ParallelId} {now : Parallel} (found : next.parallel? id = some now) (raked : now.raked)
      (open_ : id ∉ next.settled) : now.path = path ∨ ∃ before, session.parallel? id = some before ∧ before.raked ∧
        id ∉ session.settled ∧ now.path = before.path := by
    refine (begun id now found raked open_).imp_right fun ⟨before, known, raked⟩ => ?_
    obtain ⟨again, present, same, _⟩ := grows.keeps id before known
    cases found.symm.trans present
    exact ⟨before, known, raked, fun settled => open_ (steady.settled settled), same⟩
  refine ⟨fun id now found raked open_ => ?_, fun clean id now found => ?_,
    fun clean id now found raked open_ same => ?_⟩
  · rcases origin found raked open_ with here | ⟨before, known, raked, waits, there⟩
    · exact here ▸ Nat.le_refl _
    · rw [there]
      exact inward.shorter id before known raked waits
  · cases before : session.parallel? id with
    | none => exact fresh id now found before
    | some parallel =>
      obtain ⟨again, present, path, edges, _⟩ := grows.keeps id parallel before
      cases found.symm.trans present
      have mirrored := inward.mirrored (uncut clean) id parallel before
      have still := mirrored.steady before sane nextSane orderly steady grows
      exact still.revise path edges (containers id parallel now before found)
  · rcases origin found raked open_ with here | ⟨before, known, raked, waits, there⟩
    · exact here ▸ .refl next path
    · rw [there] at same ⊢
      have leads := inward.leads (uncut clean) id before known raked waits same
      exact leads.steady (orderly.enclosed id before known) steady lookups

theorem advance {free : Option ParallelId} (orderly : session.Orderly scene)
    (advances : Advances scene free session next) : Inward scene path next := by
  have sane := advances.before
  refine inward.forward sane orderly advances.sane (advances.steady sane) advances.grows
    (fun uncut => uncut.of_remembers advances.remembers) advances.containers
    (fun id parallel found absent => (advances.fresh id parallel found absent).2.2) fun id now found raked open_ => ?_
  exact .inr ((advances.ended id now found raked).resolve_left open_)

theorem lay (sane : session.Sane scene.graph) (orderly : session.Orderly scene)
    (laid : Laid scene session child next) : Inward scene path next := by
  refine inward.forward sane orderly laid.sane (laid.steady sane) laid.grows (fun uncut => ?_)
    (fun id parallel now found present => ?_)
    (fun id parallel found absent => (laid.fresh id parallel found absent).2.2) fun id now found raked _ => ?_
  · rw [laid.rest] at uncut
    exact uncut
  · rw [laid.old_of_found found present]
  · cases before : session.parallel? id with
    | none => simp [(laid.fresh id now found before).1] at raked
    | some parallel =>
      cases laid.old_of_found before found
      exact .inr ⟨now, rfl, raked⟩

/-- The raking of the path itself begins. -/
theorem mark (sane : session.Sane scene.graph) (orderly : session.Orderly scene)
    (found : session.parallel? id = some parallel) (unraked : parallel.raked = false) (here : parallel.path = path) :
    Inward scene path (session.markRaked id) := by
  refine inward.forward sane orderly (sane_markRaked sane id) (steady_markRaked sane found unraked)
    (extends_markRaked session id) (fun uncut => uncut) (fun other before now known present => ?_)
    (fun other now present absent => ?_) fun other now present raked _ => ?_
  all_goals obtain ⟨again, there, same⟩ := exists_of_modified id _ present
  · cases known.symm.trans there
    rcases same with rfl | ⟨_, rfl⟩ <;> rfl
  · cases absent.symm.trans there
  · rcases same with rfl | ⟨rfl, rfl⟩
    · exact .inr ⟨now, there, raked⟩
    · cases found.symm.trans there
      exact .inl here

end Inward

/-- The raking of the path itself has begun and has gone on to what it overrides. -/
theorem Inward.rakeEach (inward : Inward scene parallel.path session) (coherent : scene.graph.Coherent)
    (poised : Poised scene parallel.path.length session) (found : session.parallel? id = some parallel)
    (unraked : parallel.raked = false) {edges : List ParallelId} (overridden : edges ⊆ parallel.edges.toList)
    (raked : edges.foldlM (fun session edge => rakeWithin (drillWithin scene bound) scene depth edge session)
      (session.markRaked id) = .ok next) : Inward scene parallel.path next := by
  obtain ⟨advances, _⟩ := poised.rakeEach_advances coherent found unraked overridden raked
  have marked := inward.mark poised.sane poised.orderly found unraked rfl
  exact marked.advance (orderly_markRaked poised.sane poised.orderly found unraked) advances

/-- Then it goes on to one of these, which is no longer and in a container that is led to. -/
theorem Inward.override (inward : Inward scene parallel.path session) (coherent : scene.graph.Coherent)
    (poised : Poised scene parallel.path.length session) (found : session.parallel? id = some parallel)
    (unraked : parallel.raked = false) {front back : List ParallelId}
    (split : parallel.edges.toList = front ++ edge :: back)
    (raked : front.foldlM (fun session edge => rakeWithin (drillWithin scene bound) scene depth edge session)
      (session.markRaked id) = .ok next) :
    ∃ other, next.parallel? edge = some other ∧ Inward scene other.path next := by
  have overridden : front ⊆ parallel.edges.toList := by simp [split]
  obtain ⟨present, _, now⟩ := poised.rakeEach coherent found unraked overridden raked
  have onward := inward.rakeEach coherent poised found unraked overridden raked
  have shadows : next.Shadows id edge := by
    rw [Shadows, edgesOf_eq present, split]
    exact List.mem_append_right _ List.mem_cons_self
  obtain ⟨other, standing⟩ := now.sane.exists_of_branches present shadows.branches
  have shorter := now.orderly.length_le now.sane present (.single shadows.branches) standing
  refine ⟨other, standing, onward.turn shorter fun uncut _ => ?_⟩
  have leads := (onward.mirrored uncut).leads now.sane present shadows standing
  exact leads

/-- An edge goes on to a candidate, which is shorter or in the same container. -/
theorem Inward.candidate {contract : Option Contract} {asked : Edge} {node other : Node} {trials : List Trial}
    {candidate : Successor} {back : List Successor} (inward : Inward scene parallel.path session)
    (coherent : scene.graph.Coherent) (facing : Facing scene id contract session asked parallel node)
    (split : session.candidatesOf asked = trials.map Trial.candidate ++ candidate :: back)
    (tried : Trials (drillWithin scene bound) scene session trials next)
    (stands : scene.graph.node? candidate.node = some other) : Inward scene other.path next := by
  have onward := inward.advance facing.poised.orderly (facing.advances coherent split tried)
  have listed : candidate ∈ session.candidatesOf asked := by simp [split]
  obtain ⟨near, scope⟩ := facing.inScope coherent listed stands
  rw [scope]
  apply onward.turn (Nat.le.intro (TypePath.length_inScope near))
  exact fun _ same => .of_container? (TypePath.container?_inScope_of_length near same)

/-- Nothing is being raked in a session where everything has settled. -/
theorem AllSettled.inward (settled : session.AllSettled) (mirrored : session.Uncut → session.AllMirrored scene)
    (path : TypePath) : Inward scene path session where
  shorter id parallel found _ open_ := absurd (settled id parallel found) open_
  mirrored := mirrored
  leads _ id parallel found _ open_ := absurd (settled id parallel found) open_

end Inward

namespace Task

/-- Where a task stands among the rakings under way. -/
def Inward (scene : Scene) : Task → Prop
  | .drill _ path session => Session.Inward scene path session
  | .follow _ names start session => ∃ path, Heading scene path names start session ∧ Session.Inward scene path session
  | .descent _ _ _ => True
  | .rake _ _ id session | .edge _ id _ session _ =>
    ∃ parallel, session.parallel? id = some parallel ∧ Session.Inward scene parallel.path session
  | .answer _ id session => ∃ parallel, session.parallel? id = some parallel ∧
    Session.Inward scene parallel.path session ∧
    ∀ edge ∈ parallel.edges, ∃ other, session.parallel? edge = some other ∧ other.raked

/-- Every task begins those of its work further in. -/
theorem Starts.inward (coherent : scene.graph.Coherent) {outer inner : Task} (starts : Starts scene outer inner)
    (ready : outer.Ready scene) (inward : outer.Inward scene) : inner.Inward scene := by
  cases starts with
  | resume _ _ cached =>
    obtain ⟨poised, free⟩ := ready
    exact ⟨_, poised.enter.resume free cached, Session.Inward.congr inward rfl rfl rfl⟩
  | @surface _ path session _ _ absent _ uncached sound inserted =>
    have entered := ready.1.enter
    have begun : Session.Inward scene path (session.enter path) := Session.Inward.congr inward rfl rfl rfl
    obtain ⟨laid, known⟩ := insert_laid entered.sane entered.orderly
      (lookup?_of_longestCached?_eq_none absent uncached) (container?_upTo_one path) sound _ inserted
    obtain ⟨parallel, found, same⟩ := laid.sane.lookup?_eq_some known
    refine ⟨parallel, found, ?_⟩
    rw [same]
    exact (begun.inside (inside_upTo_one path)).lay entered.sane entered.orderly laid
  | @surfaced _ path session _ _ absent _ uncached done =>
    obtain ⟨poised, free⟩ := ready
    have entered := poised.enter
    have begun : Session.Inward scene path (session.enter path) := Session.Inward.congr inward rfl rfl rfl
    have missing := lookup?_of_longestCached?_eq_none absent uncached
    obtain ⟨advances, _⟩ := entered.surface_advances coherent missing done
    exact ⟨path, entered.surfaced free coherent missing uncached done, begun.advance entered.orderly advances⟩
  | descend => trivial
  | rakeChild descended =>
    obtain ⟨path, heading, inward⟩ := inward
    obtain ⟨laid, outer, inside, cached, _⟩ := heading.laid descended
    obtain ⟨parallel, found, rfl⟩ := laid.sane.lookup?_eq_some cached
    exact ⟨parallel, found, (inward.inside inside).lay heading.sane heading.orderly laid⟩
  | follow descended raked =>
    obtain ⟨path, heading, inward⟩ := inward
    obtain ⟨advances, _⟩ := heading.advances coherent descended raked
    exact ⟨path, heading.follow coherent descended raked, inward.advance heading.orderly advances⟩
  | override found unraked split raked =>
    obtain ⟨_, there, poised⟩ := ready
    cases found.symm.trans there
    obtain ⟨_, same, inward⟩ := inward
    cases found.symm.trans same
    exact inward.override coherent poised found unraked split raked
  | @answer _ _ id _ next parallel found unraked raked =>
    obtain ⟨_, there, poised⟩ := ready
    cases found.symm.trans there
    obtain ⟨_, same, inward⟩ := inward
    cases found.symm.trans same
    obtain ⟨_, finished⟩ := poised.rakeEach_advances coherent found unraked (List.Subset.refl _) raked
    obtain ⟨present, _⟩ := poised.rakeEach coherent found unraked (List.Subset.refl _) raked
    exact ⟨_, present, inward.rakeEach coherent poised found unraked (List.Subset.refl _) raked, finished⟩
  | @edge _ id session parallel _ _ _ _ _ _ _ found explicit stands demanded split raked =>
    obtain ⟨_, there, begun, unsettled, pristine, poised⟩ := ready
    cases found.symm.trans there
    obtain ⟨_, same, inward, _⟩ := inward
    cases found.symm.trans same
    have start : Session.Inward scene parallel.path { session with raking := id :: session.raking } :=
      inward.congr rfl rfl rfl
    obtain ⟨path, answering⟩ := poised.answering coherent found begun unsettled pristine explicit stands demanded
      split raked
    obtain ⟨now, _, present, _, at_, _⟩ := answering.answered
    refine ⟨now, present, ?_⟩
    rw [at_, path]
    exact start.advance (poised.begin_ found begun unsettled).orderly answering.advances
  | candidate _ split tried _ stands =>
    obtain ⟨_, _, facing⟩ := ready
    obtain ⟨_, same, inward⟩ := inward
    cases facing.found.symm.trans same
    exact inward.candidate coherent facing split tried stands

/-- However deep in the work of a drill a task is begun, it is begun further in. -/
theorem Within.inward (coherent : scene.graph.Coherent) {outer inner : Task} (within_ : Within scene outer inner)
    (ready : outer.Ready scene) (inward : outer.Inward scene) : inner.Inward scene := by
  induction within_ with
  | refl => exact inward
  | tail before starts ih => exact starts.inward coherent (Within.ready coherent before ready) ih

end Task

section Precedence

/-- No bases have led in a cycle so far: no such cycle was cut, and none is there. -/
structure Uncycled (session : Session) : Prop where
  uncut : session.Uncut
  acyclic : session.Acyclic

/-- Cutting the cycles of a session leaves no mark only where bases have never led in one. -/
theorem AtRest.uncut_cutCycles_iff (rest : session.AtRest scene) :
    (session.cutCycles scene).Uncut ↔ session.Uncycled := by
  constructor
  · intro uncut
    have same := rest.sane.cutCycles_of_uncut uncut
    have acyclic := rest.acyclic_cutCycles
    rw [same] at uncut acyclic
    exact ⟨uncut, acyclic⟩
  · rintro ⟨uncut, acyclic⟩
    rw [rest.sane.cutCycles_of_acyclic acyclic]
    exact uncut

/-- What a parallel overrides has settled when it is to be answered: if not, branches of its container would lead
in a cycle. -/
theorem Inward.settled_of_shadows (coherent : scene.graph.Coherent) (inward : Inward scene parallel.path session)
    (sane : session.Sane scene.graph) (orderly : session.Orderly scene) (uncycled : session.Uncycled)
    (found : session.parallel? id = some parallel) (shadows : Relation.TransGen session.Shadows id other)
    (there : session.parallel? other = some now) (raked : now.raked) : other ∈ session.settled := by
  by_contra open_
  have below := Shadows.below shadows
  have lower := inward.shorter other now there raked open_
  have upper := orderly.length_le sane found below there
  have mirrored := inward.mirrored uncycled.uncut
  obtain ⟨above, onto, around, beside, branches⟩ := mirrored.above sane found shadows there
  obtain ⟨again, same, back⟩ := inward.leads uncycled.uncut other now there raked open_ (by omega) onto beside
  cases around.symm.trans same
  obtain ⟨outer, standing, _, deep⟩ := orderly.deep_of_around? sane found around
  exact mirrored.not_cyclic sane orderly coherent uncycled.acyclic deep standing (branches.trans_left back)

/-- All that a parallel overrides has settled when its own edges are answered. -/
theorem Task.settled_of_answer (coherent : scene.graph.Coherent) (uncycled : session.Uncycled)
    (ready : (Task.answer bound id session).Ready scene) (inward : (Task.answer bound id session).Inward scene)
    (shadows : Relation.TransGen session.Shadows id other) : other ∈ session.settled := by
  obtain ⟨parallel, found, _, _, _, poised⟩ := ready
  obtain ⟨_, same, inward, finished⟩ := inward
  cases found.symm.trans same
  induction shadows with
  | single step =>
    have listed := step
    rw [Shadows, edgesOf_eq found] at listed
    obtain ⟨now, there, raked⟩ := finished _ listed
    exact inward.settled_of_shadows coherent poised.sane poised.orderly uncycled found (.single step) there raked
  | @tail between other path step ih =>
    obtain ⟨now, there, raked⟩ := poised.orderly.edgesRaked between ih other step
    exact inward.settled_of_shadows coherent poised.sane poised.orderly uncycled found (path.tail step) there raked

end Precedence

end Session
end OutlineTypes
