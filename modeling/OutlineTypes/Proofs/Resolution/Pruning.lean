import OutlineTypes.Proofs.Resolution.Settling

/-! Pruning. A descent reaches out to all that is below its start. It gives a child to whatever leads to a sound
node of the name, to nothing else, and leaves alone what was there before. -/
namespace OutlineTypes.Session

variable {scene : Scene} {session next : Session} {document : DocumentId} {start : ParallelId} {name : Name}
  {answer : Option ParallelId} {layer : List LayerEntry}

/-- What a descent answers and leaves. -/
structure Prunes (scene : Scene) (session : Session) (start : ParallelId) (name : Name)
    (answer : Option ParallelId) (next : Session) : Prop where
  pruned : answer = none ↔ ∀ id, session.Below start id → session.hasChildNode scene name id = false
  still : answer = none → next = session
  answered : ∀ child, answer = some child → ∃ parallel, session.parallel? start = some parallel ∧
    next.lookup? (parallel.path.child name) = some child
  complete : answer ≠ none → ∀ id, session.Below start id → session.Reaches scene name id →
    ∃ parallel child, session.parallel? id = some parallel ∧ next.lookup? (parallel.path.child name) = some child
  /-- What is new is the child of something below the start that leads to a node of the name. -/
  exact : ∀ id parallel, next.parallel? id = some parallel → session.parallel? id = none →
    ∃ container around, session.Below start container ∧ session.Reaches scene name container ∧
      session.parallel? container = some around ∧ parallel.path = around.path.child name ∧
      parallel.container = some container
  kind : ∀ id parallel, next.parallel? id = some parallel → session.parallel? id = none →
    parallel.explicit.map Resolved.node = session.soundNode? scene parallel.path
  old : ∀ id parallel, session.parallel? id = some parallel → next.parallel? id = some parallel
  rest : next = { session with parallels := next.parallels }

theorem not_reaches_iff {id : ParallelId} : ¬session.Reaches scene name id ↔
    ∀ other, session.Below id other → session.hasChildNode scene name other = false := by
  simp only [Reaches, not_exists, not_and, Bool.not_eq_true]

/-- Where the name is not reached there is nothing to do. -/
theorem prunes_none (unreached : ¬session.Reaches scene name start) :
    Prunes scene session start name none session where
  pruned := iff_of_true rfl (not_reaches_iff.mp unreached)
  still _ := rfl
  answered _ found := by contradiction
  complete some_ := absurd rfl some_
  exact id parallel found absent := by
    rw [found] at absent
    contradiction
  kind id parallel found absent := by
    rw [found] at absent
    contradiction
  old _ _ found := found
  rest := rfl

namespace Layout

variable (layout : Layout scene session document start name layer next) (sane : session.Sane scene.graph)
  (held : session.Holds document start)
include layout sane held

/-- Everything below the start that leads to a node of the name has its child cached. -/
theorem lookup?_child {id : ParallelId} (below : session.Below start id) (reaches : session.Reaches scene name id) :
    ∃ parallel child, session.parallel? id = some parallel ∧
      next.lookup? (parallel.path.child name) = some child := by
  obtain ⟨parallel, found, _⟩ := sane.holds_of_below held below
  obtain ⟨child, _, stands⟩ := layout.childOf below reaches
  exact ⟨parallel, child, found, stands.lookup? layout.layered.sane (layout.laying.old id parallel found)⟩

theorem exact {id : ParallelId} {parallel : Parallel} (found : next.parallel? id = some parallel)
    (absent : session.parallel? id = none) : ∃ container around, session.Below start container ∧
      session.Reaches scene name container ∧ session.parallel? container = some around ∧
      parallel.path = around.path.child name ∧ parallel.container = some container := by
  obtain ⟨_, _, _, entry, among, rfl, _, container⟩ := layout.laying.fresh id parallel found absent
  obtain ⟨_, ⟨outer, inner, there, here, path⟩, _⟩ := layout.layered.entries entry among
  obtain ⟨below, reaches⟩ := (layout.listed entry.container).mp (List.mem_map_of_mem among)
  obtain ⟨around, before, _⟩ := sane.holds_of_below held below
  cases found.symm.trans here
  cases (layout.laying.old entry.container around before).symm.trans there
  exact ⟨entry.container, outer, below, reaches, before, path, container⟩

/-- A layer with a child of the start is what a descent should leave. -/
theorem prunes {child : ParallelId} (stands : next.ChildOf name start child)
    (reaches : session.Reaches scene name start) : Prunes scene session start name (some child) next where
  pruned := iff_of_false (by simp) fun none => not_reaches_iff.mpr none reaches
  still none := by contradiction
  answered other same := by
    cases same
    obtain ⟨parallel, found, _⟩ := held
    exact ⟨parallel, found, stands.lookup? layout.layered.sane (layout.laying.old start parallel found)⟩
  complete _ _ below reaches := layout.lookup?_child sane held below reaches
  exact _ _ found absent := layout.exact sane held found absent
  kind id parallel found absent := (layout.laying.fresh id parallel found absent).2.2.1
  old := layout.laying.old
  rest := layout.laying.rest

end Layout

/-- A descent from a parallel of a sane session ends, and has pruned exactly what leads to nothing. -/
theorem Sane.descend_prunes (sane : session.Sane scene.graph) (held : session.Holds document start) (name : Name) :
    Succeeds (session.descend scene start name) fun result =>
      Prunes scene session start name result.1 result.2 := by
  refine ((sane.descend_succeeds held name).and_ensures (sane.descend_lays held name)).mono fun result h => ?_
  obtain ⟨answer, next⟩ := result
  obtain ⟨_, laid⟩ := h
  cases answer with
  | none =>
    obtain ⟨rfl, unreached⟩ := laid
    exact prunes_none unreached
  | some child =>
    obtain ⟨reaches, stands, layer, layout⟩ := laid
    exact layout.prunes sane held stands reaches

end OutlineTypes.Session
