import OutlineTypes.Proofs.Resolution.Orderly

/-! Layers. A descent from a deep parallel gives a child to everything below the parallel from which the
name is reached, and to nothing else; the new children are connected by what they override. -/
namespace OutlineTypes.Session

variable {scene : Scene} {session next : Session} {document : DocumentId} {name : Name}
  {layer done : List LayerEntry}

section Insert

/-- What a new parallel is like. -/
theorem insert_ensures (session : Session) (path : TypePath) (container : Option ParallelId)
    (node : Option NodeId) :
    Ensures (session.insert path container node) fun result =>
      result.1 = ⟨session.size⟩ ∧ result.2 = { session with parallels := result.2.parallels } ∧
      ∀ id parallel, result.2.parallel? id = some parallel ↔ session.parallel? id = some parallel ∨
        id = result.1 ∧ parallel = ⟨result.1, path, container, ∅, node.map fun node => ⟨node, ∅, none⟩, false⟩ := by
  unfold insert
  split
  · exact .error _
  · exact .ok ⟨rfl, rfl, parallel?_append session _⟩

end Insert

/-- What a layer is like while it is being built: all of `layer` has entered, and `done` has been wired. -/
structure Laying (scene : Scene) (session : Session) (layer done : List LayerEntry) (next : Session) : Prop where
  rest : next = { session with parallels := next.parallels }
  old : ∀ id parallel, session.parallel? id = some parallel → next.parallel? id = some parallel
  fresh : ∀ id parallel, next.parallel? id = some parallel → session.parallel? id = none →
    parallel.raked = false ∧ parallel.baseEntries = [] ∧
    parallel.explicit.map Resolved.node = session.soundNode? scene parallel.path ∧
    ∃ entry ∈ layer, entry.child = id ∧ entry.created ∧ parallel.container = some entry.container
  overrides : ∀ id parallel, next.parallel? id = some parallel → session.parallel? id = none →
    ∀ edge ∈ parallel.edges, edge ≠ id ∧ ∃ entry ∈ layer, entry.child = id ∧
      ∃ branch ∈ session.branchesOf entry.container, childOf? layer branch = some edge
  linked : ∀ entry ∈ done, entry.created → ∀ branch ∈ session.branchesOf entry.container,
    ∀ child, childOf? layer branch = some child → child = entry.child ∨ child ∈ next.edgesOf entry.child

theorem childOf?_append {container child : ParallelId} (found : childOf? layer container = some child)
    (more : List LayerEntry) : childOf? (layer ++ more) container = some child := by
  obtain ⟨entry, met, rfl⟩ := Option.map_eq_some_iff.mp found
  simp [childOf?, List.find?_append, met]

theorem Laying.soundNode? (laying : Laying scene session layer done next) (path : TypePath) :
    next.soundNode? scene path = session.soundNode? scene path := by
  rw [laying.rest]
  rfl

theorem Laying.enterLayer_ensures {state : Session × List LayerEntry}
    (laying : Laying scene session state.2 [] state.1) (container : ParallelId) :
    Ensures (enterLayer scene name state container) fun result => Laying scene session result.2 [] result.1 ∧
      result.2.map LayerEntry.container = state.2.map LayerEntry.container ++ [container] := by
  have more {id : ParallelId} {entry new : LayerEntry} (h : entry ∈ state.2 ∧ entry.child = id) :
      entry ∈ state.2 ++ [new] ∧ entry.child = id := ⟨List.mem_append_left _ h.1, h.2⟩
  unfold enterLayer
  refine (Ensures.anything _).bind fun around _ => ?_
  simp only
  split
  · refine .pure ⟨⟨laying.rest, laying.old, ?_, ?_, by simp⟩, by simp⟩
    · intro id parallel found absent
      obtain ⟨unraked, pristine, kind, entry, listed, child, created⟩ := laying.fresh id parallel found absent
      exact ⟨unraked, pristine, kind, entry, (more ⟨listed, child⟩).1, child, created⟩
    · intro id parallel found absent edge member
      obtain ⟨apart, entry, listed, child, branch, among, below⟩ :=
        laying.overrides id parallel found absent edge member
      exact ⟨apart, entry, (more ⟨listed, child⟩).1, child, branch, among, childOf?_append below _⟩
  · refine (insert_ensures state.1 _ (some container) _).bind fun result inserted => ?_
    obtain ⟨id, last⟩ := result
    obtain ⟨number, rest, split⟩ := inserted
    simp only at number rest split
    refine .pure ⟨⟨?_, ?_, ?_, ?_, by simp⟩, by simp⟩
    · rw [rest, laying.rest]
    · exact fun other parallel found => (split other parallel).mpr (.inl (laying.old other parallel found))
    · intro other parallel found absent
      rcases (split other parallel).mp found with before | ⟨rfl, rfl⟩
      · obtain ⟨unraked, pristine, kind, entry, listed, child, created⟩ := laying.fresh other parallel before absent
        exact ⟨unraked, pristine, kind, entry, (more ⟨listed, child⟩).1, child, created⟩
      · refine ⟨rfl, ?_, ?_, _, List.mem_append_right _ List.mem_cons_self, rfl, rfl, rfl⟩
        · cases state.1.soundNode? scene _ <;> rfl
        · rw [laying.soundNode?]
          cases session.soundNode? scene _ <;> rfl
    · intro other parallel found absent edge member
      rcases (split other parallel).mp found with before | ⟨rfl, rfl⟩
      · obtain ⟨apart, entry, listed, child, branch, among, below⟩ :=
          laying.overrides other parallel before absent edge member
        exact ⟨apart, entry, (more ⟨listed, child⟩).1, child, branch, among, childOf?_append below _⟩
      · exact absurd member (OrderedSet.not_mem_empty edge)

theorem edgesOf_modify_subset {id : ParallelId} {change : Parallel → Parallel}
    (grows : ∀ parallel, ∀ edge ∈ parallel.edges, edge ∈ (change parallel).edges) (other : ParallelId) :
    session.edgesOf other ⊆ (session.modify id change).edgesOf other := by
  intro edge member
  obtain ⟨parallel, found, among⟩ := List.mem_flatMap.mp member
  obtain ⟨now, present, same⟩ := exists_modified id change (Option.mem_toList.mp found)
  rw [edgesOf_eq present]
  rcases same with rfl | ⟨_, rfl⟩
  · exact among
  · exact grows parallel edge among

/-- The parallel of an entry overrides more of its layer. -/
theorem Laying.override (laying : Laying scene session layer done next) {entry : LayerEntry} (among : entry ∈ layer)
    (absent : session.parallel? entry.child = none) (more : List ParallelId)
    (within_ : ∀ edge ∈ more, edge ≠ entry.child ∧
      ∃ branch ∈ session.branchesOf entry.container, childOf? layer branch = some edge) :
    Laying scene session layer done (next.modify entry.child fun child =>
      { child with edges := child.edges.insertAll more }) := by
  let change (child : Parallel) : Parallel := { child with edges := child.edges.insertAll more }
  have rest (parallels : List Parallel) :
      ({ next with parallels } : Session) = { session with parallels } := by rw [laying.rest]
  refine ⟨rest _, ?_, ?_, ?_, ?_⟩
  · intro id parallel before
    rw [parallel?_modify, if_neg]
    · exact laying.old id parallel before
    · rintro rfl
      rw [before] at absent
      contradiction
  · intro id parallel there new
    obtain ⟨before, known, rfl | ⟨rfl, rfl⟩⟩ := exists_of_modified entry.child change there
    · exact laying.fresh id parallel known new
    · exact laying.fresh entry.child before known new
  · intro id parallel there new edge member
    obtain ⟨before, known, rfl | ⟨rfl, rfl⟩⟩ := exists_of_modified entry.child change there
    · exact laying.overrides id parallel known new edge member
    · rcases OrderedSet.mem_insertAll.mp member with earlier | added
      · exact laying.overrides entry.child before known new edge earlier
      · obtain ⟨apart, branches⟩ := within_ edge added
        exact ⟨apart, entry, among, rfl, branches⟩
  · intro other member made branch listed below childFound
    refine (laying.linked other member made branch listed below childFound).imp_right fun edge => ?_
    refine edgesOf_modify_subset (fun parallel edge old => ?_) _ edge
    exact OrderedSet.mem_insertAll.mpr (.inl old)

theorem Laying.wire (laying : Laying scene session layer done next) {entry : LayerEntry} (among : entry ∈ layer)
    {around child : Parallel} (found : session.parallel? entry.container = some around)
    (present : next.parallel? entry.child = some child)
    (absent : entry.created → session.parallel? entry.child = none) :
    Laying scene session layer (done ++ [entry]) (Session.wire layer next entry) := by
  unfold Session.wire
  split
  · rename_i created
    have branches : next.branchesOf entry.container = session.branchesOf entry.container := by
      rw [branchesOf_eq found, branchesOf_eq (laying.old _ _ found)]
    rw [branches]
    let overridden := ((session.branchesOf entry.container).filterMap (childOf? layer)).filter (· ≠ entry.child)
    have wired := laying.override among (absent created) overridden fun edge added => by
      obtain ⟨listed, apart⟩ := List.mem_filter.mp added
      exact ⟨of_decide_eq_true apart, List.mem_filterMap.mp listed⟩
    refine ⟨wired.rest, wired.old, wired.fresh, wired.overrides, fun other member made branch listed => ?_⟩
    intro below childFound
    rcases List.mem_append.mp member with before | last
    · exact wired.linked other before made branch listed below childFound
    · cases List.mem_singleton.mp last
      refine or_iff_not_imp_left.mpr fun apart => ?_
      rw [edgesOf_eq (by rw [parallel?_modify, if_pos rfl, present]; rfl)]
      refine OrderedSet.mem_insertAll.mpr (.inr (List.mem_filter.mpr ⟨?_, by simpa using apart⟩))
      exact List.mem_filterMap.mpr ⟨branch, listed, childFound⟩
  · rename_i kept
    refine ⟨laying.rest, laying.old, laying.fresh, laying.overrides, fun other member made => ?_⟩
    rcases List.mem_append.mp member with before | last
    · exact laying.linked other before made
    · cases List.mem_singleton.mp last
      exact absurd made kept

theorem Laying.wireAll {state : Session × List LayerEntry}
    (layered : Layered scene.graph session document name state) {entries : List LayerEntry}
    (laying : Laying scene session state.2 done state.1) (among : ∀ entry ∈ entries, entry ∈ state.2)
    (held : ∀ entry ∈ state.2, ∃ around, session.parallel? entry.container = some around) :
    Laying scene session state.2 (done ++ entries) (entries.foldl (Session.wire state.2) state.1) := by
  induction entries generalizing state done with
  | nil => simpa using laying
  | cons entry entries ih =>
    have member := among entry List.mem_cons_self
    obtain ⟨around, found⟩ := held entry member
    obtain ⟨_, ⟨_, child, _, present, _⟩, new⟩ := layered.entries entry member
    have wired := laying.wire member found present fun created =>
      List.getElem?_eq_none (new created)
    have all := ih (layered.wire member) wired (fun other later => among other (List.mem_cons_of_mem _ later)) held
    rw [List.append_assoc] at all
    exact all

section ChildOf

variable {graph : Graph} {id other child again : ParallelId}

theorem ChildOf.unique (sane : session.Sane graph) (h : session.ChildOf name id child)
    (k : session.ChildOf name id again) : child = again := by
  obtain ⟨around, parallel, found, present, path⟩ := h
  obtain ⟨outer, inner, there, here, same⟩ := k
  cases found.symm.trans there
  exact sane.paths child again parallel inner present here (path.trans same.symm)

theorem ChildOf.container_unique {last : Name} (sane : session.Sane graph)
    (h : session.ChildOf name id child) (k : session.ChildOf last other child) : id = other ∧ name = last := by
  obtain ⟨around, parallel, found, present, path⟩ := h
  obtain ⟨outer, inner, there, here, same⟩ := k
  cases present.symm.trans here
  have names : name = last := by
    have tips := congrArg TypePath.tip (path.symm.trans same)
    rwa [TypePath.tip_child, TypePath.tip_child] at tips
  subst names
  have paths := TypePath.child_injective (path.symm.trans same)
  exact ⟨sane.paths id other around outer found there paths, rfl⟩

end ChildOf

/-- The name of the path is reached from its container. -/
def Born (session : Session) (scene : Scene) (path : TypePath) : Prop :=
  ∀ outer, path.container? = some outer →
    ∃ around, session.lookup? outer = some around ∧ session.Reaches scene path.tip around

/-- The parallel overrides what the branches of its container have at its name, and nothing else. -/
structure Mirrored (scene : Scene) (session : Session) (id : ParallelId) (parallel : Parallel) : Prop where
  container : parallel.container = parallel.path.container?.bind session.lookup?
  edges : ∀ edge, edge ∈ parallel.edges ↔ edge ≠ id ∧ ∃ around branch,
    session.ChildOf parallel.path.tip around id ∧ branch ∈ session.branchesOf around ∧
      session.Reaches scene parallel.path.tip branch ∧ session.ChildOf parallel.path.tip branch edge

theorem Mirrored.congr {id : ParallelId} {parallel : Parallel} (mirrored : session.Mirrored scene id parallel)
    (parallels : next.parallels = session.parallels) (cruft : next.cruft = session.cruft) :
    next.Mirrored scene id parallel := by
  cases session; cases next
  cases parallels; cases cruft
  exact ⟨mirrored.container, mirrored.edges⟩

theorem Mirrored.revise {id : ParallelId} {parallel now : Parallel} (mirrored : session.Mirrored scene id parallel)
    (path : now.path = parallel.path) (edges : now.edges = parallel.edges)
    (container : now.container = parallel.container) : session.Mirrored scene id now where
  container := by rw [container, path, mirrored.container]
  edges := by
    rw [edges, path]
    exact mirrored.edges

/-- What a parallel mirrors is raked to the end, so it mirrors the same for good. -/
theorem Mirrored.steady {id : ParallelId} {parallel : Parallel} (mirrored : session.Mirrored scene id parallel)
    (found : session.parallel? id = some parallel) (sane : session.Sane scene.graph)
    (nextSane : next.Sane scene.graph) (orderly : session.Orderly scene) (steady : Steady session next)
    (grows : Extends session next) : next.Mirrored scene id parallel where
  container := by
    rw [mirrored.container]
    cases container : parallel.path.container? with
    | none => rfl
    | some outer =>
      obtain ⟨around, cached, _⟩ := orderly.enclosed id parallel found outer container
      simp only [Option.bind_some, cached, grows.lookup? sane nextSane cached]
  edges edge := by
    rw [mirrored.edges]
    refine and_congr_right fun _ => ⟨?_, ?_⟩
    · rintro ⟨around, branch, stands, member, reaches, below⟩
      have deep := orderly.deep_of_hasChild sane ⟨id, stands⟩
      refine ⟨around, branch, stands.extends grows, ?_, ?_, below.extends grows⟩
      · rwa [steady.branchesOf deep.settled]
      · exact (steady.reaches_iff (deep.below (.single member))).mpr reaches
    · rintro ⟨around, branch, stands, member, reaches, below⟩
      have ⟨outer, now, there, present, path⟩ := stands
      obtain ⟨again, known, same, _⟩ := grows.keeps id parallel found
      cases present.symm.trans known
      obtain ⟨other, cached, deep⟩ := orderly.enclosed id parallel found outer.path
        (by rw [← same, path, TypePath.container?_child])
      obtain ⟨before, standing, here⟩ := sane.lookup?_eq_some cached
      have beside : session.ChildOf parallel.path.tip other id :=
        ⟨before, parallel, standing, found, by rw [here, ← same, path, TypePath.tip_child]⟩
      obtain ⟨rfl, _⟩ := (beside.extends grows).container_unique nextSane stands
      rw [steady.branchesOf deep.settled] at member
      have reached := (steady.reaches_iff (deep.below (.single member))).mp reaches
      obtain ⟨child, standing⟩ := orderly.complete other _ ⟨id, beside⟩ branch member reached
      cases below.unique nextSane (standing.extends grows)
      exact ⟨other, branch, beside, member, reached, standing⟩

section Enlarge

/-- Parallels are added and nothing else changes. -/
structure Enlarges (scene : Scene) (session next : Session) : Prop where
  sane : next.Sane scene.graph
  grows : Extends session next
  rest : next = { session with parallels := next.parallels }
  old : ∀ id parallel, session.parallel? id = some parallel → next.parallel? id = some parallel

namespace Enlarges

variable (enlarges : Enlarges scene session next) (sane : session.Sane scene.graph)
  (orderly : session.Orderly scene)

include enlarges sane in
theorem steady : Steady session next where
  parallels id settled := by
    obtain ⟨parallel, found, _⟩ := sane.settled id settled
    rw [found, enlarges.old id parallel found]
  nodes node := by rw [enlarges.rest]
  settled := by
    rw [enlarges.rest]
    exact List.Subset.refl _

include enlarges in
theorem soundNode? (path : TypePath) : next.soundNode? scene path = session.soundNode? scene path := by
  rw [enlarges.rest]
  rfl

include enlarges in
theorem old_of_found {id : ParallelId} {parallel now : Parallel} (found : session.parallel? id = some parallel)
    (present : next.parallel? id = some now) : now = parallel :=
  Option.some.inj (present.symm.trans (enlarges.old id parallel found))

include enlarges sane in
theorem lookup? {path : TypePath} {id : ParallelId} (cached : session.lookup? path = some id) :
    next.lookup? path = some id :=
  enlarges.grows.lookup? sane enlarges.sane cached

include enlarges in
theorem hasChild {id : ParallelId} {last : Name} (child : session.HasChild last id) : next.HasChild last id := by
  obtain ⟨child, stands⟩ := child
  exact ⟨child, stands.extends enlarges.grows⟩

include enlarges sane orderly in
/-- A parallel that was there has a child that was there only if its container was. -/
theorem childOf_of_old {id child : ParallelId} {last : Name} {parallel : Parallel}
    (stands : next.ChildOf last id child) (found : session.parallel? child = some parallel) :
    session.ChildOf last id child := by
  obtain ⟨around, inner, outer, present, path⟩ := stands
  cases enlarges.old_of_found found present
  obtain ⟨other, cached, _⟩ := orderly.enclosed child parallel found around.path
    (path ▸ TypePath.container?_child around.path last)
  obtain ⟨before, known, same⟩ := sane.lookup?_eq_some cached
  have here := enlarges.sane.paths other id before around (enlarges.old other before known) outer same
  subst here
  exact ⟨before, parallel, known, found, by rw [path, same]⟩

/-- What is asked of a new parallel in an orderly session. -/
structure Fresh (scene : Scene) (session next : Session) (parallel : Parallel) : Prop where
  enclosed : next.Enclosed parallel.path
  kind : parallel.explicit.map Resolved.node = session.soundNode? scene parallel.path
  root : parallel.path.container? = none → parallel.isExplicit
  pristine : parallel.baseEntries = []
  shorter : ∀ branch ∈ parallel.branches, ∀ other, next.parallel? branch = some other →
    other.path.length ≤ parallel.path.length

include enlarges in
/-- What holds of the old parallels and of the new ones holds of all. -/
theorem forall_parallels {holds : ParallelId → Parallel → Prop}
    (old : ∀ id parallel, session.parallel? id = some parallel → holds id parallel)
    (new : ∀ id parallel, next.parallel? id = some parallel → session.parallel? id = none → holds id parallel) :
    ∀ id parallel, next.parallel? id = some parallel → holds id parallel := by
  intro id parallel found
  cases before : session.parallel? id with
  | some earlier =>
    cases enlarges.old_of_found before found
    exact old id parallel before
  | none => exact new id parallel found before

include enlarges sane orderly in
theorem orderly_next (fresh : ∀ id parallel, next.parallel? id = some parallel →
      session.parallel? id = none → Fresh scene session next parallel)
    (complete : ∀ id child last, next.ChildOf last id child → session.parallel? child = none →
      ∀ branch ∈ next.branchesOf id, next.Reaches scene last branch → next.HasChild last branch) :
    next.Orderly scene := by
  have steady := enlarges.steady sane
  have settledSame : next.settled = session.settled := by rw [enlarges.rest]
  constructor
  · refine enlarges.forall_parallels (fun id parallel before => ?_) fun id parallel found new =>
      (fresh id parallel found new).enclosed
    exact (orderly.enclosed id parallel before).steady steady fun _ _ => enlarges.lookup? sane
  · rintro id last ⟨child, stands⟩ branch member reaches
    cases before : session.parallel? child with
    | some old =>
      have known : session.HasChild last id := ⟨child, enlarges.childOf_of_old sane orderly stands before⟩
      have deep := orderly.deep_of_hasChild sane known
      rw [steady.branchesOf deep.settled] at member
      have reached := (steady.reaches_iff (deep.below (.single member))).mp reaches
      exact enlarges.hasChild (orderly.complete id last known branch member reached)
    | none => exact complete id child last stands before branch member reaches
  · simp only [enlarges.soundNode?]
    exact enlarges.forall_parallels orderly.kinds fun id parallel found new => (fresh id parallel found new).kind
  · exact enlarges.forall_parallels orderly.roots fun id parallel found new => (fresh id parallel found new).root
  · exact enlarges.forall_parallels orderly.pristine fun id parallel found new _ =>
      (fresh id parallel found new).pristine
  · refine enlarges.forall_parallels (fun id parallel before branch member other present => ?_)
      fun id parallel found new => (fresh id parallel found new).shorter
    obtain ⟨inner, known, _⟩ := sane.branches id parallel before branch member
    cases enlarges.old_of_found known present
    exact orderly.shorter id parallel before branch member other known
  · intro id member edge listed
    rw [settledSame] at member
    have before : edge ∈ session.edgesOf id := by
      rw [edgesOf, steady.parallels id member] at listed
      exact listed
    obtain ⟨parallel, found, raked⟩ := orderly.edgesRaked id member edge before
    exact ⟨parallel, enlarges.old edge parallel found, raked⟩
  · intro id member parallel found resolved explicit
    rw [settledSame] at member
    rw [steady.parallels id member] at found
    refine (orderly.answered id member parallel found resolved explicit).mono (fun edge _ => ?_)
      fun other again there => ⟨again, enlarges.old other again there, rfl⟩
    rw [enlarges.rest]

end Enlarges

/-- What comes of adding parallels on the way to one of them, or to one that was there. -/
structure Laid (scene : Scene) (session : Session) (child : ParallelId) (next : Session) : Prop
    extends Enlarges scene session next where
  orderly : next.Orderly scene
  /-- What is new waits for its raking. -/
  fresh : ∀ id parallel, next.parallel? id = some parallel → session.parallel? id = none →
    parallel.raked = false ∧ next.Born scene parallel.path ∧ next.Mirrored scene id parallel
  /-- Overriding leads from the parallel to everything that is new. -/
  connected : ∀ id parallel, next.parallel? id = some parallel → session.parallel? id = none →
    session.parallel? child = none ∧
    Relation.ReflTransGen (fun a b => b ∈ next.edgesOf a ∧ session.parallel? b = none) child id

end Enlarge

/-- A whole layer: everything from which the name is reached has a child, and the children are wired. -/
structure Layout (scene : Scene) (session : Session) (document : DocumentId) (start : ParallelId) (name : Name)
    (layer : List LayerEntry) (next : Session) : Prop where
  layered : Layered scene.graph session document name (next, layer)
  laying : Laying scene session layer layer next
  listed : ∀ id, id ∈ layer.map LayerEntry.container ↔
    session.Below start id ∧ session.Reaches scene name id

namespace Layout

variable {start : ParallelId} (layout : Layout scene session document start name layer next)
  (sane : session.Sane scene.graph) (orderly : session.Orderly scene) (deep : session.Deep start)

include layout in
theorem enlarges : Enlarges scene session next :=
  ⟨layout.layered.sane, layout.layered.grows, layout.laying.rest, layout.laying.old⟩

include layout in
theorem childOf {id : ParallelId} (below : session.Below start id) (reaches : session.Reaches scene name id) :
    ∃ child, childOf? layer id = some child ∧ next.ChildOf name id child := by
  obtain ⟨entry, member, same⟩ := List.mem_map.mp ((layout.listed id).mpr ⟨below, reaches⟩)
  cases met : layer.find? (·.container = id) with
  | none => simpa [same] using List.find?_eq_none.mp met entry member
  | some entry =>
    have found : childOf? layer id = some entry.child := by simp [childOf?, met]
    exact ⟨entry.child, found, (layout.layered.childOf_of_childOf? found).2⟩

include layout in
/-- Every new parallel entered as the child of a container. -/
theorem entry_of_fresh {id : ParallelId} {parallel : Parallel} (found : next.parallel? id = some parallel)
    (absent : session.parallel? id = none) : ∃ entry ∈ layer, entry.child = id ∧ entry.created ∧
      next.ChildOf name entry.container id ∧ session.Below start entry.container ∧
      session.Reaches scene name entry.container := by
  obtain ⟨_, _, _, entry, member, rfl, created, _⟩ := layout.laying.fresh id parallel found absent
  obtain ⟨_, child, _⟩ := layout.layered.entries entry member
  obtain ⟨below, reaches⟩ := (layout.listed entry.container).mp (List.mem_map_of_mem member)
  exact ⟨entry, member, rfl, created, child, below, reaches⟩

include layout sane orderly in
/-- A new parallel overrides children of what its container branches to, and these are no longer. -/
theorem shorter {id branch : ParallelId} {parallel other : Parallel} (found : next.parallel? id = some parallel)
    (absent : session.parallel? id = none) (member : branch ∈ parallel.branches)
    (present : next.parallel? branch = some other) : other.path.length ≤ parallel.path.length := by
  have old := layout.enlarges
  have pristine := (layout.laying.fresh id parallel found absent).2.1
  rw [Parallel.branches, Parallel.bases, pristine, List.map_nil, List.append_nil] at member
  obtain ⟨_, entry, among, rfl, onto, listed, below⟩ :=
    layout.laying.overrides id parallel found absent branch member
  obtain ⟨_, ⟨around, inner, outer, here, path⟩, _⟩ := layout.layered.entries entry among
  obtain ⟨_, ⟨beside, last, there, standing, same⟩⟩ := layout.layered.childOf_of_childOf? below
  cases found.symm.trans here
  cases present.symm.trans standing
  obtain ⟨_, origin, linked⟩ := List.mem_flatMap.mp listed
  have containing := Option.mem_toList.mp origin
  cases old.old_of_found containing outer
  obtain ⟨_, known, _⟩ := sane.branches entry.container around containing onto linked
  cases old.old_of_found known there
  have bound := orderly.shorter entry.container around containing onto linked beside known
  simp only [path, same, TypePath.length, TypePath.names_child, List.length_append] at bound ⊢
  omega

include layout sane orderly deep in
theorem fresh {id : ParallelId} {parallel : Parallel} (found : next.parallel? id = some parallel)
    (absent : session.parallel? id = none) : Enlarges.Fresh scene session next parallel := by
  obtain ⟨_, pristine, kind, _⟩ := layout.laying.fresh id parallel found absent
  obtain ⟨entry, _, _, _, ⟨around, inner, there, here, path⟩, below, _⟩ := layout.entry_of_fresh found absent
  cases found.symm.trans here
  have container : parallel.path.container? = some around.path := by
    rw [path, TypePath.container?_child]
  refine ⟨fun outer same => ?_, kind, fun root => ?_, pristine, ?_⟩
  · cases container.symm.trans same
    exact ⟨entry.container, layout.layered.sane.lookup?_path there,
      (layout.enlarges.steady sane).deep (deep.below below)⟩
  · rw [container] at root
    contradiction
  · exact fun branch member other present => layout.shorter sane orderly found absent member present

include layout sane deep in
theorem complete {id child branch : ParallelId} {last : Name} (stands : next.ChildOf last id child)
    (absent : session.parallel? child = none) (member : branch ∈ next.branchesOf id)
    (reaches : next.Reaches scene last branch) : next.HasChild last branch := by
  have steady := layout.enlarges.steady sane
  have ⟨_, parallel, _, found, _⟩ := stands
  obtain ⟨entry, _, _, _, again, below, _⟩ := layout.entry_of_fresh found absent
  obtain ⟨rfl, rfl⟩ := again.container_unique layout.layered.sane stands
  have settled := deep.below below
  rw [steady.branchesOf settled.settled] at member
  have reached := (steady.reaches_iff (settled.below (.single member))).mp reaches
  obtain ⟨other, _, standing⟩ := layout.childOf (below.tail member) reached
  exact ⟨other, standing⟩

include layout sane deep in
theorem mirrored {id : ParallelId} {parallel : Parallel} (found : next.parallel? id = some parallel)
    (absent : session.parallel? id = none) : next.Mirrored scene id parallel := by
  have steady := layout.enlarges.steady sane
  have nextSane := layout.layered.sane
  obtain ⟨_, _, _, entry, among, rfl, created, container⟩ := layout.laying.fresh id parallel found absent
  have ⟨_, stands, _⟩ := layout.layered.entries entry among
  have ⟨around, inner, there, here, path⟩ := stands
  cases found.symm.trans here
  have tip : parallel.path.tip = name := by rw [path, TypePath.tip_child]
  obtain ⟨below, _⟩ := (layout.listed entry.container).mp (List.mem_map_of_mem among)
  have branches : next.branchesOf entry.container = session.branchesOf entry.container :=
    steady.branchesOf (deep.below below).settled
  have reached {branch : ParallelId} (member : branch ∈ session.branchesOf entry.container) :
      next.Reaches scene name branch ↔ session.Reaches scene name branch :=
    steady.reaches_iff (deep.below (below.tail member))
  refine ⟨?_, fun edge => ⟨fun member => ?_, ?_⟩⟩
  · rw [container, path, TypePath.container?_child, Option.bind_some, nextSane.lookup?_path there]
  · obtain ⟨apart, again, listed, same, branch, onto, met⟩ :=
      layout.laying.overrides entry.child parallel found absent edge member
    obtain ⟨_, second, _⟩ := layout.layered.entries again listed
    obtain ⟨outer, _⟩ := (same ▸ second).container_unique nextSane stands
    rw [outer] at onto
    refine ⟨apart, entry.container, branch, tip ▸ stands, branches ▸ onto, ?_, ?_⟩
    · rw [tip, reached onto]
      obtain ⟨beside, at_, _⟩ := Option.map_eq_some_iff.mp met
      have inside := (layout.listed beside.container).mp
        (List.mem_map_of_mem (List.mem_of_find?_eq_some at_))
      rw [show beside.container = branch by simpa using List.find?_some at_] at inside
      exact inside.2
    · exact tip ▸ (layout.layered.childOf_of_childOf? met).2
  · rintro ⟨apart, other, branch, beside, member, reaches, onto⟩
    rw [tip] at beside reaches onto
    obtain ⟨rfl, _⟩ := beside.container_unique nextSane stands
    rw [branches] at member
    obtain ⟨child, met, standing⟩ := layout.childOf (below.tail member) ((reached member).mp reaches)
    cases standing.unique nextSane onto
    have listed := (layout.laying.linked entry among created branch member edge met).resolve_left apart
    rwa [edgesOf_eq found] at listed

include layout sane orderly in
theorem connected {child : ParallelId} (stands : next.ChildOf name start child) {id : ParallelId}
    {parallel : Parallel} (found : next.parallel? id = some parallel) (absent : session.parallel? id = none) :
    session.parallel? child = none ∧
    Relation.ReflTransGen (fun a b => b ∈ next.edgesOf a ∧ session.parallel? b = none) child id := by
  obtain ⟨container, standing, below, reaches⟩ : ∃ container, next.ChildOf name container id ∧
      session.Below start container ∧ session.Reaches scene name container := by
    obtain ⟨entry, _, _, _, standing, below, reaches⟩ := layout.entry_of_fresh found absent
    exact ⟨entry.container, standing, below, reaches⟩
  induction below generalizing id parallel with
  | refl =>
    cases stands.unique layout.layered.sane standing
    exact ⟨absent, .refl⟩
  | @tail branch container below member ih =>
    have above := reaches.above (.single member)
    obtain ⟨other, _, beside⟩ := layout.childOf below above
    have ⟨_, inner, _, present, _⟩ := beside
    -- If the branch before it had a child already, so had this container.
    have fresh : session.parallel? other = none := by
      by_contra old
      obtain ⟨_, known⟩ := Option.ne_none_iff_exists'.mp old
      have hasChild : session.HasChild name branch :=
        ⟨other, layout.enlarges.childOf_of_old sane orderly beside known⟩
      obtain ⟨again, before⟩ := orderly.complete branch name hasChild container member reaches
      cases (before.extends layout.layered.grows).unique layout.layered.sane standing
      obtain ⟨_, _, _, there, _⟩ := before
      rw [there] at absent
      contradiction
    obtain ⟨startFresh, path⟩ := ih present fresh beside above
    refine ⟨startFresh, ?_⟩
    obtain ⟨entry, among, rfl, created, again, _⟩ := layout.entry_of_fresh present fresh
    obtain ⟨rfl, _⟩ := again.container_unique layout.layered.sane beside
    obtain ⟨last, met, same⟩ := layout.childOf (below.tail member) reaches
    cases same.unique layout.layered.sane standing
    rcases layout.laying.linked entry among created container member id met with rfl | edge
    · exact path
    · exact path.tail ⟨edge, absent⟩

include layout sane orderly deep in
theorem laid {child : ParallelId} (stands : next.ChildOf name start child) : Laid scene session child next where
  toEnlarges := layout.enlarges
  orderly := layout.enlarges.orderly_next sane orderly (fun _ _ found absent =>
    layout.fresh sane orderly deep found absent) fun _ _ _ stands absent _ member reaches =>
      layout.complete sane deep stands absent member reaches
  fresh id parallel found absent := by
    refine ⟨(layout.laying.fresh id parallel found absent).1, fun outer container => ?_,
      layout.mirrored sane deep found absent⟩
    obtain ⟨entry, _, _, _, ⟨around, inner, there, here, path⟩, below, reaches⟩ :=
      layout.entry_of_fresh found absent
    cases found.symm.trans here
    rw [path, TypePath.container?_child] at container
    cases container
    rw [path, TypePath.tip_child]
    exact ⟨entry.container, layout.layered.sane.lookup?_path there,
      ((layout.enlarges.steady sane).reaches_iff (deep.below below)).mpr reaches⟩
  connected _ _ found absent := layout.connected sane orderly stands found absent

end Layout

/-- A name is reached from what is below a parallel, along branches that are below it too. -/
theorem Sane.mem_containers_iff (sane : session.Sane scene.graph) {start : ParallelId}
    (held : session.Holds document start) (name : Name) (id : ParallelId) :
    id ∈ session.reaching scene name (session.lineage start) ↔
      session.Below start id ∧ session.Reaches scene name id := by
  have closed : ∀ id ∈ session.lineage start, ∀ branch ∈ session.branchesOf id,
      branch ∈ session.lineage start := by
    intro id member branch step
    have below := (sane.mem_lineage_iff held).mp member
    exact (sane.mem_lineage_iff held).mpr (below.tail step)
  rw [mem_reaching_iff closed, sane.mem_lineage_iff held]

/-- A layer has an entry for each of its containers, and none is wired yet. -/
theorem Sane.enterLayers_ensures (sane : session.Sane scene.graph) {start : ParallelId}
    (held : session.Holds document start) {containers : List ParallelId}
    (below : ∀ id ∈ containers, session.Below start id) :
    Ensures (containers.foldlM (enterLayer scene name) (session, [])) fun state =>
      Layered scene.graph session document name state ∧
        Laying scene session state.2 [] state.1 ∧ state.2.map LayerEntry.container = containers := by
  refine Ensures.foldlM (fun done state => Layered scene.graph session document name state ∧
    Laying scene session state.2 [] state.1 ∧ state.2.map LayerEntry.container = done) ?_ ?_
  · refine ⟨⟨sane, .refl session, by simp⟩, ⟨rfl, fun _ _ => id, ?_, ?_, by simp⟩, rfl⟩
    · intro id parallel found absent
      simp [found] at absent
    · intro id parallel found absent
      simp [found] at absent
  · rintro done container rest state split ⟨layered, laying, same⟩
    have among := sane.holds_of_below held (below container (by simp [split]))
    have enters := (layered.enterLayer_succeeds among).ensures
    refine (enters.and (laying.enterLayer_ensures container)).mono fun result h => ?_
    exact ⟨h.1, h.2.1, by rw [h.2.2, same]⟩

/-- A descent leaves all as it was if the name is not reached, and else lays a layer. -/
theorem Sane.descend_lays (sane : session.Sane scene.graph) {start : ParallelId}
    (held : session.Holds document start) (name : Name) :
    Ensures (session.descend scene start name) fun result => match result.1 with
      | none => result.2 = session ∧ ¬session.Reaches scene name start
      | some child => session.Reaches scene name start ∧ result.2.ChildOf name start child ∧
          ∃ layer, Layout scene session document start name layer result.2 := by
  unfold descend
  simp only [sane.lineageOf_eq held, ok_bind]
  have listed := sane.mem_containers_iff held name
  generalize session.reaching scene name (session.lineage start) = containers at listed ⊢
  split
  · rename_i outside
    exact .pure ⟨rfl, fun reaches => outside ((listed start).mpr ⟨.refl, reaches⟩)⟩
  · rename_i inside
    have reaches := ((listed start).mp (not_not.mp inside)).2
    refine (sane.enterLayers_ensures held fun id member => ((listed id).mp member).1).bind fun state h => ?_
    obtain ⟨layered, laying, rfl⟩ := h
    have olds : ∀ entry ∈ state.2, ∃ around, session.parallel? entry.container = some around := by
      intro entry member
      have below := ((listed entry.container).mp (List.mem_map_of_mem member)).1
      obtain ⟨around, found, _⟩ := sane.holds_of_below held below
      exact ⟨around, found⟩
    have layout : Layout scene session document start name state.2
        (state.2.foldl (Session.wire state.2) state.1) :=
      ⟨layered.wireAll fun _ => id, by simpa using laying.wireAll layered (fun _ => id) olds, listed⟩
    obtain ⟨child, met, stands⟩ := layout.childOf .refl reaches
    rw [met]
    exact .pure ⟨reaches, stands, state.2, layout⟩

/-- In an orderly session the layer below a deep parallel is one that raking can go on from. -/
theorem Orderly.descend_ensures (orderly : session.Orderly scene) (sane : session.Sane scene.graph)
    {start : ParallelId} (deep : session.Deep start) (name : Name) :
    Ensures (session.descend scene start name) fun result => match result.1 with
      | none => result.2 = session ∧ ¬session.Reaches scene name start
      | some child => Laid scene session child result.2 ∧ result.2.ChildOf name start child := by
  obtain ⟨first, present, _⟩ := sane.settled start deep.settled
  refine (sane.descend_lays ⟨first, present, rfl⟩ name).mono fun result h => ?_
  obtain ⟨answer, next⟩ := result
  cases answer with
  | none => exact h
  | some child =>
    obtain ⟨_, stands, layer, layout⟩ := h
    exact ⟨layout.laid sane orderly deep stands, stands⟩

end OutlineTypes.Session
