import OutlineTypes.Proofs.Resolution.Lineage

/-! Descents in sane sessions. A layer gives each container one child at its path, and only children that
were created for it get edges. -/
namespace OutlineTypes.Session

variable {scene : Scene} {session : Session} {document : DocumentId} {name : Name}

theorem exists_node_of_soundNode? {path : TypePath} {id : NodeId}
    (found : session.soundNode? scene path = some id) :
    ∃ node ∈ scene.graph.nodes, node.id = id ∧ node.path = path := by
  unfold soundNode? at found
  split at found
  · rename_i node there
    split at found
    · contradiction
    · cases found
      exact ⟨node, List.mem_of_find?_eq_some there, rfl, by simpa using List.find?_some there⟩
  · contradiction

/-- The child stands at the path that the container and the name make. -/
def ChildOf (session : Session) (name : Name) (container child : ParallelId) : Prop :=
  ∃ around parallel, session.parallel? container = some around ∧ session.parallel? child = some parallel ∧
    parallel.path = around.path.child name

theorem ChildOf.holds {container child : ParallelId} (h : session.ChildOf name container child)
    (held : session.Holds document container) : session.Holds document child := by
  obtain ⟨around, parallel, found, present, path⟩ := h
  obtain ⟨same, again, rfl⟩ := held
  cases found.symm.trans again
  exact ⟨parallel, present, by rw [path, TypePath.document_child]⟩

theorem ChildOf.extends {next : Session} {container child : ParallelId}
    (h : session.ChildOf name container child) (grows : Extends session next) :
    next.ChildOf name container child := by
  obtain ⟨around, parallel, found, present, path⟩ := h
  obtain ⟨now, nowFound, nowPath, _⟩ := grows.keeps _ _ found
  obtain ⟨new, newFound, newPath, _⟩ := grows.keeps _ _ present
  exact ⟨now, new, nowFound, newFound, by rw [newPath, nowPath, path]⟩

/-- What it means to have built a layer. -/
structure Layered (graph : Graph) (session : Session) (document : DocumentId) (name : Name)
    (state : Session × List LayerEntry) : Prop where
  sane : state.1.Sane graph
  grows : Extends session state.1
  entries : ∀ entry ∈ state.2, state.1.Holds document entry.container ∧
    state.1.ChildOf name entry.container entry.child ∧
    (entry.created → session.size ≤ entry.child.index)

theorem Layered.enterLayer_succeeds {state : Session × List LayerEntry}
    (layered : Layered scene.graph session document name state) {container : ParallelId}
    (held : session.Holds document container) :
    Succeeds (enterLayer scene name state container)
      (Layered scene.graph session document name) := by
  unfold enterLayer
  have inside := layered.grows.holds held
  refine inside.parallelOf.bind fun around found => ?_
  obtain ⟨found, _⟩ := found
  simp only
  cases cached : state.1.lookup? (around.path.child name) with
  | some child =>
    obtain ⟨parallel, present, path⟩ := layered.sane.lookup?_eq_some cached
    refine .pure ⟨layered.sane, layered.grows, fun entry member => ?_⟩
    rcases List.mem_append.mp member with before | new
    · exact layered.entries entry before
    · cases List.mem_singleton.mp new
      exact ⟨inside, ⟨around, parallel, found, present, path⟩, by simp⟩
  | none =>
    refine (layered.sane.insert_succeeds cached (some container) (state.1.soundNode? scene _)
      fun id stands => exists_node_of_soundNode? stands).bind fun result inserted => ?_
    obtain ⟨inserted, sane, grows⟩ := inserted
    refine .pure ⟨sane, layered.grows.trans grows, fun entry member => ?_⟩
    rcases List.mem_append.mp member with before | new
    · obtain ⟨around, child, created⟩ := layered.entries entry before
      exact ⟨grows.holds around, child.extends grows, created⟩
    · cases List.mem_singleton.mp new
      obtain ⟨parallel, present, path, _⟩ := inserted.found
      obtain ⟨now, nowFound, nowPath, _⟩ := grows.keeps _ _ found
      refine ⟨grows.holds inside, ⟨now, parallel, nowFound, present, by rw [path, nowPath]⟩, fun _ => ?_⟩
      rw [inserted.fresh]
      exact layered.grows.size_le

theorem Layered.childOf_of_childOf? {graph : Graph} {state : Session × List LayerEntry}
    (layered : Layered graph session document name state) {container child : ParallelId}
    (found : childOf? state.2 container = some child) :
    state.1.Holds document container ∧ state.1.ChildOf name container child := by
  obtain ⟨entry, met, rfl⟩ := Option.map_eq_some_iff.mp found
  obtain rfl : entry.container = container := by simpa using List.find?_some met
  obtain ⟨held, stands, _⟩ := layered.entries entry (List.mem_of_find?_eq_some met)
  exact ⟨held, stands⟩

/-- Edges are given to new parallels only. -/
theorem Layered.wire {graph : Graph} {state : Session × List LayerEntry}
    (layered : Layered graph session document name state) {entry : LayerEntry} (among : entry ∈ state.2) :
    Layered graph session document name (Session.wire state.2 state.1 entry, state.2) := by
  unfold Session.wire
  split
  · rename_i created
    obtain ⟨inside, child, fresh⟩ := layered.entries entry among
    have path (overridden : List ParallelId) (parallel : Parallel) :
        ({ parallel with edges := parallel.edges.insertAll overridden } : Parallel).path = parallel.path :=
      rfl
    have keeps {other : ParallelId} {parallel : Parallel} {change : Parallel → Parallel}
        (found : session.parallel? other = some parallel) :
        (state.1.modify entry.child change).parallel? other = state.1.parallel? other := by
      rw [parallel?_modify, if_neg]
      rintro rfl
      exact absurd (lt_of_parallel? found) (Nat.not_lt.mpr (fresh created))
    refine ⟨layered.sane.modify fun parallel found => ⟨rfl, rfl, rfl, id, ?_⟩, ?_, ?_⟩
    · intro branch member
      obtain ⟨same, again, document_eq⟩ := child.holds inside
      cases found.symm.trans again
      rw [document_eq]
      rcases List.mem_append.mp member with edge | base
      · rcases OrderedSet.mem_insertAll.mp edge with before | overridden
        · exact document_eq ▸ layered.sane.branches _ _ found branch (List.mem_append_left _ before)
        · obtain ⟨_, _, met⟩ := List.mem_filterMap.mp (List.mem_filter.mp overridden).1
          obtain ⟨held, stands⟩ := layered.childOf_of_childOf? met
          exact stands.holds held
      · exact document_eq ▸ layered.sane.branches _ _ found branch (List.mem_append_right _ base)
    · refine ⟨fun other parallel found => ?_, layered.grows.settles, layered.grows.inFlight,
        layered.grows.raking, layered.grows.version⟩
      rw [keeps found]
      exact layered.grows.keeps other parallel found
    · intro other listed
      obtain ⟨held, ⟨around, parallel, found, present, same⟩, new⟩ := layered.entries other listed
      refine ⟨holds_modify (path _) held, ?_, new⟩
      obtain ⟨now, nowFound, nowSame⟩ := exists_modified entry.child _ found
      obtain ⟨then_, thenFound, thenSame⟩ := exists_modified entry.child _ present
      refine ⟨now, then_, nowFound, thenFound, ?_⟩
      rcases nowSame with rfl | ⟨_, rfl⟩ <;> rcases thenSame with rfl | ⟨_, rfl⟩ <;> exact same
  · exact layered

theorem Layered.wireAll {graph : Graph} {state : Session × List LayerEntry}
    (layered : Layered graph session document name state) {entries : List LayerEntry}
    (among : ∀ entry ∈ entries, entry ∈ state.2) :
    Layered graph session document name (entries.foldl (Session.wire state.2) state.1, state.2) := by
  induction entries generalizing state with
  | nil => exact layered
  | cons entry entries ih =>
    exact ih (layered.wire (among entry List.mem_cons_self))
      fun other member => among other (List.mem_cons_of_mem _ member)

theorem Sane.descend_succeeds (sane : session.Sane scene.graph) {start : ParallelId}
    (held : session.Holds document start) (name : Name) :
    Succeeds (session.descend scene start name) fun result => result.2.Sane scene.graph ∧
      Extends session result.2 ∧ ∀ child, result.1 = some child → result.2.ChildOf name start child := by
  unfold descend
  simp only [sane.lineageOf_eq held, ok_bind]
  split
  · exact .pure ⟨sane, .refl session, by simp⟩
  · let containers := session.reaching scene name (session.lineage start)
    let inv := Layered scene.graph session document name
    have fold : Succeeds (containers.foldlM (enterLayer scene name) (session, [])) inv :=
        Succeeds.foldlM_of_forall inv
      ⟨sane, .refl session, by simp⟩
      (fun container member state layered =>
        layered.enterLayer_succeeds (sane.holds_of_mem_lineage held _ (List.mem_of_mem_filter member)))
    refine fold.bind fun state layered => ?_
    have wired := layered.wireAll fun _ => id
    exact .pure ⟨wired.sane, wired.grows, fun child found => (wired.childOf_of_childOf? found).2⟩

end OutlineTypes.Session
