import OutlineTypes.Proofs.Resolution.Refinement

/-! Whole drills. A session is prepared, a path is drilled in it, and cycles are cut; none of this can
fail, and it leaves the session sane with no drill under way. -/
namespace OutlineTypes.Session

variable {scene : Scene} {graph : Graph} {session : Session}

section Preparation

theorem calm_condemnStatement (session : Session) (place : Document × Statement) :
    Calm session (session.condemnStatement place) := ⟨rfl, rfl, rfl, rfl, rfl⟩

theorem calm_condemnGroundless (session : Session) (scene : Scene) (targets : List CruftTarget) :
    Calm session (session.condemnGroundless scene targets) :=
  calm_foldl (fun session target => calm_condemn session scene target .tabs) session _

theorem calm_prepare (session : Session) (scene : Scene) : Calm session (session.prepare scene) := by
  unfold prepare
  split
  · exact .refl session
  · have begun : Calm session { session with prepared := true } := ⟨rfl, rfl, rfl, rfl, rfl⟩
    have marked := begun.trans (calm_foldl calm_condemnStatement _ (misindented scene.documents))
    simp only
    split
    · exact marked
    · exact (marked.trans (calm_condemnGroundless _ scene _)).trans (calm_condemnGroundless _ scene _)

theorem prepared_foldl {step : Session → α → Session}
    (each : ∀ session x, (step session x).prepared = session.prepared) (session : Session) (xs : List α) :
    (xs.foldl step session).prepared = session.prepared := by
  induction xs generalizing session with
  | nil => rfl
  | cons x xs ih => exact (ih _).trans (each session x)

theorem prepared_prepare (session : Session) (scene : Scene) : (session.prepare scene).prepared = true := by
  have condemned (targets : List CruftTarget) (session : Session) :
      (session.condemnGroundless scene targets).prepared = session.prepared := by
    unfold condemnGroundless
    exact prepared_foldl (fun _ _ => by rfl) session _
  have reported (places : List (Document × Statement)) (session : Session) :
      (places.foldl condemnStatement session).prepared = session.prepared :=
    prepared_foldl (fun _ _ => by rfl) session places
  unfold prepare
  split
  · assumption
  · simp only
    split
    · rw [reported]
    · rw [condemned, condemned, reported]

theorem prepare_of_prepared (prepared : session.prepared = true) (scene : Scene) :
    session.prepare scene = session := if_pos prepared

end Preparation

section Cycles

/-- The parallels of a path are different ones of the session. -/
theorem length_le_size {path : List ParallelId} (distinct : path.Nodup)
    (inside : ∀ id ∈ path, id.index < session.size) : path.length ≤ session.size := by
  have among : path ⊆ (List.range session.size).map ParallelId.mk := fun id member =>
    List.mem_map.mpr ⟨id.index, List.mem_range.mpr (inside id member), rfl⟩
  have few := (List.subperm_of_subset distinct among).length_le
  rwa [List.length_map, List.length_range] at few

theorem Sane.index_lt_of_baseEntriesOf (sane : session.Sane graph) {id : ParallelId}
    {entry : EdgeId × ParallelId} (member : entry ∈ session.baseEntriesOf id) :
    entry.2.index < session.size := by
  obtain ⟨parallel, found, among⟩ := List.mem_flatMap.mp member
  have present : session.parallel? id = some parallel := by simpa using found
  obtain ⟨_, held, _⟩ := sane.branches id parallel present entry.2
    (List.mem_append_right _ (List.mem_map_of_mem among))
  exact lt_of_parallel? held

/-- A walk never comes to its bound, so a wider one changes nothing. -/
theorem Sane.walkFrom_eq_of_le (sane : session.Sane graph) {bound wider : Nat} (le : bound ≤ wider)
    {path : List ParallelId} (distinct : path.Nodup) (inside : ∀ id ∈ path, id.index < session.size)
    (enough : session.size < path.length + bound) (edges : List EdgeId) (id : ParallelId) (walk : Walk) :
    session.walkFrom wider path edges id walk = session.walkFrom bound path edges id walk := by
  induction bound generalizing wider path edges id walk with
  | zero =>
    have := length_le_size distinct inside
    omega
  | succ bound ih =>
    obtain ⟨wider, rfl⟩ : ∃ less, wider = less + 1 := ⟨wider - 1, by omega⟩
    rw [walkFrom, walkFrom]
    refine congrArg (fun walk : Walk => { walk with done := id :: walk.done })
      (List.foldl_ext _ _ _ fun walk entry member => ?_)
    obtain ⟨edge, base⟩ := entry
    simp only
    split
    · rfl
    · split
      · rfl
      · rename_i fresh
        split
        · rfl
        · have new : base ∉ path := List.idxOf?_eq_none_iff.mp fresh
          refine ih (by omega) (List.nodup_append.mpr ⟨distinct, by simp, ?_⟩) ?_ ?_ _ _ _
          · rintro other before _ last rfl
            exact new (List.mem_singleton.mp last ▸ before)
          · intro other listed
            rcases List.mem_append.mp listed with before | last
            · exact inside other before
            · rw [List.mem_singleton.mp last]
              exact sane.index_lt_of_baseEntriesOf member
          · rw [List.length_append, List.length_singleton]
            omega

theorem Sane.circularWithin_eq (sane : session.Sane graph) {bound : Nat} (enough : session.size < bound) :
    session.circularWithin bound = session.circularEdges := by
  unfold circularEdges circularWithin
  simp only
  congr 2
  refine List.foldl_ext _ _ _ fun walk root member => ?_
  obtain ⟨parallel, listed, rfl⟩ := List.mem_map.mp member
  obtain ⟨id, found⟩ := exists_of_mem (List.mem_filter.mp listed).1
  have inside : parallel.id.index < session.size := sane.numbers id parallel found ▸ lt_of_parallel? found
  split
  · rfl
  · exact sane.walkFrom_eq_of_le enough (List.nodup_singleton _) (by simpa using inside)
      (by rw [List.length_singleton]; omega) _ _ _

theorem mem_bases_dropBases {edges : List EdgeId} {base : ParallelId} {parallel : Parallel}
    (member : base ∈ (parallel.dropBases edges).bases) : base ∈ parallel.bases := by
  cases parallel with | mk id path container overridden explicit raked =>
  cases explicit with
  | none => exact member
  | some resolved =>
    obtain ⟨entry, listed, rfl⟩ := List.mem_map.mp member
    exact List.mem_map_of_mem (List.mem_filter.mp listed).1

theorem mild_dropBases (sane : session.Sane graph) {id : ParallelId} {parallel : Parallel}
    (found : session.parallel? id = some parallel) (edges : List EdgeId) :
    Mild session parallel (parallel.dropBases edges) where
  id := rfl
  path := rfl
  node := node_mapResolved
    (fun resolved => { resolved with bases := resolved.bases.filter fun edge _ => edge ∉ edges })
    (fun _ => rfl) parallel
  raked := fun h => h
  branches branch member := by
    refine sane.branches id parallel found branch ?_
    rcases List.mem_append.mp member with overridden | inherited
    · exact List.mem_append_left _ overridden
    · exact List.mem_append_right _ (mem_bases_dropBases inherited)

theorem Sane.cutCycles (sane : session.Sane graph) (scene : Scene) :
    (session.cutCycles scene).Sane graph ∧ Extends session (session.cutCycles scene) := by
  unfold Session.cutCycles
  have calm := calm_foldl (fun session edge => calm_condemn session scene (.edge edge) .circular) session
    session.circularEdges
  have after := calm.sane sane
  simp only
  generalize session.circularEdges.foldl _ session = condemned at calm after ⊢
  have revised (id : ParallelId) : ({ condemned with
      parallels := condemned.parallels.map (Parallel.dropBases session.circularEdges) } : Session).parallel?
        id = (condemned.parallel? id).map (Parallel.dropBases session.circularEdges) := by
    simp only [parallel?, List.getElem?_map]
  refine ⟨after.revise revised rfl fun id parallel found => mild_dropBases after found _, ?_⟩
  exact calm.extends.trans (extends_revise revised (fun _ _ => rfl) (fun _ _ => rfl) (fun _ _ h => h)
    rfl rfl rfl rfl)

end Cycles

section Drill

/-- Drills under way at a time: never two to one path, and never more than one to each node of the document
and one to the path itself. -/
def withinNodes (graph : Graph) (document : DocumentId) (flight : List TypePath) : Bool :=
  decide flight.Nodup && decide (flight.length ≤ (nodesOf graph document).length + 1)

theorem Underway.withinNodes {document : DocumentId} {flight : List TypePath}
    (underway : Underway graph document flight) : withinNodes graph document flight := by
  simp only [Session.withinNodes, Bool.and_eq_true, decide_eq_true_eq]
  exact ⟨underway.distinct, underway.length_le⟩

theorem underway_nil (graph : Graph) (document : DocumentId) : Underway graph document [] :=
  ⟨List.nodup_nil, by simp, by simp⟩

theorem length_nodesOf_le (graph : Graph) (document : DocumentId) :
    (nodesOf graph document).length ≤ graph.nodes.length :=
  List.length_filter_le _ _

/-- The drill that is watched ends, in the same outcome and session as the drill itself. -/
theorem Sane.drillWithin_succeeds (sane : session.Sane scene.graph) (coherent : scene.graph.Coherent)
    (idle : session.inFlight = []) (path : TypePath) :
    Succeeds (drillWatched scene (withinNodes scene.graph path.document) (drillBound scene) path session)
      fun result => Drilled scene.graph session path result ∧
        drillWithin scene (drillBound scene) path session = .ok result := by
  have few := length_nodesOf_le scene.graph path.document
  have underway : Underway scene.graph path.document session.inFlight := idle ▸ underway_nil _ _
  have enough : (nodesOf scene.graph path.document).length + 1 ≤
      session.inFlight.length + drillBound scene := by
    simp only [drillBound, idle, List.length_nil]
    omega
  obtain ⟨result, ended, drilled⟩ := drillWatched_succeeds coherent (fun _ underway => underway.withinNodes)
    sane underway rfl (fun busy => absurd idle busy) enough
  exact ⟨result, ended, drilled, refines_drillWatched (Nat.le_refl _) path session result ended⟩

theorem Sane.drill_succeeds (sane : session.Sane scene.graph) (coherent : scene.graph.Coherent)
    (idle : session.inFlight = []) (path : TypePath) :
    Succeeds (session.drill scene path) fun result => result.2.Sane scene.graph ∧
      Extends session result.2 := by
  obtain ⟨result, _, drilled, ended⟩ := sane.drillWithin_succeeds coherent idle path
  unfold drill
  simp only [ended, ok_bind]
  obtain ⟨after, grows⟩ := drilled.sane.cutCycles scene
  exact .pure ⟨after, drilled.grows.trans grows⟩

end Drill

end OutlineTypes.Session
