import OutlineTypes.Proofs.Resolution.Steps

/-! Waived contracts. A session whose contracts are taken away is read as it was: lineages, layers and cycles follow
links alone. What is done to a session leaves, without its contracts, what the same does to the session without
them. -/
namespace OutlineTypes

namespace Parallel

variable (contract : Option Contract) (parallel : Parallel)

@[simp] theorem path_setContract : (parallel.setContract contract).path = parallel.path := rfl

@[simp] theorem edges_setContract : (parallel.setContract contract).edges = parallel.edges := rfl

@[simp] theorem isExplicit_setContract : (parallel.setContract contract).isExplicit = parallel.isExplicit := by
  simp [isExplicit, setContract, mapResolved]

@[simp] theorem baseEntries_setContract : (parallel.setContract contract).baseEntries = parallel.baseEntries := by
  cases explicit : parallel.explicit <;> simp [baseEntries, setContract, mapResolved, explicit]

@[simp] theorem setContract_setContract (other : Option Contract) :
    (parallel.setContract contract).setContract other = parallel.setContract other := by
  cases explicit : parallel.explicit <;> simp [setContract, mapResolved, explicit]

theorem setContract_setBase (edge : EdgeId) (base : ParallelId) :
    (parallel.setBase edge base).setContract contract = (parallel.setContract contract).setBase edge base := by
  cases explicit : parallel.explicit <;> simp [setContract, setBase, mapResolved, explicit]

theorem setContract_dropBases (edges : List EdgeId) :
    (parallel.dropBases edges).setContract contract = (parallel.setContract contract).dropBases edges := by
  cases explicit : parallel.explicit <;> simp [setContract, dropBases, mapResolved, explicit]

end Parallel

/-- The scene in which contracts are not checked. -/
def Scene.lenient (scene : Scene) : Scene := { scene with checksContracts := false }

@[simp] theorem Scene.graph_lenient (scene : Scene) : scene.lenient.graph = scene.graph := rfl

namespace Session

/-- The session without its contracts. -/
def waived (session : Session) : Session :=
  { session with parallels := session.parallels.map (Parallel.setContract none) }

variable (session : Session) (scene : Scene) (id : ParallelId) (path : TypePath)

section Reading

@[simp] theorem cruft_waived : session.waived.cruft = session.cruft := rfl

@[simp] theorem inFlight_waived : session.waived.inFlight = session.inFlight := rfl

@[simp] theorem raking_waived : session.waived.raking = session.raking := rfl

@[simp] theorem size_waived : session.waived.size = session.size := List.length_map _

@[simp] theorem parallel?_waived :
    session.waived.parallel? id = (session.parallel? id).map (Parallel.setContract none) :=
  List.getElem?_map

@[simp] theorem lookup?_waived : session.waived.lookup? path = session.lookup? path := by
  simp only [lookup?, waived, List.find?_map, Option.map_map]
  rfl

@[simp] theorem branchesOf_waived : session.waived.branchesOf id = session.branchesOf id := by
  cases found : session.parallel? id <;> simp [branchesOf, found, branches_setContract]

@[simp] theorem baseEntriesOf_waived : session.waived.baseEntriesOf id = session.baseEntriesOf id := by
  cases found : session.parallel? id <;> simp [baseEntriesOf, found]

@[simp] theorem lineageOf_waived : session.waived.lineageOf id = session.lineageOf id := by
  have branches : session.waived.branchesOf = session.branchesOf := funext session.branchesOf_waived
  simp only [lineageOf, lineage, present, branches, size_waived, parallel?_waived, Option.isNone_map]

@[simp] theorem soundNode?_waived :
    session.waived.soundNode? scene.lenient path = session.soundNode? scene path := rfl

@[simp] theorem longestCached?_waived : session.waived.longestCached? path = session.longestCached? path := by
  simp only [longestCached?, lookup?_waived]

@[simp] theorem cached?_waived (candidate : Successor) :
    session.waived.cached? scene.lenient candidate = session.cached? scene candidate := by
  simp only [cached?, Scene.graph_lenient, lookup?_waived]

@[simp] theorem reaching_waived (name : Name) (lineage : List ParallelId) :
    session.waived.reaching scene.lenient name lineage = session.reaching scene name lineage := by
  have stands : session.waived.hasChildNode scene.lenient name = session.hasChildNode scene name := by
    funext id
    simp only [hasChildNode, parallel?_waived, Option.any_map, soundNode?_waived]
    rfl
  simp only [reaching, stands, branchesOf_waived]

theorem parallelOf_waived {id : ParallelId} {parallel : Parallel} (found : session.parallelOf id = .ok parallel) :
    session.waived.parallelOf id = .ok (parallel.setContract none) := by
  simp only [parallelOf, parallel?_waived, parallelOf_ensures session id parallel found, Option.map_some]

end Reading

section Changing

theorem waived_of_parallels_eq_nil {session : Session} (none : session.parallels = []) :
    session.waived = session := by
  rw [waived, none, List.map_nil, ← none]

theorem waived_modify {change other : Parallel → Parallel}
    (same : ∀ parallel, (change parallel).setContract none = other (parallel.setContract none)) :
    (session.modify id change).waived = session.waived.modify id other := by
  simp only [waived, modify]
  congr 1
  refine List.ext_getElem? fun index => ?_
  simp only [List.getElem?_map, List.getElem?_modify]
  cases session.parallels[index]? with
  | none => rfl
  | some parallel => by_cases here : id.index = index <;> simp [here, same]

theorem waived_modify_setContract (contract : Option Contract) :
    (session.modify id (Parallel.setContract contract)).waived =
      session.waived.modify id (Parallel.setContract none) :=
  session.waived_modify id fun parallel => by rw [Parallel.setContract_setContract, Parallel.setContract_setContract]

theorem waived_modify_setBase (edge : EdgeId) (base : ParallelId) :
    (session.modify id (Parallel.setBase edge base)).waived = session.waived.modify id (Parallel.setBase edge base) :=
  session.waived_modify id (Parallel.setContract_setBase none · edge base)

theorem waived_markRaked : (session.markRaked id).waived = session.waived.markRaked id :=
  session.waived_modify id fun _ => rfl

theorem waived_condemn (target : CruftTarget) (kind : FaultKind) :
    (session.condemn scene target kind).waived = session.waived.condemn scene.lenient target kind := rfl

theorem insert_waived {path : TypePath} {container : Option ParallelId} {node : Option NodeId}
    {result : ParallelId × Session} (inserted : session.insert path container node = .ok result) :
    session.waived.insert path container node = .ok (result.1, result.2.waived) := by
  unfold insert at inserted ⊢
  rw [lookup?_waived]
  split at inserted
  · contradiction
  · cases inserted
    cases node <;> simp [waived, size, Parallel.setContract, Parallel.mapResolved]

theorem enterLayer_waived {name : Name} {state result : Session × List LayerEntry} {container : ParallelId}
    (entered : enterLayer scene name state container = .ok result) :
    enterLayer scene.lenient name (state.1.waived, state.2) container = .ok (result.1.waived, result.2) := by
  obtain ⟨session, layer⟩ := state
  obtain ⟨around, found, onward⟩ := exists_ok_of_bind entered
  simp only [enterLayer, session.parallelOf_waived found, ok_bind, lookup?_waived, Parallel.path_setContract]
  cases cached : session.lookup? (around.path.child name) with
  | some child =>
    simp only [cached] at onward
    cases onward
    rfl
  | none =>
    simp only [cached] at onward
    obtain ⟨inserted, made, same⟩ := exists_ok_of_bind onward
    cases same
    simp only [soundNode?_waived, session.insert_waived made, ok_bind]
    rfl

theorem waived_wire (layer : List LayerEntry) (entry : LayerEntry) :
    (wire layer session entry).waived = wire layer session.waived entry := by
  unfold wire
  split
  · rw [branchesOf_waived]
    exact session.waived_modify _ fun _ => rfl
  · rfl

theorem descend_waived {name : Name} {result : Option ParallelId × Session}
    (descended : session.descend scene id name = .ok result) :
    session.waived.descend scene.lenient id name = .ok (result.1, result.2.waived) := by
  have enterAll (containers : List ParallelId) (state last : Session × List LayerEntry)
      (entered : containers.foldlM (enterLayer scene name) state = .ok last) :
      containers.foldlM (enterLayer scene.lenient name) (state.1.waived, state.2) = .ok (last.1.waived, last.2) := by
    induction containers generalizing state with
    | nil =>
      cases entered
      rfl
    | cons container containers ih =>
      rw [List.foldlM_cons] at entered ⊢
      obtain ⟨mid, first, rest⟩ := exists_ok_of_bind entered
      rw [enterLayer_waived scene first, ok_bind]
      exact ih mid rest
  have wireAll (layer entries : List LayerEntry) (session : Session) :
      (entries.foldl (wire layer) session).waived = entries.foldl (wire layer) session.waived :=
    (List.foldl_hom waived fun session entry => (session.waived_wire layer entry).symm).symm
  obtain ⟨lineage, listed, onward⟩ := exists_ok_of_bind descended
  simp only [descend, lineageOf_waived, listed, ok_bind, reaching_waived]
  simp only at onward
  split at onward
  · rename_i outside
    cases onward
    rw [if_pos outside]
    rfl
  · rename_i inside
    obtain ⟨⟨last, layer⟩, entered, same⟩ := exists_ok_of_bind onward
    cases same
    rw [if_neg inside, enterAll _ _ _ entered]
    simp only [ok_bind, wireAll]
    rfl

@[simp] theorem circularEdges_waived : session.waived.circularEdges = session.circularEdges := by
  have walks (bound : Nat) : session.waived.walkFrom bound = session.walkFrom bound := by
    induction bound with
    | zero => rfl
    | succ bound ih =>
      funext path edges id walk
      simp only [walkFrom, baseEntriesOf_waived, cruft_waived, ih]
  have roots : (session.waived.parallels.filter Parallel.isExplicit).map Parallel.id =
      (session.parallels.filter Parallel.isExplicit).map Parallel.id := by
    have kinds : Parallel.isExplicit ∘ Parallel.setContract none = Parallel.isExplicit :=
      funext fun parallel => parallel.isExplicit_setContract none
    rw [waived, List.filter_map, kinds, List.map_map]
    rfl
  simp only [circularEdges, circularWithin, walks, roots, size_waived]

theorem waived_cutCycles : (session.cutCycles scene).waived = session.waived.cutCycles scene.lenient := by
  have condemned (edges : List EdgeId) (session : Session) :
      (edges.foldl (fun session edge => session.condemn scene (.edge edge) .circular) session).waived =
        edges.foldl (fun session edge => session.condemn scene.lenient (.edge edge) .circular) session.waived :=
    (List.foldl_hom waived fun session edge => (session.waived_condemn scene (.edge edge) .circular).symm).symm
  have dropped (edges : List EdgeId) : Parallel.setContract none ∘ Parallel.dropBases edges =
      Parallel.dropBases edges ∘ Parallel.setContract none :=
    funext fun parallel => parallel.setContract_dropBases none edges
  simp only [cutCycles, circularEdges_waived, ← condemned]
  simp only [waived, List.map_map, dropped]

end Changing

end Session
end OutlineTypes
