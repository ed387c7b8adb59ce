import OutlineTypes.Proofs.Resolution.Acyclicity
import OutlineTypes.Proofs.Resolution.Rest

/-! Cutting. A cut marks the edges on cycles and drops their bases, and nothing else. It leaves a session at
rest, with every annotation that is no cruft answered and no cycle among the bases, and since it only takes
branches away it opens no path that was blocked. -/
namespace OutlineTypes

theorem Parallel.baseEntries_dropBases (edges : List EdgeId) (parallel : Parallel) :
    (parallel.dropBases edges).baseEntries = parallel.baseEntries.filter fun entry => entry.1 ∉ edges := by
  cases parallel with | mk id path container overridden explicit raked =>
  cases explicit <;> rfl

namespace Session

variable {scene : Scene} {session next : Session} {id : ParallelId} {path : TypePath} {name : Name}

section Effect

theorem reason?_condemnAll (edges : List EdgeId) (session : Session) (other : EdgeId) :
    (edges.foldl (fun session edge => session.condemn scene (.edge edge) .circular) session).cruft.reason?
      (.edge other) = if other ∈ edges then some ((session.cruft.reason? (.edge other)).getD .circular)
        else session.cruft.reason? (.edge other) := by
  induction edges generalizing session with
  | nil => simp
  | cons edge edges ih =>
    rw [List.foldl_cons, ih, reason?_condemn_edge]
    by_cases here : other = edge
    · subst here
      simp
    · simp [here]

theorem hasNode_condemnAll (edges : List EdgeId) (session : Session) (node : NodeId) :
    (edges.foldl (fun session edge => session.condemn scene (.edge edge) .circular) session).cruft.hasNode
      node = session.cruft.hasNode node := by
  induction edges generalizing session with
  | nil => rfl
  | cons edge edges ih => rw [List.foldl_cons, ih, hasNode_condemn_edge]

theorem parallel?_cutCycles (session : Session) (scene : Scene) (id : ParallelId) :
    (session.cutCycles scene).parallel? id =
      (session.parallel? id).map (Parallel.dropBases session.circularEdges) := by
  have calm := calm_foldl (fun session edge => calm_condemn session scene (.edge edge) .circular) session
    session.circularEdges
  simp only [cutCycles, parallel?, List.getElem?_map, calm.parallels]

theorem parallel?_cutCycles_of (scene : Scene) {parallel : Parallel}
    (found : session.parallel? id = some parallel) :
    (session.cutCycles scene).parallel? id = some (parallel.dropBases session.circularEdges) := by
  rw [parallel?_cutCycles, found]
  rfl

/-- Whatever a cut holds is what was there, less the bases of the edges on cycles. -/
theorem parallel?_of_cutCycles {now : Parallel} (found : (session.cutCycles scene).parallel? id = some now) :
    ∃ parallel, session.parallel? id = some parallel ∧ parallel.dropBases session.circularEdges = now := by
  rw [parallel?_cutCycles] at found
  exact Option.map_eq_some_iff.mp found

theorem reason?_cutCycles (session : Session) (scene : Scene) (edge : EdgeId) :
    (session.cutCycles scene).cruft.reason? (.edge edge) =
      if edge ∈ session.circularEdges then some ((session.cruft.reason? (.edge edge)).getD .circular)
      else session.cruft.reason? (.edge edge) :=
  reason?_condemnAll session.circularEdges session edge

theorem hasNode_cutCycles (session : Session) (scene : Scene) (node : NodeId) :
    (session.cutCycles scene).cruft.hasNode node = session.cruft.hasNode node :=
  hasNode_condemnAll session.circularEdges session node

theorem hasEdge_cutCycles (session : Session) (scene : Scene) (edge : EdgeId) :
    (session.cutCycles scene).cruft.hasEdge edge =
      (session.cruft.hasEdge edge || decide (edge ∈ session.circularEdges)) := by
  simp only [Cruft.hasEdge, Cruft.has, reason?_cutCycles]
  by_cases here : edge ∈ session.circularEdges <;> simp [here]

theorem settled_cutCycles (session : Session) (scene : Scene) :
    (session.cutCycles scene).settled = session.settled := by
  have calm := calm_foldl (fun session edge => calm_condemn session scene (.edge edge) .circular) session
    session.circularEdges
  simp only [cutCycles, calm.settled]

theorem prepared_cutCycles (session : Session) (scene : Scene) :
    (session.cutCycles scene).prepared = session.prepared := by
  unfold cutCycles
  exact prepared_foldl (fun _ _ => by rfl) session session.circularEdges

/-- The bases of the edges on cycles are dropped, and no others. -/
theorem baseEntriesOf_cutCycles (session : Session) (scene : Scene) (id : ParallelId) :
    (session.cutCycles scene).baseEntriesOf id =
      (session.baseEntriesOf id).filter fun entry => entry.1 ∉ session.circularEdges := by
  simp only [baseEntriesOf, parallel?_cutCycles]
  cases session.parallel? id with
  | none => rfl
  | some parallel => simp [Parallel.baseEntries_dropBases]

end Effect

section Branches

theorem branchesOf_cutCycles_subset (session : Session) (scene : Scene) (id : ParallelId) :
    (session.cutCycles scene).branchesOf id ⊆ session.branchesOf id := by
  intro branch member
  obtain ⟨now, found, listed⟩ := List.mem_flatMap.mp member
  obtain ⟨parallel, there, rfl⟩ := parallel?_of_cutCycles (Option.mem_toList.mp found)
  refine List.mem_flatMap.mpr ⟨parallel, Option.mem_toList.mpr there, ?_⟩
  rcases List.mem_append.mp listed with edge | base
  · exact List.mem_append_left _ edge
  · exact List.mem_append_right _ (mem_bases_dropBases base)

theorem Reaches.of_cutCycles (reaches : (session.cutCycles scene).Reaches scene name id) :
    session.Reaches scene name id := by
  obtain ⟨other, below, stands⟩ := reaches
  refine ⟨other, Relation.ReflTransGen.mono
    (fun above _ step => branchesOf_cutCycles_subset session scene above step) _ _ below, ?_⟩
  simp only [hasChildNode, parallel?_cutCycles, soundNode?_congr (hasNode_cutCycles session scene)] at stands ⊢
  cases found : session.parallel? other with
  | none => simp [found] at stands
  | some parallel =>
    rw [found] at stands
    exact stands

theorem lookup?_cutCycles (sane : session.Sane scene.graph) (path : TypePath) :
    (session.cutCycles scene).lookup? path = session.lookup? path := by
  obtain ⟨after, grows⟩ := sane.cutCycles scene
  cases before : session.lookup? path with
  | some id => exact grows.lookup? sane after before
  | none =>
    cases now : (session.cutCycles scene).lookup? path with
    | none => rfl
    | some id =>
      obtain ⟨parallel, found, rfl⟩ := after.lookup?_eq_some now
      obtain ⟨old, there, rfl⟩ := parallel?_of_cutCycles found
      have different : old.path ≠ (old.dropBases session.circularEdges).path :=
        lookup?_eq_none before there
      exact absurd rfl different

theorem hasChild_cutCycles : (session.cutCycles scene).HasChild name id ↔ session.HasChild name id := by
  constructor
  · rintro ⟨child, around, below, found, present, path⟩
    obtain ⟨outer, there, rfl⟩ := parallel?_of_cutCycles found
    obtain ⟨inner, here, rfl⟩ := parallel?_of_cutCycles present
    exact ⟨child, outer, inner, there, here, path⟩
  · rintro ⟨child, around, below, found, present, path⟩
    exact ⟨child, _, _, parallel?_cutCycles_of scene found, parallel?_cutCycles_of scene present, path⟩

end Branches

section Rest

theorem AllSettled.cutCycles (settled : session.AllSettled) (scene : Scene) :
    (session.cutCycles scene).AllSettled := by
  intro id now found
  obtain ⟨parallel, there, rfl⟩ := parallel?_of_cutCycles found
  rw [settled_cutCycles]
  exact settled id parallel there

theorem node_dropBases (edges : List EdgeId) (parallel : Parallel) :
    (parallel.dropBases edges).explicit.map Resolved.node = parallel.explicit.map Resolved.node :=
  node_mapResolved
    (fun resolved => { resolved with bases := resolved.bases.filter fun edge _ => edge ∉ edges })
    (fun _ => rfl) parallel

/-- The edges that lose their bases are those that become cruft. -/
theorem Answered.cutCycles {edges : List Edge} {bases : OrderedMap EdgeId ParallelId}
    (answered : session.Answered edges bases) (scene : Scene) :
    (session.cutCycles scene).Answered edges (bases.filter fun edge _ => edge ∉ session.circularEdges) where
  answers edge member sound := by
    rw [hasEdge_cutCycles, Bool.or_eq_false_iff, decide_eq_false_iff_not] at sound
    obtain ⟨base, listed⟩ := answered.answers edge member sound.1
    exact ⟨base, List.mem_filter.mpr ⟨listed, by simpa using sound.2⟩⟩
  asked entry member := by
    obtain ⟨listed, kept⟩ := List.mem_filter.mp member
    obtain ⟨sound, edge, among, same, meant⟩ := answered.asked entry listed
    refine ⟨?_, edge, among, same, meant.mono fun id parallel found => ?_⟩
    · rw [hasEdge_cutCycles, sound, Bool.false_or]
      simpa using kept
    · exact ⟨_, parallel?_cutCycles_of scene found, node_dropBases _ parallel⟩

theorem Orderly.cutCycles (orderly : session.Orderly scene) (sane : session.Sane scene.graph)
    (settled : session.AllSettled) : (session.cutCycles scene).Orderly scene := by
  obtain ⟨after, grows⟩ := sane.cutCycles scene
  constructor
  · intro id now found outer container
    obtain ⟨parallel, there, rfl⟩ := parallel?_of_cutCycles found
    obtain ⟨around, cached, _⟩ := orderly.enclosed id parallel there outer container
    have still := grows.lookup? sane after cached
    obtain ⟨last, present, _⟩ := after.lookup?_eq_some still
    exact ⟨around, still, (settled.cutCycles scene).deep after present⟩
  · intro id name child branch member reaches
    exact hasChild_cutCycles.mpr (orderly.complete id name (hasChild_cutCycles.mp child) branch
      (branchesOf_cutCycles_subset session scene id member) reaches.of_cutCycles)
  · intro id now found
    obtain ⟨parallel, there, rfl⟩ := parallel?_of_cutCycles found
    rw [node_dropBases, soundNode?_congr (hasNode_cutCycles session scene)]
    exact orderly.kinds id parallel there
  · intro id now found root
    obtain ⟨parallel, there, rfl⟩ := parallel?_of_cutCycles found
    rw [isExplicit_congr (node_dropBases _ parallel)]
    exact orderly.roots id parallel there root
  · intro id now found unraked
    obtain ⟨parallel, there, rfl⟩ := parallel?_of_cutCycles found
    rw [Parallel.baseEntries_dropBases, orderly.pristine id parallel there unraked, List.filter_nil]
  · intro id now found branch member other present
    obtain ⟨parallel, there, rfl⟩ := parallel?_of_cutCycles found
    obtain ⟨old, here, rfl⟩ := parallel?_of_cutCycles present
    refine orderly.shorter id parallel there branch ?_ old here
    rcases List.mem_append.mp member with edge | base
    · exact List.mem_append_left _ edge
    · exact List.mem_append_right _ (mem_bases_dropBases base)
  · intro id member edge listed
    rw [settled_cutCycles] at member
    obtain ⟨now, found, among⟩ := List.mem_flatMap.mp listed
    obtain ⟨parallel, there, rfl⟩ := parallel?_of_cutCycles (Option.mem_toList.mp found)
    have before : edge ∈ session.edgesOf id := by
      rw [edgesOf_eq there]
      exact among
    obtain ⟨other, here, raked⟩ := orderly.edgesRaked id member edge before
    exact ⟨_, parallel?_cutCycles_of scene here, raked⟩
  · intro id member now found resolved explicit
    rw [settled_cutCycles] at member
    obtain ⟨parallel, there, rfl⟩ := parallel?_of_cutCycles found
    obtain ⟨before, known, rfl⟩ := Option.map_eq_some_iff.mp explicit
    exact (orderly.answered id member parallel there before known).cutCycles scene

/-- In a session at rest a base belongs to an edge that leaves the node of its parallel and is no cruft. -/
theorem AtRest.outbound_of_entry (rest : session.AtRest scene) {edge : EdgeId} {base : ParallelId}
    (entry : (edge, base) ∈ session.baseEntriesOf id) : session.cruft.hasEdge edge = false ∧
      ∃ parallel resolved, session.parallel? id = some parallel ∧ parallel.explicit = some resolved ∧
        ∃ outbound ∈ scene.graph.outbounds resolved.node, outbound.id = edge := by
  obtain ⟨parallel, found, among⟩ := List.mem_flatMap.mp entry
  have present : session.parallel? id = some parallel := Option.mem_toList.mp found
  cases explicit : parallel.explicit with
  | none => simp [Parallel.baseEntries, explicit] at among
  | some resolved =>
    rw [Parallel.baseEntries, explicit] at among
    have answered := rest.orderly.answered id (rest.settled id parallel present) parallel present resolved explicit
    obtain ⟨sound, outbound, listed, same, _⟩ := answered.asked _ among
    exact ⟨sound, parallel, resolved, present, explicit, outbound, listed, same⟩

theorem AtRest.acyclic_cutCycles (rest : session.AtRest scene) : (session.cutCycles scene).Acyclic := by
  obtain ⟨walk, valid, circular, covered⟩ := rest.sane.exists_walk
  have leads (id base : ParallelId) (step : (session.cutCycles scene).Inherits id base) :
      ∃ edge, (edge, base) ∈ session.baseEntriesOf id ∧ session.cruft.hasEdge edge = false ∧
        edge ∉ walk.circular := by
    obtain ⟨edge, entry⟩ := inherits_iff.mp step
    rw [baseEntriesOf_cutCycles, List.mem_filter, decide_eq_true_eq, ← circular, ← OrderedSet.mem_def] at entry
    exact ⟨edge, entry.1, (rest.outbound_of_entry entry.1).1, entry.2⟩
  intro id cycle
  obtain ⟨base, step, _⟩ := Relation.TransGen.head'_iff.mp cycle
  obtain ⟨edge, entry, _⟩ := leads id base step
  obtain ⟨_, parallel, resolved, found, explicit, _⟩ := rest.outbound_of_entry entry
  -- Only an explicit parallel has bases, and the walk is done with all of those.
  have done := covered parallel (List.mem_of_getElem? found) (by simp [Parallel.isExplicit, explicit])
  rw [rest.sane.numbers id parallel found] at done
  exact (valid.finished.acyclic leads).2 id done cycle

end Rest

section Ledger

variable {statement : StatementId}

/-- A cut drops bases and leaves contracts and nodes as they are. -/
theorem blames_cutCycles : (session.cutCycles scene).Blames scene id statement ↔
    session.Blames scene id statement := by
  constructor
  · rintro ⟨now, last, contract, node, found, explicit, current, rest⟩
    obtain ⟨parallel, there, rfl⟩ := parallel?_of_cutCycles found
    obtain ⟨resolved, known, rfl⟩ := Option.map_eq_some_iff.mp explicit
    exact ⟨parallel, resolved, contract, node, there, known, current, rest⟩
  · rintro ⟨parallel, resolved, contract, node, there, explicit, current, rest⟩
    exact ⟨_, { resolved with bases := resolved.bases.filter fun edge _ => edge ∉ session.circularEdges }, contract,
      node, parallel?_cutCycles_of scene there, by simp only [Parallel.dropBases, Parallel.mapResolved, explicit,
        Option.map_some], current, rest⟩

theorem Balanced.cutCycles (balanced : session.Balanced scene) : (session.cutCycles scene).Balanced scene := by
  have condemned (edges : List EdgeId) (session : Session) (balanced : session.Balanced scene) :
      (edges.foldl (fun session edge => session.condemn scene (.edge edge) .circular) session).Balanced
        scene := by
    induction edges generalizing session with
    | nil => exact balanced
    | cons edge edges ih => exact ih _ (balanced.condemn edge rfl)
  have calm := calm_foldl (fun session edge => calm_condemn session scene (.edge edge) .circular) session
    session.circularEdges
  obtain ⟨located, tallied, accuses⟩ := condemned session.circularEdges session balanced
  refine ⟨located, tallied, fun statement => (accuses statement).trans ?_⟩
  have same (id : ParallelId) : (session.circularEdges.foldl (fun session edge =>
      session.condemn scene (.edge edge) .circular) session).Blames scene id statement ↔
        session.Blames scene id statement := blames_congr (by simp only [parallel?, calm.parallels])
  simp only [settled_cutCycles, calm.settled, blames_cutCycles, same]

theorem AtRest.drill_balances (coherent : scene.graph.Coherent) (rest : session.AtRest scene)
    (balanced : session.Balanced scene) (path : TypePath) :
    Ensures (session.drill scene path) fun result => result.2.Balanced scene := by
  unfold drill
  refine (rest.drillWithin_ensures coherent (drillBound scene) path).bind fun result settles => .pure ?_
  exact (settles.1.balances rfl balanced).cutCycles

end Ledger

end Session
end OutlineTypes
