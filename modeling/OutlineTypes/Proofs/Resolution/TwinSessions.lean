import OutlineTypes.Proofs.Lists
import OutlineTypes.Proofs.Resolution.Lineage
import OutlineTypes.Proofs.Resolution.TwinCruft
import OutlineTypes.Proofs.Search

/-! Twin sessions. What the session of the first scene holds for documents of the pairing is what the session of the
second scene holds, up to identities, and so are all lineages and conditions. The first session may hold parallels
of other documents in between, so it numbers its parallels differently. -/
namespace OutlineTypes

open OutlineTypes.Graph

variable {pairs : Pairing} {first second : Scene} {roll more : List ParallelId}

section Numbers

/-- The parallels of a session that are of documents of the pairing. -/
def Graph.Pairing.parallels (pairs : Pairing) (session : Session) : List Parallel :=
  session.parallels.filter fun parallel => pairs.Covers parallel.path.document

def Graph.Pairing.ids (pairs : Pairing) (session : Session) : List ParallelId :=
  (pairs.parallels session).map Parallel.id

/-- The second parallel has the number of the first one among these. -/
def Numbered (roll : List ParallelId) (id again : ParallelId) : Prop := roll[again.index]? = some id

variable {id again : ParallelId}

theorem Numbered.mono (same : Numbered roll id again) (grown : roll <+: more) : Numbered more id again := by
  obtain ⟨inside, rfl⟩ := List.getElem?_eq_some_iff.mp same
  exact List.prefix_iff_getElem?.mp grown _ inside

theorem biUnique_numbered (distinct : roll.Nodup) : Relator.BiUnique (Numbered roll) := by
  constructor
  · exact fun _ _ _ one two => Option.some.inj (one.symm.trans two)
  · rintro id ⟨first⟩ ⟨second⟩ one two
    obtain ⟨inside, _⟩ := List.getElem?_eq_some_iff.mp one
    exact congrArg ParallelId.mk ((List.getElem?_inj inside distinct).mp (one.trans two.symm))

theorem exists_numbered_iff : (∃ again, Numbered roll id again) ↔ id ∈ roll :=
  ⟨fun ⟨_, same⟩ => List.mem_of_getElem? same, fun member => by
    obtain ⟨index, found⟩ := List.mem_iff_getElem?.mp member
    exact ⟨⟨index⟩, found⟩⟩

theorem exists_numbered_iff_lt : (∃ id, Numbered roll id again) ↔ again.index < roll.length :=
  ⟨fun ⟨_, same⟩ => (List.getElem?_eq_some_iff.mp same).1, fun inside => ⟨_, List.getElem?_eq_getElem inside⟩⟩

end Numbers

section Relations

/-- The contracts have the same conditions. -/
structure TwinContracts (roll : List ParallelId) (contract twin : Contract) : Prop where
  conditions : OrderedSet.Rel (Numbered roll) contract.conditions twin.conditions
  unsatisfied : OrderedSet.Rel (Numbered roll) contract.unsatisfied twin.unsatisfied

structure TwinResolved (pairs : Pairing) (first second : Scene) (roll : List ParallelId) (resolved twin : Resolved) :
    Prop where
  node : TwinIds pairs first.graph second.graph resolved.node twin.node
  bases : OrderedMap.Rel (TwinEdgeIds pairs first.graph second.graph) (Numbered roll) resolved.bases twin.bases
  contract : Option.Rel (TwinContracts roll) resolved.contract twin.contract

structure TwinParallels (pairs : Pairing) (first second : Scene) (roll : List ParallelId) (parallel twin : Parallel) :
    Prop where
  id : Numbered roll parallel.id twin.id
  path : pairs.SamePath parallel.path twin.path
  container : Option.Rel (Numbered roll) parallel.container twin.container
  edges : OrderedSet.Rel (Numbered roll) parallel.edges twin.edges
  raked : twin.raked = parallel.raked
  explicit : Option.Rel (TwinResolved pairs first second roll) parallel.explicit twin.explicit

/-- The first session holds for the documents of the pairing what the second one holds. -/
structure TwinHoldings (pairs : Pairing) (first second : Scene) (session twin : Session) : Prop where
  numbers : ∀ id parallel, session.parallel? id = some parallel → parallel.id = id
  parallels : List.Forall₂ (TwinParallels pairs first second (pairs.ids session)) (pairs.parallels session)
    twin.parallels
  cruft : TwinCruft pairs first second session.cruft twin.cruft
  faults : TwinLogs pairs session.faults twin.faults
  prepared : twin.prepared = session.prepared

/-- The sessions hold the same, and the same is under way in both. -/
structure TwinSessions (pairs : Pairing) (first second : Scene) (session twin : Session) : Prop
    extends TwinHoldings pairs first second session twin where
  inFlight : List.Forall₂ pairs.SamePath session.inFlight twin.inFlight
  raking : List.Forall₂ (Numbered (pairs.ids session)) session.raking twin.raking

/-- Twin sessions after those whose numbers are given. -/
structure TwinRuns (pairs : Pairing) (first second : Scene) (roll : List ParallelId) (session twin : Session) :
    Prop extends TwinSessions pairs first second session twin where
  grown : roll <+: pairs.ids session

/-- Related answers and twin sessions. -/
structure TwinResults (pairs : Pairing) (first second : Scene) (R : List ParallelId → α → β → Prop)
    (roll : List ParallelId) (result : α × Session) (twin : β × Session) : Prop where
  answer : R (pairs.ids result.2) result.1 twin.1
  sessions : TwinRuns pairs first second roll result.2 twin.2

theorem rel_option_mono {R S : α → β → Prop} (implies : ∀ x y, R x y → S x y) {x : Option α} {y : Option β}
    (related : Option.Rel R x y) : Option.Rel S x y := by
  cases related with
  | none => exact .none
  | some same => exact .some (implies _ _ same)

theorem TwinContracts.mono {contract twin : Contract} (twins : TwinContracts roll contract twin)
    (grown : roll <+: more) : TwinContracts more contract twin :=
  ⟨twins.conditions.imp fun _ _ same => same.mono grown, twins.unsatisfied.imp fun _ _ same => same.mono grown⟩

theorem TwinResolved.mono {resolved twin : Resolved} (twins : TwinResolved pairs first second roll resolved twin)
    (grown : roll <+: more) : TwinResolved pairs first second more resolved twin where
  node := twins.node
  bases := twins.bases.imp fun _ _ same => ⟨same.1, same.2.mono grown⟩
  contract := rel_option_mono (fun _ _ same => same.mono grown) twins.contract

theorem TwinParallels.mono {parallel twin : Parallel} (twins : TwinParallels pairs first second roll parallel twin)
    (grown : roll <+: more) : TwinParallels pairs first second more parallel twin where
  id := twins.id.mono grown
  path := twins.path
  container := rel_option_mono (fun _ _ same => same.mono grown) twins.container
  edges := twins.edges.imp fun _ _ same => same.mono grown
  raked := twins.raked
  explicit := rel_option_mono (fun _ _ same => same.mono grown) twins.explicit

theorem TwinSessions.run {session twin : Session} (twins : TwinSessions pairs first second session twin) :
    TwinRuns pairs first second (pairs.ids session) session twin := { twins with grown := List.prefix_refl _ }

theorem TwinRuns.since {session twin : Session} (twins : TwinRuns pairs first second more session twin)
    (grown : roll <+: more) : TwinRuns pairs first second roll session twin :=
  { twins with grown := grown.trans twins.grown }

theorem TwinResults.since {R : List ParallelId → α → β → Prop} {result : α × Session} {twin : β × Session}
    (twins : TwinResults pairs first second R more result twin) (grown : roll <+: more) :
    TwinResults pairs first second R roll result twin := ⟨twins.answer, twins.sessions.since grown⟩

/-- Results of further steps are results since an earlier time. -/
theorem Lockstep.bindResults {R : List ParallelId → α → β → Prop} {S : List ParallelId → γ → δ → Prop}
    {run : Except ε (α × Session)} {other : Except ε (β × Session)} {next : α × Session → Except ε (γ × Session)}
    {onward : β × Session → Except ε (δ × Session)} (h : Lockstep (TwinResults pairs first second R roll) run other)
    (steps : ∀ answer again session twin, TwinSessions pairs first second session twin → roll <+: pairs.ids session →
      R (pairs.ids session) answer again →
        Lockstep (TwinResults pairs first second S (pairs.ids session)) (next (answer, session))
          (onward (again, twin))) :
    Lockstep (TwinResults pairs first second S roll) (run >>= next) (other >>= onward) := by
  refine h.bind ?_
  rintro ⟨answer, session⟩ ⟨again, twin⟩ ⟨same, sessions⟩
  exact (steps answer again session twin sessions.toTwinSessions sessions.grown same).mono fun _ _ h =>
    h.since sessions.grown

/-- A run after another one is a run since the first one began. -/
theorem Lockstep.bindRuns {run other : Except ε Session} {next : Session → Except ε Session}
    {onward : Session → Except ε Session} (h : Lockstep (TwinRuns pairs first second roll) run other)
    (steps : ∀ session twin, TwinSessions pairs first second session twin → roll <+: pairs.ids session →
      Lockstep (TwinRuns pairs first second (pairs.ids session)) (next session) (onward twin)) :
    Lockstep (TwinRuns pairs first second roll) (run >>= next) (other >>= onward) :=
  h.bind fun session twin twins => (steps session twin twins.toTwinSessions twins.grown).mono fun _ _ h =>
    h.since twins.grown

end Relations

namespace TwinParallels

variable {parallel twin : Parallel}

theorem isExplicit (twins : TwinParallels pairs first second roll parallel twin) :
    twin.isExplicit = parallel.isExplicit := by
  unfold Parallel.isExplicit
  rcases eq_none_or_exists_of_rel twins.explicit with ⟨here, there⟩ | ⟨_, _, here, there, _⟩ <;>
    rw [here, there]
  rfl

theorem isApex (twins : TwinParallels pairs first second roll parallel twin) : twin.isApex = parallel.isApex :=
  OrderedSet.isEmpty_of_rel twins.edges

theorem baseEntries (twins : TwinParallels pairs first second roll parallel twin) :
    List.Forall₂ (fun entry again => TwinEdgeIds pairs first.graph second.graph entry.1 again.1 ∧
      Numbered roll entry.2 again.2) parallel.baseEntries twin.baseEntries := by
  unfold Parallel.baseEntries
  rcases eq_none_or_exists_of_rel twins.explicit with ⟨here, there⟩ | ⟨_, _, here, there, same⟩ <;>
    rw [here, there]
  · exact .nil
  · exact same.bases

theorem bases (twins : TwinParallels pairs first second roll parallel twin) :
    List.Forall₂ (Numbered roll) parallel.bases twin.bases := by
  unfold Parallel.bases
  rw [List.forall₂_map_left_iff, List.forall₂_map_right_iff]
  exact twins.baseEntries.imp fun _ _ same => same.2

theorem branches (twins : TwinParallels pairs first second roll parallel twin) :
    List.Forall₂ (Numbered roll) parallel.branches twin.branches := List.rel_append twins.edges twins.bases

theorem mapResolved {change other : Resolved → Resolved} (twins : TwinParallels pairs first second roll parallel twin)
    (same : ∀ resolved again, TwinResolved pairs first second roll resolved again →
      TwinResolved pairs first second roll (change resolved) (other again)) :
    TwinParallels pairs first second roll (parallel.mapResolved change) (twin.mapResolved other) where
  id := twins.id
  path := twins.path
  container := twins.container
  edges := twins.edges
  raked := twins.raked
  explicit := by
    simp only [Parallel.mapResolved]
    rcases eq_none_or_exists_of_rel twins.explicit with ⟨here, there⟩ | ⟨_, _, here, there, resolved⟩ <;>
      rw [here, there]
    · exact .none
    · exact .some (same _ _ resolved)

end TwinParallels

/-- Parallels that are found by their numbers have different ones. -/
theorem Session.nodup_ids {session : Session}
    (numbers : ∀ id parallel, session.parallel? id = some parallel → parallel.id = id) :
    (session.parallels.map Parallel.id).Nodup := by
  have all : session.parallels.map Parallel.id = (List.range session.parallels.length).map ParallelId.mk := by
    refine List.ext_getElem (by simp) fun index before inside => ?_
    rw [List.getElem_map, List.getElem_map, List.getElem_range]
    exact numbers ⟨index⟩ _ (List.getElem?_eq_getElem (by simpa using before))
  rw [all]
  exact List.nodup_range.map fun _ _ same => congrArg ParallelId.index same

namespace TwinSessions

variable {session twin : Session} {id again : ParallelId}

theorem distinct (twins : TwinSessions pairs first second session twin) : (pairs.ids session).Nodup :=
  (Session.nodup_ids twins.numbers).sublist (List.filter_sublist.map Parallel.id)

theorem biUnique (twins : TwinSessions pairs first second session twin) :
    Relator.BiUnique (Numbered (pairs.ids session)) := biUnique_numbered twins.distinct

theorem size (twins : TwinSessions pairs first second session twin) : twin.size = (pairs.ids session).length := by
  rw [Session.size, Graph.Pairing.ids, List.length_map, twins.parallels.length_eq]

theorem size_le (session : Session) : (pairs.ids session).length ≤ session.size := by
  rw [Graph.Pairing.ids, List.length_map]
  exact List.length_filter_le _ _

theorem numbersToo (twins : TwinSessions pairs first second session twin) (id : ParallelId) (parallel : Parallel)
    (found : twin.parallel? id = some parallel) : parallel.id = id := by
  obtain ⟨other, here, same⟩ := exists_getElem?_left twins.parallels found
  have number : Numbered (pairs.ids session) other.id id := by
    rw [Numbered, Graph.Pairing.ids, List.getElem?_map, here]
    rfl
  exact twins.biUnique.2 same.id number

theorem exists_parallels (twins : TwinSessions pairs first second session twin)
    (same : Numbered (pairs.ids session) id again) : ∃ parallel other, session.parallel? id = some parallel ∧
      twin.parallel? again = some other ∧ TwinParallels pairs first second (pairs.ids session) parallel other := by
  rw [Numbered, Graph.Pairing.ids, List.getElem?_map, Option.map_eq_some_iff] at same
  obtain ⟨parallel, found, rfl⟩ := same
  obtain ⟨other, foundToo, alike⟩ := exists_getElem?_right twins.parallels found
  obtain ⟨index, there⟩ := Session.exists_of_mem (List.mem_filter.mp (List.mem_of_getElem? found)).1
  refine ⟨parallel, other, ?_, foundToo, alike⟩
  rwa [twins.numbers index parallel there]

theorem lookup? (scenes : TwinScenes pairs first second) (twins : TwinSessions pairs first second session twin)
    {path other : TypePath} (same : pairs.SamePath path other) :
    Option.Rel (Numbered (pairs.ids session)) (session.lookup? path) (twin.lookup? other) := by
  have own : session.lookup? path = ((pairs.parallels session).find? (·.path = path)).map Parallel.id := by
    rw [Session.lookup?, Graph.Pairing.parallels, List.find?_filter]
    congr 2
    funext parallel
    by_cases here : parallel.path = path
    · simp [here, (Pairing.covers_of_samePath same).1]
    · simp [here]
  rw [own, Session.lookup?]
  have parallels := twins.parallels
  generalize pairs.ids session = ids at parallels ⊢
  generalize pairs.parallels session = xs at parallels ⊢
  generalize twin.parallels = ys at parallels ⊢
  induction parallels with
  | nil => exact .none
  | cons alike _ ih =>
    have met := eq_iff_of_biUnique scenes.paired.biUnique_samePath alike.path same
    simp only [List.find?_cons, decide_eq_decide.mpr met]
    split
    · exact .some alike.id
    · exact ih

theorem parallelOf (twins : TwinSessions pairs first second session twin)
    (same : Numbered (pairs.ids session) id again) :
    Lockstep (TwinParallels pairs first second (pairs.ids session)) (session.parallelOf id)
      (twin.parallelOf again) := by
  obtain ⟨parallel, other, here, there, alike⟩ := twins.exists_parallels same
  simp only [Session.parallelOf, here, there]
  exact .ok alike

section Lineage

theorem edgesOf (twins : TwinSessions pairs first second session twin) (id again : ParallelId)
    (same : Numbered (pairs.ids session) id again) :
    List.Forall₂ (Numbered (pairs.ids session)) (session.edgesOf id) (twin.edgesOf again) := by
  obtain ⟨parallel, other, here, there, alike⟩ := twins.exists_parallels same
  simp only [Session.edgesOf, here, there, Option.toList_some, List.flatMap_singleton]
  exact alike.edges

theorem basesOf (twins : TwinSessions pairs first second session twin) (id again : ParallelId)
    (same : Numbered (pairs.ids session) id again) :
    List.Forall₂ (Numbered (pairs.ids session)) (session.basesOf id) (twin.basesOf again) := by
  obtain ⟨parallel, other, here, there, alike⟩ := twins.exists_parallels same
  simp only [Session.basesOf, here, there, Option.toList_some, List.flatMap_singleton]
  exact alike.bases

theorem branchesOf (twins : TwinSessions pairs first second session twin) (id again : ParallelId)
    (same : Numbered (pairs.ids session) id again) :
    List.Forall₂ (Numbered (pairs.ids session)) (session.branchesOf id) (twin.branchesOf again) := by
  obtain ⟨parallel, other, here, there, alike⟩ := twins.exists_parallels same
  simp only [Session.branchesOf, here, there, Option.toList_some, List.flatMap_singleton]
  exact alike.branches

theorem isExplicit (twins : TwinSessions pairs first second session twin)
    (same : Numbered (pairs.ids session) id again) : twin.isExplicit again = session.isExplicit id := by
  obtain ⟨parallel, other, here, there, alike⟩ := twins.exists_parallels same
  simp only [Session.isExplicit, here, there, Option.any_some]
  exact alike.isExplicit

theorem suffices_left (session : Session) : Suffices ParallelId.index
    (fun id => ∃ again, Numbered (pairs.ids session) id again) session.size := by
  refine ⟨((pairs.ids session).map ParallelId.index).toFinset, fun id => ?_, ?_⟩
  · refine Iff.trans ?_ exists_numbered_iff.symm
    rw [List.mem_toFinset, List.mem_map_of_injective fun _ _ => ParallelId.eq_of_index _ _]
  · exact (List.toFinset_card_le _).trans (by simpa using size_le session)

theorem suffices_right (twins : TwinSessions pairs first second session twin) : Suffices ParallelId.index
    (fun again => ∃ id, Numbered (pairs.ids session) id again) twin.size :=
  ⟨Finset.range twin.size, fun _ => by
    rw [Finset.mem_range, twins.size]
    exact exists_numbered_iff_lt.symm, by simp⟩

theorem lineage (twins : TwinSessions pairs first second session twin)
    (same : Numbered (pairs.ids session) id again) :
    List.Forall₂ (Numbered (pairs.ids session)) (session.lineage id) (twin.lineage again) :=
  breadthFirst_related twins.biUnique ParallelId.eq_of_index ParallelId.eq_of_index twins.branchesOf (suffices_left session)
    twins.suffices_right (.cons same .nil)

theorem lineageOf (twins : TwinSessions pairs first second session twin)
    (same : Numbered (pairs.ids session) id again) :
    Lockstep (List.Forall₂ (Numbered (pairs.ids session))) (session.lineageOf id) (twin.lineageOf again) :=
  .of_ensures (Session.lineageOf_ensures session id) (Session.lineageOf_ensures twin again)
    fun _ _ here there => here ▸ there ▸ twins.lineage same

theorem baseGraph (twins : TwinSessions pairs first second session twin) (id again : ParallelId)
    (same : Numbered (pairs.ids session) id again) :
    List.Forall₂ (Numbered (pairs.ids session)) (session.baseGraph id) (twin.baseGraph again) := by
  have unique := twins.biUnique
  have marks := (sameMarks_empty (Numbered (pairs.ids session)) ParallelId.index ParallelId.index).insert unique
    ParallelId.eq_of_index ParallelId.eq_of_index same
  exact depthFirst_related_of_suffices unique ParallelId.eq_of_index ParallelId.eq_of_index twins.basesOf (suffices_left session)
    twins.suffices_right marks (List.forall₂_reverse_iff.mpr (twins.basesOf id again same))

theorem overriding (twins : TwinSessions pairs first second session twin)
    (same : Numbered (pairs.ids session) id again) :
    List.Forall₂ (Numbered (pairs.ids session)) (session.overriding id) (twin.overriding again) := by
  refine depthFirst_related_of_suffices twins.biUnique ParallelId.eq_of_index ParallelId.eq_of_index (fun other opposite same => ?_)
    (suffices_left session) twins.suffices_right (sameMarks_empty _ _ _)
    (List.forall₂_reverse_iff.mpr (twins.edgesOf id again same))
  rw [twins.isExplicit same]
  split
  · exact .nil
  · exact twins.edgesOf other opposite same

theorem conditions (twins : TwinSessions pairs first second session twin)
    (same : Numbered (pairs.ids session) id again) :
    List.Forall₂ (Numbered (pairs.ids session)) (session.conditions id) (twin.conditions again) := by
  have overridden : List.Forall₂ (Numbered (pairs.ids session)) (session.overridden id) (twin.overridden again) :=
    List.rel_filter (fun _ _ same => by simp only [twins.isExplicit same]) (twins.overriding same)
  exact distinct_related twins.biUnique ParallelId.eq_of_index ParallelId.eq_of_index (List.rel_flatMap overridden twins.baseGraph)

theorem conditionsOf (twins : TwinSessions pairs first second session twin)
    (same : Numbered (pairs.ids session) id again) :
    Lockstep (List.Forall₂ (Numbered (pairs.ids session))) (session.conditionsOf id) (twin.conditionsOf again) :=
  .of_ensures (Session.conditionsOf_ensures session id) (Session.conditionsOf_ensures twin again)
    fun _ _ here there => here ▸ there ▸ twins.conditions same

end Lineage

section Change

/-- A change of the parallel with a number. -/
theorem modify_parallels {session : Session}
    (numbers : ∀ id parallel, session.parallel? id = some parallel → parallel.id = id) (id : ParallelId)
    (change : Parallel → Parallel) : (session.modify id change).parallels =
      session.parallels.map fun parallel => if parallel.id = id then change parallel else parallel := by
  refine List.ext_getElem? fun index => ?_
  simp only [Session.modify, List.getElem?_modify, List.getElem?_map]
  cases found : session.parallels[index]? with
  | none => rfl
  | some parallel =>
    have number : parallel.id = ⟨index⟩ := numbers ⟨index⟩ parallel found
    have here : parallel.id = id ↔ id.index = index := by
      rw [number]
      exact ⟨fun same => congrArg ParallelId.index same.symm, fun same => ParallelId.eq_of_index _ _ same.symm⟩
    simp [here]

theorem modify (twins : TwinSessions pairs first second session twin) (same : Numbered (pairs.ids session) id again)
    {change other : Parallel → Parallel} (number : ∀ parallel, (change parallel).id = parallel.id)
    (path : ∀ parallel, (change parallel).path = parallel.path)
    (alike : ∀ parallel opposite, TwinParallels pairs first second (pairs.ids session) parallel opposite →
      TwinParallels pairs first second (pairs.ids session) (change parallel) (other opposite)) :
    TwinRuns pairs first second (pairs.ids session) (session.modify id change) (twin.modify again other) := by
  have own : pairs.parallels (session.modify id change) = (pairs.parallels session).map fun parallel =>
      if parallel.id = id then change parallel else parallel := by
    rw [Graph.Pairing.parallels, modify_parallels twins.numbers, List.filter_map, Graph.Pairing.parallels]
    congr 1
    refine List.filter_congr fun parallel _ => ?_
    simp only [Function.comp]
    split
    · rw [path]
    · rfl
  have ids : pairs.ids (session.modify id change) = pairs.ids session := by
    rw [Graph.Pairing.ids, own, List.map_map, Graph.Pairing.ids]
    refine List.map_congr_left fun parallel _ => ?_
    simp only [Function.comp]
    split
    · exact number parallel
    · rfl
  refine ⟨⟨⟨fun place now found => ?_, ?_, twins.cruft, twins.faults, twins.prepared⟩, twins.inFlight,
    ids ▸ twins.raking⟩, ids ▸ List.prefix_refl _⟩
  · obtain ⟨parallel, there, rfl | ⟨_, rfl⟩⟩ := Session.exists_of_modified _ _ found
    · exact twins.numbers place _ there
    · exact (number parallel).trans (twins.numbers place parallel there)
  · rw [ids, own, modify_parallels twins.numbersToo, List.forall₂_map_left_iff, List.forall₂_map_right_iff]
    refine twins.parallels.imp fun parallel opposite twinParallels => ?_
    have met := eq_iff_of_biUnique twins.biUnique twinParallels.id same
    simp only [met]
    split
    · exact alike parallel opposite twinParallels
    · exact twinParallels

theorem insert (scenes : TwinScenes pairs first second) (twins : TwinSessions pairs first second session twin)
    {path other : TypePath} (same : pairs.SamePath path other) {container around : Option ParallelId}
    (containers : Option.Rel (Numbered (pairs.ids session)) container around) {node opposite : Option NodeId}
    (nodes : Option.Rel (TwinIds pairs first.graph second.graph) node opposite) :
    Lockstep (TwinResults pairs first second Numbered (pairs.ids session)) (session.insert path container node)
      (twin.insert other around opposite) := by
  unfold Session.insert
  rcases eq_none_or_exists_of_rel (twins.lookup? scenes same) with ⟨here, there⟩ | ⟨_, _, here, there, _⟩ <;>
    simp only [here, there]
  · have covered := (Pairing.covers_of_samePath same).1
    let new : Parallel := ⟨⟨session.size⟩, path, container, ∅, node.map fun node => ⟨node, ∅, none⟩, false⟩
    let next : Session := { session with parallels := session.parallels ++ [new] }
    have own : pairs.parallels next = pairs.parallels session ++ [new] := by
      simp [next, new, Graph.Pairing.parallels, covered]
    have ids : pairs.ids next = pairs.ids session ++ [⟨session.size⟩] := by
      rw [Graph.Pairing.ids, own, List.map_append]
      rfl
    have grown : pairs.ids session <+: pairs.ids next := ids ▸ List.prefix_append _ _
    have number : Numbered (pairs.ids next) ⟨session.size⟩ ⟨twin.size⟩ := by
      rw [Numbered, ids, twins.size, List.getElem?_append_right (Nat.le_refl _), Nat.sub_self]
      rfl
    refine .ok ⟨number, ⟨⟨?_, ?_, twins.cruft, twins.faults, twins.prepared⟩, twins.inFlight,
      twins.raking.imp fun _ _ same => same.mono grown⟩, grown⟩
    · intro id parallel found
      change (session.parallels ++ [new])[id.index]? = some parallel at found
      rw [List.getElem?_append] at found
      split at found
      · exact twins.numbers id parallel found
      · obtain ⟨last, rfl⟩ := List.getElem?_eq_some_iff.mp found
        rw [List.getElem_singleton]
        exact ParallelId.eq_of_index _ _ (by simp only [List.length_singleton, new, Session.size] at last ⊢; omega)
    · change List.Forall₂ _ (pairs.parallels next) _
      rw [own]
      refine List.rel_append (twins.parallels.imp fun _ _ alike => alike.mono grown) (.cons ?_ .nil)
      refine ⟨number, same, rel_option_mono (fun _ _ same => same.mono grown) containers, .nil, rfl, ?_⟩
      cases nodes with
      | none => exact .none
      | some alike => exact .some ⟨alike, .nil, .none⟩
  · exact .error_left _

theorem condemn (scenes : TwinScenes pairs first second) (twins : TwinSessions pairs first second session twin)
    {target opposite : CruftTarget} (same : TwinTargets pairs first second target opposite) (kind : FaultKind) :
    TwinRuns pairs first second (pairs.ids session) (session.condemn first target kind)
      (twin.condemn second opposite kind) := by
  have states : TwinStates pairs first second (session.cruft, session.faults) (twin.cruft, twin.faults) :=
    ⟨twins.cruft, twins.faults⟩
  have added := scenes.add kind states same
  exact { twins with cruft := added.cruft, faults := added.log, grown := List.prefix_refl _ }

theorem soundNode? (scenes : TwinScenes pairs first second) (twins : TwinSessions pairs first second session twin)
    {path other : TypePath} (same : pairs.SamePath path other) :
    Option.Rel (TwinIds pairs first.graph second.graph) (session.soundNode? first path)
      (twin.soundNode? second other) := by
  unfold Session.soundNode?
  rcases eq_none_or_exists_of_rel (scenes.paired.nodeAt? same) with
    ⟨here, there⟩ | ⟨node, opposite, here, there, nodes⟩ <;> rw [here, there]
  · exact .none
  · have ids : TwinIds pairs first.graph second.graph node.id opposite.id := ⟨node, opposite, nodes, rfl, rfl⟩
    have both := twins.cruft _ _ (.node ids)
    by_cases marked : session.cruft.has (.node node.id)
    · simp only [Cruft.hasNode, both, marked, ↓reduceIte]
      exact .none
    · simp only [Cruft.hasNode, both, marked, Bool.false_eq_true, ↓reduceIte]
      exact .some ids

end Change

end TwinSessions

end OutlineTypes
