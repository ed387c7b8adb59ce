import OutlineTypes.Proofs.Graph.Coherence
import OutlineTypes.Resolution.Drill

/-! Sane sessions. Parallels are numbered in order and no two have one path; every branch leads to a
parallel of the same document, every explicit parallel has its node, and a parallel settles once. -/
namespace OutlineTypes

theorem mem_values_put [DecidableEq κ] {entries : List (κ × α)} {key : κ} {value other : α}
    (member : other ∈ (OrderedMap.put entries key value).map Prod.snd) :
    other = value ∨ other ∈ entries.map Prod.snd := by
  induction entries with
  | nil => exact .inl (by simpa [OrderedMap.put] using member)
  | cons entry rest ih =>
    unfold OrderedMap.put at member
    split at member
    · exact (List.mem_cons.mp member).imp_right (List.mem_cons_of_mem _)
    · rcases List.mem_cons.mp member with rfl | later
      · exact .inr List.mem_cons_self
      · exact (ih later).imp_right (List.mem_cons_of_mem _)

namespace Session

variable {graph : Graph} {session next last : Session}

/-- The parallel is in the session and stands in this document. -/
def Holds (session : Session) (document : DocumentId) (id : ParallelId) : Prop :=
  ∃ parallel, session.parallel? id = some parallel ∧ parallel.path.document = document

structure Sane (graph : Graph) (session : Session) : Prop where
  numbers : ∀ id parallel, session.parallel? id = some parallel → parallel.id = id
  paths : ∀ id other parallel again, session.parallel? id = some parallel →
    session.parallel? other = some again → parallel.path = again.path → id = other
  branches : ∀ id parallel, session.parallel? id = some parallel →
    ∀ branch ∈ parallel.branches, session.Holds parallel.path.document branch
  explicit : ∀ id parallel, session.parallel? id = some parallel →
    ∀ resolved, parallel.explicit = some resolved →
      ∃ node ∈ graph.nodes, node.id = resolved.node ∧ node.path = parallel.path
  settledOnce : session.settled.Nodup
  settled : ∀ id ∈ session.settled, ∃ parallel, session.parallel? id = some parallel ∧ parallel.raked

theorem sane_empty (version : Nat) : (empty version).Sane graph := by
  constructor <;> simp [empty, parallel?]

/-- What only grows while a session is used; drills and rakings that were begun have ended. -/
structure Extends (session next : Session) : Prop where
  keeps : ∀ id parallel, session.parallel? id = some parallel → ∃ now, next.parallel? id = some now ∧
    now.path = parallel.path ∧ now.edges = parallel.edges ∧ (parallel.raked → now.raked)
  settles : ∃ more, next.settled = session.settled ++ more ∧
    ∀ id ∈ more, ∀ parallel, session.parallel? id = some parallel → parallel.raked = false
  inFlight : next.inFlight = session.inFlight
  raking : next.raking = session.raking
  version : next.version = session.version

namespace Extends

theorem refl (session : Session) : Extends session session :=
  ⟨fun _ parallel found => ⟨parallel, found, rfl, rfl, id⟩, ⟨[], by simp⟩, rfl, rfl, rfl⟩

theorem trans (first : Extends session next) (second : Extends next last) : Extends session last where
  keeps id parallel found := by
    obtain ⟨mid, midFound, midPath, midEdges, midRaked⟩ := first.keeps id parallel found
    obtain ⟨now, nowFound, path, edges, raked⟩ := second.keeps id mid midFound
    exact ⟨now, nowFound, path.trans midPath, edges.trans midEdges, fun h => raked (midRaked h)⟩
  settles := by
    obtain ⟨more, eq, unraked⟩ := first.settles
    obtain ⟨further, furtherEq, furtherUnraked⟩ := second.settles
    refine ⟨more ++ further, by rw [furtherEq, eq, List.append_assoc], fun id member parallel found => ?_⟩
    rcases List.mem_append.mp member with before | after
    · exact unraked id before parallel found
    · obtain ⟨mid, midFound, _, _, raked⟩ := first.keeps id parallel found
      have := furtherUnraked id after mid midFound
      by_contra h
      simp [raked (by simpa using h)] at this
  inFlight := second.inFlight.trans first.inFlight
  raking := second.raking.trans first.raking
  version := second.version.trans first.version

theorem holds (h : Extends session next) {document : DocumentId} {id : ParallelId}
    (held : session.Holds document id) : next.Holds document id := by
  obtain ⟨parallel, found, same⟩ := held
  obtain ⟨now, nowFound, path, _⟩ := h.keeps id parallel found
  exact ⟨now, nowFound, path ▸ same⟩

end Extends

theorem Extends.size_le (h : Extends session next) : session.size ≤ next.size := by
  by_contra less
  have inside : next.size < session.parallels.length := Nat.not_le.mp less
  obtain ⟨now, found, _⟩ := h.keeps ⟨next.size⟩ _ (List.getElem?_eq_getElem inside)
  exact absurd (List.getElem?_eq_some_iff.mp found).1 (Nat.lt_irrefl _)

section Lookup

theorem lt_of_parallel? {id : ParallelId} {parallel : Parallel}
    (found : session.parallel? id = some parallel) : id.index < session.size :=
  (List.getElem?_eq_some_iff.mp found).1

theorem Holds.parallelOf {document : DocumentId} {id : ParallelId} (held : session.Holds document id) :
    Succeeds (session.parallelOf id) fun parallel =>
      session.parallel? id = some parallel ∧ parallel.path.document = document := by
  obtain ⟨parallel, found, same⟩ := held
  simp only [Session.parallelOf, found]
  exact .ok ⟨rfl, same⟩

theorem parallelOf_ensures (session : Session) (id : ParallelId) :
    Ensures (session.parallelOf id) fun parallel => session.parallel? id = some parallel := by
  unfold parallelOf
  split
  · rename_i parallel found
    exact .ok found
  · exact .error _

theorem exists_of_mem {parallel : Parallel} (member : parallel ∈ session.parallels) :
    ∃ id, session.parallel? id = some parallel := by
  obtain ⟨index, found⟩ := List.mem_iff_getElem?.mp member
  exact ⟨⟨index⟩, found⟩

theorem Sane.lookup?_eq_some (sane : session.Sane graph) {path : TypePath} {id : ParallelId}
    (found : session.lookup? path = some id) :
    ∃ parallel, session.parallel? id = some parallel ∧ parallel.path = path := by
  obtain ⟨parallel, met, rfl⟩ := Option.map_eq_some_iff.mp found
  obtain ⟨id, present⟩ := exists_of_mem (List.mem_of_find?_eq_some met)
  exact ⟨parallel, sane.numbers id parallel present ▸ present, by simpa using List.find?_some met⟩

theorem lookup?_eq_none {path : TypePath} (absent : session.lookup? path = none) {id : ParallelId}
    {parallel : Parallel} (found : session.parallel? id = some parallel) : parallel.path ≠ path := by
  rw [lookup?, Option.map_eq_none_iff, List.find?_eq_none] at absent
  simpa using absent parallel (List.mem_of_getElem? found)

theorem Sane.holds_of_lookup? (sane : session.Sane graph) {path : TypePath} {id : ParallelId}
    (found : session.lookup? path = some id) : session.Holds path.document id := by
  obtain ⟨parallel, present, rfl⟩ := sane.lookup?_eq_some found
  exact ⟨parallel, present, rfl⟩

end Lookup

section Modify

theorem parallel?_modify (session : Session) (id other : ParallelId) (change : Parallel → Parallel) :
    (session.modify id change).parallel? other =
      if other = id then (session.parallel? other).map change else session.parallel? other := by
  cases id with | mk index =>
  cases other with | mk position =>
  simp only [modify, parallel?, List.getElem?_modify, ParallelId.mk.injEq]
  by_cases same : index = position
  · simp [same]
  · have apart : ¬position = index := fun h => same h.symm
    simp [same, apart]

theorem exists_modified (id : ParallelId) {other : ParallelId} {parallel : Parallel} (change : Parallel → Parallel)
    (found : session.parallel? other = some parallel) :
    ∃ now, (session.modify id change).parallel? other = some now ∧
      (now = parallel ∨ other = id ∧ now = change parallel) := by
  rw [parallel?_modify, found]
  by_cases here : other = id
  · exact ⟨change parallel, by simp [here], .inr ⟨here, rfl⟩⟩
  · exact ⟨parallel, by simp [here], .inl rfl⟩

theorem exists_of_modified (id : ParallelId) {other : ParallelId} {now : Parallel} (change : Parallel → Parallel)
    (found : (session.modify id change).parallel? other = some now) :
    ∃ parallel, session.parallel? other = some parallel ∧
      (now = parallel ∨ other = id ∧ now = change parallel) := by
  rw [parallel?_modify] at found
  by_cases here : other = id
  · rw [if_pos here] at found
    obtain ⟨parallel, there, rfl⟩ := Option.map_eq_some_iff.mp found
    exact ⟨parallel, there, .inr ⟨here, rfl⟩⟩
  · rw [if_neg here] at found
    exact ⟨now, found, .inl rfl⟩

/-- A change of one parallel that keeps what makes a session sane. -/
structure Mild (session : Session) (parallel now : Parallel) : Prop where
  id : now.id = parallel.id
  path : now.path = parallel.path
  node : now.explicit.map Resolved.node = parallel.explicit.map Resolved.node
  raked : parallel.raked → now.raked
  branches : ∀ branch ∈ now.branches, session.Holds parallel.path.document branch

section Revise

variable {change : ParallelId → Parallel → Parallel}

theorem holds_revise (revised : ∀ id, next.parallel? id = (session.parallel? id).map (change id))
    (path : ∀ id parallel, session.parallel? id = some parallel → (change id parallel).path = parallel.path)
    {document : DocumentId} {id : ParallelId} (held : session.Holds document id) :
    next.Holds document id := by
  obtain ⟨parallel, found, same⟩ := held
  exact ⟨change id parallel, by rw [revised, found]; rfl,
    (congrArg TypePath.document (path id parallel found)).trans same⟩

theorem Sane.revise (sane : session.Sane graph)
    (revised : ∀ id, next.parallel? id = (session.parallel? id).map (change id))
    (settled : next.settled = session.settled)
    (mild : ∀ id parallel, session.parallel? id = some parallel →
      Mild session parallel (change id parallel)) : next.Sane graph := by
  -- Every parallel after the change comes from one before it.
  have origin {id : ParallelId} {now : Parallel} (found : next.parallel? id = some now) :
      ∃ parallel, session.parallel? id = some parallel ∧ Mild session parallel now := by
    rw [revised] at found
    obtain ⟨parallel, before, rfl⟩ := Option.map_eq_some_iff.mp found
    exact ⟨parallel, before, mild id parallel before⟩
  constructor
  · intro id now found
    obtain ⟨parallel, before, kept⟩ := origin found
    exact kept.id.trans (sane.numbers id parallel before)
  · intro first second now again found foundAgain same
    obtain ⟨parallel, before, kept⟩ := origin found
    obtain ⟨other, beforeAgain, keptAgain⟩ := origin foundAgain
    exact sane.paths first second parallel other before beforeAgain
      (kept.path.symm.trans (same.trans keptAgain.path))
  · intro id now found branch member
    obtain ⟨parallel, _, kept⟩ := origin found
    rw [kept.path]
    exact holds_revise revised (fun id parallel before => (mild id parallel before).path)
      (kept.branches branch member)
  · intro id now found resolved explicit
    obtain ⟨parallel, before, kept⟩ := origin found
    have node := kept.node
    rw [explicit, Option.map_some, eq_comm, Option.map_eq_some_iff] at node
    obtain ⟨old, oldExplicit, same⟩ := node
    rw [kept.path, ← same]
    exact sane.explicit id parallel before old oldExplicit
  · exact settled ▸ sane.settledOnce
  · intro id member
    obtain ⟨parallel, found, raked⟩ := sane.settled id (settled ▸ member)
    exact ⟨change id parallel, by rw [revised, found]; rfl, (mild id parallel found).raked raked⟩

theorem extends_revise (revised : ∀ id, next.parallel? id = (session.parallel? id).map (change id))
    (path : ∀ id parallel, (change id parallel).path = parallel.path)
    (edges : ∀ id parallel, (change id parallel).edges = parallel.edges)
    (raked : ∀ id parallel, parallel.raked → (change id parallel).raked)
    (settled : next.settled = session.settled) (inFlight : next.inFlight = session.inFlight)
    (raking : next.raking = session.raking) (version : next.version = session.version) :
    Extends session next where
  keeps id parallel found :=
    ⟨change id parallel, by rw [revised, found]; rfl, path id parallel, edges id parallel,
      raked id parallel⟩
  settles := ⟨[], by simp [settled]⟩
  inFlight := inFlight
  raking := raking
  version := version

end Revise

theorem revised_modify (session : Session) (id other : ParallelId) (change : Parallel → Parallel) :
    (session.modify id change).parallel? other = (session.parallel? other).map fun parallel =>
      if other = id then change parallel else parallel := by
  rw [parallel?_modify]
  split <;> simp

theorem holds_modify {id : ParallelId} {change : Parallel → Parallel}
    (path : ∀ parallel, (change parallel).path = parallel.path) {document : DocumentId}
    {other : ParallelId} (held : session.Holds document other) :
    (session.modify id change).Holds document other := by
  refine holds_revise (revised_modify session id · change) (fun _ parallel _ => ?_) held
  split
  · exact path parallel
  · rfl

theorem Sane.modify (sane : session.Sane graph) {id : ParallelId} {change : Parallel → Parallel}
    (mild : ∀ parallel, session.parallel? id = some parallel → Mild session parallel (change parallel)) :
    (session.modify id change).Sane graph := by
  refine sane.revise (revised_modify session id · change) rfl fun other parallel found => ?_
  split
  · rename_i here
    exact mild parallel (here ▸ found)
  · exact ⟨rfl, rfl, rfl, fun h => h, sane.branches other parallel found⟩

theorem extends_modify {id : ParallelId} {change : Parallel → Parallel}
    (path : ∀ parallel, (change parallel).path = parallel.path)
    (edges : ∀ parallel, (change parallel).edges = parallel.edges)
    (raked : ∀ parallel, parallel.raked → (change parallel).raked) :
    Extends session (session.modify id change) := by
  refine extends_revise (revised_modify session id · change) ?_ ?_ ?_ rfl rfl rfl rfl
  all_goals
    intro other parallel
    split
  · exact path parallel
  · rfl
  · exact edges parallel
  · rfl
  · exact raked parallel
  · exact fun h => h

end Modify

section Calm

/-- The sessions have the same parallels, and the same drills and rakings under way and ended. -/
structure Calm (session next : Session) : Prop where
  parallels : next.parallels = session.parallels
  settled : next.settled = session.settled
  inFlight : next.inFlight = session.inFlight
  raking : next.raking = session.raking
  version : next.version = session.version

theorem Calm.refl (session : Session) : Calm session session := ⟨rfl, rfl, rfl, rfl, rfl⟩

theorem Calm.trans (first : Calm session next) (second : Calm next last) : Calm session last :=
  ⟨second.parallels.trans first.parallels, second.settled.trans first.settled,
    second.inFlight.trans first.inFlight, second.raking.trans first.raking,
    second.version.trans first.version⟩

theorem calm_foldl {step : Session → α → Session} (each : ∀ session x, Calm session (step session x))
    (session : Session) (xs : List α) : Calm session (xs.foldl step session) := by
  induction xs generalizing session with
  | nil => exact .refl session
  | cons x xs ih => exact (each session x).trans (ih _)

/-- What is asked of sessions looks at their parallels and at what settled. -/
theorem Sane.congr (sane : session.Sane graph) (parallels : next.parallels = session.parallels)
    (settled : next.settled = session.settled) : next.Sane graph := by
  have same (id : ParallelId) : next.parallel? id = session.parallel? id := by
    simp only [parallel?, parallels]
  have held (document : DocumentId) (id : ParallelId) :
      next.Holds document id ↔ session.Holds document id := by simp only [Holds, same]
  constructor
  · simpa only [same] using sane.numbers
  · simpa only [same] using sane.paths
  · simpa only [same, held] using sane.branches
  · simpa only [same] using sane.explicit
  · simpa only [settled] using sane.settledOnce
  · simpa only [same, settled] using sane.settled

theorem Calm.sane (calm : Calm session next) (sane : session.Sane graph) : next.Sane graph :=
  sane.congr calm.parallels calm.settled

theorem Calm.extends (calm : Calm session next) : Extends session next where
  keeps id parallel found :=
    ⟨parallel, by rw [parallel?, calm.parallels]; exact found, rfl, rfl, fun h => h⟩
  settles := ⟨[], by simp [calm.settled]⟩
  inFlight := calm.inFlight
  raking := calm.raking
  version := calm.version

theorem calm_condemn (session : Session) (scene : Scene) (target : CruftTarget) (kind : FaultKind) :
    Calm session (session.condemn scene target kind) := ⟨rfl, rfl, rfl, rfl, rfl⟩

end Calm

section Insert

theorem parallel?_append (session : Session) (new : Parallel) (id : ParallelId) (parallel : Parallel) :
    ({ session with parallels := session.parallels ++ [new] } : Session).parallel? id = some parallel ↔
      session.parallel? id = some parallel ∨ id = ⟨session.size⟩ ∧ parallel = new := by
  obtain ⟨index⟩ := id
  simp only [parallel?, List.getElem?_append, List.getElem?_singleton, size, ParallelId.mk.injEq]
  split
  · rename_i inside
    have apart : index ≠ session.parallels.length := by omega
    simp [apart]
  · rename_i outside
    have none : session.parallels[index]? = none := List.getElem?_eq_none (by omega)
    by_cases last : index = session.parallels.length
    · simp [last, eq_comm]
    · have beyond : index - session.parallels.length ≠ 0 := by omega
      simp [none, last, beyond]

/-- What it means to have got a new parallel. -/
structure Inserted (session : Session) (path : TypePath) (id : ParallelId) (next : Session) : Prop where
  fresh : id = ⟨session.size⟩
  found : ∃ parallel, next.parallel? id = some parallel ∧ parallel.path = path ∧
    parallel.edges = ∅ ∧ parallel.raked = false
  others : ∀ other parallel, next.parallel? other = some parallel →
    other = id ∨ session.parallel? other = some parallel

theorem Sane.insert_succeeds (sane : session.Sane graph) {path : TypePath}
    (absent : session.lookup? path = none) (container : Option ParallelId) (node : Option NodeId)
    (stands : ∀ id, node = some id → ∃ other ∈ graph.nodes, other.id = id ∧ other.path = path) :
    Succeeds (session.insert path container node) fun result =>
      Inserted session path result.1 result.2 ∧ result.2.Sane graph ∧ Extends session result.2 := by
  simp only [insert, absent]
  let id := ParallelId.mk session.size
  let new : Parallel := ⟨id, path, container, ∅, node.map fun node => ⟨node, ∅, none⟩, false⟩
  let next : Session := { session with parallels := session.parallels ++ [new] }
  have here : next.parallel? id = some new := (parallel?_append session new id new).mpr (.inr ⟨rfl, rfl⟩)
  have old {other : ParallelId} {parallel : Parallel} (found : session.parallel? other = some parallel) :
      next.parallel? other = some parallel := (parallel?_append session new other parallel).mpr (.inl found)
  have split {other : ParallelId} {parallel : Parallel} (found : next.parallel? other = some parallel) :
      (other = id ∧ parallel = new) ∨ session.parallel? other = some parallel :=
    ((parallel?_append session new other parallel).mp found).symm
  have held {document : DocumentId} {other : ParallelId} (held : session.Holds document other) :
      next.Holds document other := by
    obtain ⟨parallel, found, same⟩ := held
    exact ⟨parallel, old found, same⟩
  refine .ok ⟨⟨rfl, ⟨new, here, rfl, rfl, rfl⟩, ?_⟩, ?_, ?_⟩
  · exact fun other parallel found => (split found).imp_left And.left
  · constructor
    · intro other parallel found
      rcases split found with ⟨rfl, rfl⟩ | before
      · rfl
      · exact sane.numbers other parallel before
    · intro first second parallel again found foundAgain same
      rcases split found with ⟨rfl, rfl⟩ | before <;> rcases split foundAgain with ⟨rfl, rfl⟩ | after
      · rfl
      · exact absurd same.symm (lookup?_eq_none absent after)
      · exact absurd same (lookup?_eq_none absent before)
      · exact sane.paths first second parallel again before after same
    · intro other parallel found branch member
      rcases split found with ⟨rfl, rfl⟩ | before
      · cases node <;> simp [new, Parallel.branches, Parallel.bases, Parallel.baseEntries] at member
        simp [EmptyCollection.emptyCollection, OrderedMap.empty] at member
      · exact held (sane.branches other parallel before branch member)
    · intro other parallel found resolved explicit
      rcases split found with ⟨rfl, rfl⟩ | before
      · obtain ⟨id, present, rfl⟩ := Option.map_eq_some_iff.mp explicit
        exact stands id present
      · exact sane.explicit other parallel before resolved explicit
    · exact sane.settledOnce
    · intro other member
      obtain ⟨parallel, found, raked⟩ := sane.settled other member
      exact ⟨parallel, old found, raked⟩
  · exact ⟨fun other parallel found => ⟨parallel, old found, rfl, rfl, fun h => h⟩, ⟨[], by simp⟩, rfl, rfl,
      rfl⟩

end Insert

end Session
end OutlineTypes
