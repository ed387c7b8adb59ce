import OutlineTypes.Proofs.Reach
import OutlineTypes.Proofs.Resolution.Descent

/-! What lies below a parallel along branches. The lineage of a parallel is all of it, and going backwards
from the nodes of a name finds all parallels above one. Below a deep parallel everything is settled, so
nothing of it changes any more while other parallels are raked. -/
namespace OutlineTypes.Session

variable {scene : Scene} {graph : Graph} {session next : Session} {document : DocumentId} {name : Name}

/-- Branches lead from the parallel to the other one. -/
def Below (session : Session) (id other : ParallelId) : Prop :=
  Relation.ReflTransGen (fun a b => b ∈ session.branchesOf a) id other

/-- Everything below the parallel is raked to the end. -/
def Deep (session : Session) (id : ParallelId) : Prop := ∀ other, session.Below id other → other ∈ session.settled

/-- Below the parallel there is one with a sound node of this name right below it. -/
def Reaches (session : Session) (scene : Scene) (name : Name) (id : ParallelId) : Prop :=
  ∃ other, session.Below id other ∧ session.hasChildNode scene name other

theorem Deep.settled {id : ParallelId} (deep : session.Deep id) : id ∈ session.settled := deep id .refl

theorem Deep.below {id other : ParallelId} (deep : session.Deep id) (below : session.Below id other) :
    session.Deep other := fun last further => deep last (below.trans further)

theorem Reaches.above {id other : ParallelId} (reaches : session.Reaches scene name other)
    (below : session.Below id other) : session.Reaches scene name id := by
  obtain ⟨last, further, stands⟩ := reaches
  exact ⟨last, below.trans further, stands⟩

theorem branchesOf_eq {id : ParallelId} {parallel : Parallel} (found : session.parallel? id = some parallel) :
    session.branchesOf id = parallel.branches := by
  simp [branchesOf, found]

theorem edgesOf_eq {id : ParallelId} {parallel : Parallel} (found : session.parallel? id = some parallel) :
    session.edgesOf id = parallel.edges.toList := by
  simp [edgesOf, found]

theorem Sane.holds_of_below (sane : session.Sane graph) {id other : ParallelId} (held : session.Holds document id)
    (below : session.Below id other) : session.Holds document other := by
  induction below with
  | refl => exact held
  | tail _ step ih => exact sane.holds_of_mem_branchesOf ih _ step

section Search

theorem Sane.mem_lineage_iff (sane : session.Sane graph) {id other : ParallelId}
    (held : session.Holds document id) : other ∈ session.lineage id ↔ session.Below id other := by
  have inside {id : ParallelId} {parallel : Parallel} (found : session.parallel? id = some parallel) :
      id.index ∈ Finset.range session.size := Finset.mem_range.mpr (lt_of_parallel? found)
  rw [lineage, mem_breadthFirst_iff ParallelId.eq_of_index (Finset.range session.size)]
  · simp only [List.mem_singleton, exists_eq_left]
    exact Iff.rfl
  · intro x member y step
    have bound : x.index < session.parallels.length := Finset.mem_range.mp member
    have found : session.parallel? x = some session.parallels[x.index] := List.getElem?_eq_getElem bound
    obtain ⟨_, present, _⟩ := sane.holds_of_mem_branchesOf ⟨_, found, rfl⟩ y step
    exact inside present
  · intro x member
    obtain ⟨_, found, _⟩ := held
    exact List.mem_singleton.mp member ▸ inside found
  · rw [Finset.card_range]

/-- Where no other member has a marked branch, the marked members are all that lead to one of them. -/
theorem marked_iff {lineage : List ParallelId} {marked : ParallelId → Prop}
    (closed : ∀ id ∈ lineage, ∀ branch ∈ session.branchesOf id, branch ∈ lineage) (inside : ∀ id, marked id → id ∈ lineage)
    (final : ∀ id ∈ lineage, ∀ branch ∈ session.branchesOf id, marked branch → marked id) {id : ParallelId} :
    marked id ↔ id ∈ lineage ∧ ∃ origin, marked origin ∧ session.Below id origin := by
  refine ⟨fun member => ⟨inside id member, id, member, .refl⟩, ?_⟩
  rintro ⟨listed, origin, member, below⟩
  induction below using Relation.ReflTransGen.head_induction_on with
  | refl => exact member
  | head step _ ih => exact final _ listed _ step (ih (closed _ listed _ step))

/-- What a round finds: the members that have no mark but a marked branch. -/
theorem mem_round_iff (session : Session) (lineage : List ParallelId) (marks : Marks) {n : Nat} :
    n ∈ ((lineage.map fun id => (id, session.branchesOf id)).filter fun (id, branches) =>
        !marks.contains id.index && branches.any fun branch => marks.contains branch.index).map (fun link => link.1.index) ↔
      ∃ id ∈ lineage, id.index = n ∧ marks.contains id.index = false ∧
        ∃ branch ∈ session.branchesOf id, marks.contains branch.index := by
  simp only [List.mem_map, List.mem_filter, Bool.and_eq_true, Bool.not_eq_true', List.any_eq_true]
  constructor
  · rintro ⟨_, ⟨⟨id, listed, rfl⟩, new, leads⟩, rfl⟩
    exact ⟨id, listed, rfl, new, leads⟩
  · rintro ⟨id, listed, rfl, new, leads⟩
    exact ⟨_, ⟨⟨id, listed, rfl⟩, new, leads⟩, rfl⟩

/-- A new mark on a member leaves fewer of them without one. -/
theorem length_unmarked_lt {lineage : List ParallelId} {marks : Marks} {ns : List Nat} {found : ParallelId}
    (listed : found ∈ lineage) (new : marks.contains found.index = false) (added : found.index ∈ ns) :
    (lineage.filter fun id => !(marks.insertAll ns).contains id.index).length <
      (lineage.filter fun id => !marks.contains id.index).length := by
  have rest : lineage.filter (fun id => !(marks.insertAll ns).contains id.index) =
      (lineage.filter fun id => !marks.contains id.index).filter fun id => !(marks.insertAll ns).contains id.index := by
    rw [List.filter_filter]
    refine List.filter_congr fun id _ => ?_
    rw [Marks.contains_insertAll]
    cases marks.contains id.index <;> simp
  rw [rest]
  refine List.length_filter_lt_length_iff_exists.mpr ⟨found, List.mem_filter.mpr ⟨listed, by simp [new]⟩, ?_⟩
  simp [added]

/-- As many rounds as there are members without a mark come to all that lead to what was marked before them. -/
theorem contains_markReaching_iff {lineage : List ParallelId}
    (closed : ∀ id ∈ lineage, ∀ branch ∈ session.branchesOf id, branch ∈ lineage) {bound : Nat} {marks : Marks}
    (inside : ∀ id : ParallelId, marks.contains id.index → id ∈ lineage)
    (enough : (lineage.filter fun id => !marks.contains id.index).length ≤ bound) {id : ParallelId} :
    (markReaching (lineage.map fun id => (id, session.branchesOf id)) bound marks).contains id.index ↔
      id ∈ lineage ∧ ∃ origin : ParallelId, marks.contains origin.index ∧ session.Below id origin := by
  induction bound generalizing marks with
  | zero =>
    refine marked_iff closed inside fun id listed _ _ _ => ?_
    have all := List.filter_eq_nil_iff.mp (List.eq_nil_of_length_eq_zero (Nat.le_zero.mp enough)) id listed
    simpa using all
  | succ bound ih =>
    have mem_grown {n : Nat} := session.mem_round_iff lineage marks (n := n)
    rw [markReaching]
    generalize List.filter _ _ = grown at mem_grown ⊢
    simp only
    split
    · rename_i vacant
      refine marked_iff closed inside fun id listed branch step member => by_contra fun new => ?_
      have among := mem_grown.mpr ⟨id, listed, rfl, by simpa using new, branch, step, member⟩
      simp [List.isEmpty_iff.mp vacant] at among
    · rename_i more
      obtain ⟨link, first⟩ := List.exists_mem_of_ne_nil grown fun vacant => more (List.isEmpty_iff.mpr vacant)
      have added : link.1.index ∈ grown.map fun link => link.1.index := List.mem_map_of_mem first
      obtain ⟨found, listed, here, new, _⟩ := mem_grown.mp added
      have fewer := length_unmarked_lt listed new (here ▸ added)
      have grows {id : ParallelId} : (marks.insertAll (grown.map fun link => link.1.index)).contains id.index ↔
          marks.contains id.index ∨ id ∈ lineage ∧ marks.contains id.index = false ∧
            ∃ branch ∈ session.branchesOf id, marks.contains branch.index := by
        rw [Marks.contains_insertAll, Bool.or_eq_true, decide_eq_true_eq, mem_grown]
        refine or_congr_right ⟨?_, fun late => ⟨id, late.1, rfl, late.2⟩⟩
        rintro ⟨other, listed, index, late⟩
        cases ParallelId.eq_of_index other id index
        exact ⟨listed, late⟩
      refine (ih (fun id member => ?_) (by omega)).trans (and_congr_right fun _ => ⟨?_, ?_⟩)
      · exact (grows.mp member).elim (inside id) And.left
      · rintro ⟨origin, member, below⟩
        rcases grows.mp member with early | ⟨_, _, branch, step, member⟩
        · exact ⟨origin, early, below⟩
        · exact ⟨branch, member, below.tail step⟩
      · exact fun ⟨origin, member, below⟩ => ⟨origin, grows.mpr (.inl member), below⟩

/-- Going round by round finds all parallels above a node of the name. -/
theorem mem_reaching_iff {lineage : List ParallelId}
    (closed : ∀ id ∈ lineage, ∀ branch ∈ session.branchesOf id, branch ∈ lineage) {id : ParallelId} :
    id ∈ session.reaching scene name lineage ↔ id ∈ lineage ∧ session.Reaches scene name id := by
  let start := lineage.filter (session.hasChildNode scene name)
  have marked {id : ParallelId} : (Marks.insertAll ∅ (start.map ParallelId.index)).contains id.index ↔
      id ∈ lineage ∧ session.hasChildNode scene name id := by
    rw [Marks.contains_insertAll, Marks.contains_empty, Bool.false_or, decide_eq_true_eq, ParallelId.mem_map_index,
      List.mem_filter]
  rw [reaching, List.mem_filter, List.length_map, contains_markReaching_iff closed
    (fun _ member => (marked.mp member).1) (List.length_filter_le _ _)]
  refine and_congr_right fun listed => ?_
  simp only [marked, and_iff_right listed]
  refine exists_congr fun origin => ⟨fun h => ⟨h.2, h.1.2⟩, fun h => ⟨⟨?_, h.2⟩, h.1⟩⟩
  exact of_reflTransGen (P := (· ∈ lineage)) (fun _ _ member step => closed _ member _ step) listed h.1

end Search

section Steady

/-- What is raked to the end stays as it is, and so does what is known of nodes. -/
structure Steady (session next : Session) : Prop where
  parallels : ∀ id ∈ session.settled, next.parallel? id = session.parallel? id
  nodes : ∀ node, next.cruft.hasNode node = session.cruft.hasNode node
  settled : session.settled ⊆ next.settled

/-- Nothing that is raked to the end is touched by a change of another parallel. -/
theorem steady_modify {id : ParallelId} (unsettled : id ∉ session.settled) (change : Parallel → Parallel) :
    Steady session (session.modify id change) where
  parallels other settled := by
    rw [parallel?_modify, if_neg]
    rintro rfl
    exact unsettled settled
  nodes _ := rfl
  settled := List.Subset.refl _

theorem soundNode?_congr (nodes : ∀ node, next.cruft.hasNode node = session.cruft.hasNode node)
    (scene : Scene) (path : TypePath) : next.soundNode? scene path = session.soundNode? scene path := by
  simp only [soundNode?, nodes]

theorem hasChildNode_congr {id : ParallelId} (parallel : next.parallel? id = session.parallel? id)
    (nodes : ∀ node, next.cruft.hasNode node = session.cruft.hasNode node) :
    next.hasChildNode scene name id = session.hasChildNode scene name id := by
  simp only [hasChildNode, parallel, soundNode?_congr nodes]

namespace Steady

theorem branchesOf (steady : Steady session next) {id : ParallelId} (settled : id ∈ session.settled) :
    next.branchesOf id = session.branchesOf id := by
  simp only [Session.branchesOf, steady.parallels id settled]

theorem below_iff (steady : Steady session next) {id other : ParallelId} (deep : session.Deep id) :
    next.Below id other ↔ session.Below id other := by
  refine reflTransGen_congr (P := session.Below id) (fun _ _ below step => below.tail step)
    (fun other below branch => ?_) .refl
  rw [steady.branchesOf (deep other below)]

theorem deep (steady : Steady session next) {id : ParallelId} (deep : session.Deep id) : next.Deep id :=
  fun other below => steady.settled (deep other ((steady.below_iff deep).mp below))

theorem reaches_iff (steady : Steady session next) {id : ParallelId} (deep : session.Deep id) :
    next.Reaches scene name id ↔ session.Reaches scene name id := by
  refine exists_congr fun other => ?_
  rw [steady.below_iff deep]
  refine and_congr_right fun below => ?_
  rw [hasChildNode_congr (steady.parallels other (deep other below)) steady.nodes]

end Steady
end Steady

section Lookup

theorem Sane.lookup?_eq_some_iff (sane : session.Sane graph) {path : TypePath} {id : ParallelId} :
    session.lookup? path = some id ↔ ∃ parallel, session.parallel? id = some parallel ∧ parallel.path = path := by
  constructor
  · exact sane.lookup?_eq_some
  · rintro ⟨parallel, found, rfl⟩
    cases cached : session.lookup? parallel.path with
    | none => exact absurd rfl (lookup?_eq_none cached found)
    | some other =>
      obtain ⟨again, present, same⟩ := sane.lookup?_eq_some cached
      rw [sane.paths other id again parallel present found same]

theorem Sane.lookup?_path (sane : session.Sane graph) {id : ParallelId} {parallel : Parallel}
    (found : session.parallel? id = some parallel) : session.lookup? parallel.path = some id :=
  sane.lookup?_eq_some_iff.mpr ⟨parallel, found, rfl⟩

theorem Extends.lookup? (grows : Extends session next) (sane : session.Sane graph) (nextSane : next.Sane graph)
    {path : TypePath} {id : ParallelId} (cached : session.lookup? path = some id) :
    next.lookup? path = some id := by
  obtain ⟨parallel, found, rfl⟩ := sane.lookup?_eq_some cached
  obtain ⟨now, present, same, _⟩ := grows.keeps id parallel found
  exact nextSane.lookup?_eq_some_iff.mpr ⟨now, present, same⟩

end Lookup

end OutlineTypes.Session
