import OutlineTypes.Proofs.Resolution.Layers
import OutlineTypes.Proofs.Resolution.Ledger
import OutlineTypes.Proofs.Resolution.Raking
import OutlineTypes.Proofs.Resolution.Verdict

/-! Advances. Raking goes on from one orderly session to another: what was raked before it began stays as it
is, but for one parallel that may be under way, and whatever raking it begins it brings to its end. What is
new then mirrors its container, and what was raked has been judged. -/
namespace OutlineTypes.Session

variable {scene : Scene} {session next last : Session} {free : Option ParallelId} {id : ParallelId}
  {parallel : Parallel} {limit : Nat} {flight : List TypePath}

/-- What raking changes, where `free` may be under way. -/
structure Advances (scene : Scene) (free : Option ParallelId) (session next : Session) : Prop where
  before : session.Sane scene.graph
  sane : next.Sane scene.graph
  orderly : next.Orderly scene
  grows : Extends session next
  unsettled : ∀ id, free = some id → id ∉ next.settled
  kept : ∀ id parallel, session.parallel? id = some parallel → parallel.raked → free ≠ some id →
    next.parallel? id = some parallel
  ended : ∀ id parallel, next.parallel? id = some parallel → parallel.raked →
    id ∈ next.settled ∨ ∃ before, session.parallel? id = some before ∧ before.raked
  fresh : ∀ id parallel, next.parallel? id = some parallel → session.parallel? id = none →
    parallel.raked ∧ next.Born scene parallel.path ∧ next.Mirrored scene id parallel
  nodes : ∀ node, next.cruft.hasNode node = session.cruft.hasNode node
  edges : ∀ id parallel, session.parallel? id = some parallel → parallel.raked → free ≠ some id →
    ∀ resolved, parallel.explicit = some resolved → ∀ edge ∈ scene.graph.outbounds resolved.node,
      next.cruft.hasEdge edge.id = session.cruft.hasEdge edge.id
  marks : ∀ edge, next.cruft.reason? (.edge edge) = session.cruft.reason? (.edge edge) ∨
    next.cruft.reason? (.edge edge) = some .unresolved
  prepared : next.prepared = session.prepared
  remembers : session.Remembers next
  containers : ∀ id parallel now, session.parallel? id = some parallel → next.parallel? id = some now →
    now.container = parallel.container
  bases : ∀ id, session.basesOf id ⊆ next.basesOf id
  judged : ∀ id ∈ next.settled, id ∉ session.settled → Judged scene session next id
  balances : free = none → session.Balanced scene → next.Balanced scene

theorem Extends.settled_subset (grows : Extends session next) : session.settled ⊆ next.settled := by
  obtain ⟨more, eq, _⟩ := grows.settles
  rw [eq]
  exact List.subset_append_left _ _

/-- What is under way does not settle while something else is raked. -/
theorem Extends.not_mem_settled (grows : Extends session next) (found : session.parallel? id = some parallel)
    (raked : parallel.raked) (unsettled : id ∉ session.settled) : id ∉ next.settled := by
  obtain ⟨more, eq, unraked⟩ := grows.settles
  rw [eq, List.mem_append]
  rintro (before | during)
  · exact unsettled before
  · simp [unraked id during parallel found] at raked

namespace Advances

theorem steady (advances : Advances scene free session next) (sane : session.Sane scene.graph) :
    Steady session next where
  parallels id settled := by
    obtain ⟨parallel, found, raked⟩ := sane.settled id settled
    rw [found]
    refine advances.kept id parallel found raked fun same => ?_
    exact advances.unsettled id same (advances.grows.settled_subset settled)
  nodes := advances.nodes
  settled := advances.grows.settled_subset

theorem lookup? (advances : Advances scene free session next) (sane : session.Sane scene.graph)
    {path : TypePath} (cached : session.lookup? path = some id) : next.lookup? path = some id :=
  advances.grows.lookup? sane advances.sane cached

theorem enclosed (advances : Advances scene free session next) (sane : session.Sane scene.graph)
    {path : TypePath} (enclosed : session.Enclosed path) : next.Enclosed path :=
  enclosed.steady (advances.steady sane) fun _ _ => advances.lookup? sane

theorem born (advances : Advances scene free session next) (sane : session.Sane scene.graph)
    {path : TypePath} (enclosed : session.Enclosed path) (born : session.Born scene path) :
    next.Born scene path := by
  intro outer container
  obtain ⟨around, cached, reaches⟩ := born outer container
  obtain ⟨again, found, deep⟩ := enclosed outer container
  cases cached.symm.trans found
  exact ⟨around, advances.lookup? sane cached, ((advances.steady sane).reaches_iff deep).mpr reaches⟩

/-- A parallel that is there keeps its path and its kind. -/
theorem keeps (advances : Advances scene free session next) (orderly : session.Orderly scene)
    (found : session.parallel? id = some parallel) : ∃ now, next.parallel? id = some now ∧
      now.path = parallel.path ∧ now.explicit.map Resolved.node = parallel.explicit.map Resolved.node := by
  obtain ⟨now, present, path, _⟩ := advances.grows.keeps id parallel found
  refine ⟨now, present, path, ?_⟩
  rw [advances.orderly.kinds id now present, orderly.kinds id parallel found, path,
    soundNode?_congr advances.nodes]

theorem accrues (advances : Advances scene free session next) (orderly : session.Orderly scene) :
    Accrues session next where
  kinds id parallel found := by
    obtain ⟨now, present, _, node⟩ := advances.keeps orderly found
    simp only [isExplicit, found, present, Option.any_some, isExplicit_congr node]
  edges id parallel found := by
    obtain ⟨now, present, _, edges, _⟩ := advances.grows.keeps id parallel found
    rw [edgesOf_eq found, edgesOf_eq present, edges]
  bases := advances.bases

theorem refl (sane : session.Sane scene.graph) (orderly : session.Orderly scene) :
    Advances scene none session session where
  before := sane
  sane := sane
  orderly := orderly
  grows := .refl session
  unsettled id same := by contradiction
  kept id parallel found _ _ := found
  ended id parallel found raked := .inr ⟨parallel, found, raked⟩
  fresh id parallel found absent := by
    rw [found] at absent
    contradiction
  nodes node := rfl
  edges _ _ _ _ _ _ _ _ _ := rfl
  marks edge := .inl rfl
  prepared := rfl
  remembers := .refl _
  containers _ _ _ found present := by cases found.symm.trans present; rfl
  bases _ := List.Subset.refl _
  judged _ settled unsettled := absurd settled unsettled
  balances _ balanced := balanced

theorem trans (first : Advances scene free session next) (second : Advances scene free next last) :
    Advances scene free session last where
  before := first.before
  sane := second.sane
  orderly := second.orderly
  grows := first.grows.trans second.grows
  unsettled := second.unsettled
  kept id parallel found raked other :=
    second.kept id parallel (first.kept id parallel found raked other) raked other
  ended id parallel found raked := by
    rcases second.ended id parallel found raked with settled | ⟨before, there, begun⟩
    · exact .inl settled
    · exact (first.ended id before there begun).imp_left fun settled => second.grows.settled_subset settled
  fresh id parallel found absent := by
    cases between : next.parallel? id with
    | none => exact second.fresh id parallel found between
    | some before =>
      obtain ⟨raked, born, mirrored⟩ := first.fresh id before between absent
      have steady := second.steady first.sane
      have settled := (first.ended id before between raked).resolve_right (by simp [absent])
      rw [steady.parallels id settled, between] at found
      cases found
      exact ⟨raked, second.born first.sane (first.orderly.enclosed id parallel between) born,
        mirrored.steady between first.sane second.sane first.orderly steady second.grows⟩
  nodes node := (second.nodes node).trans (first.nodes node)
  edges id parallel found raked other resolved explicit edge member :=
    (second.edges id parallel (first.kept id parallel found raked other) raked other resolved explicit edge
      member).trans (first.edges id parallel found raked other resolved explicit edge member)
  marks edge := by
    rcases second.marks edge with same | marked
    · exact same ▸ first.marks edge
    · exact .inr marked
  prepared := second.prepared.trans first.prepared
  remembers := first.remembers.trans second.remembers
  containers id parallel now found present := by
    obtain ⟨mid, between, _⟩ := first.grows.keeps id parallel found
    exact (second.containers id mid now between present).trans (first.containers id parallel mid found between)
  bases id := List.Subset.trans (first.bases id) (second.bases id)
  judged id settled absent := by
    have deep (other : ParallelId) : session.Deep other → next.Deep other := (first.steady first.before).deep
    by_cases between : id ∈ next.settled
    · exact (first.judged id between absent).carry between first.sane (second.accrues first.orderly)
        (second.steady first.sane) deep
    · exact (second.judged id settled between).weaken deep
  balances none balanced := second.balances none (first.balances none balanced)

/-- Nothing under way is touched, so not this parallel either. -/
theorem weaken (advances : Advances scene none session next) (found : session.parallel? id = some parallel)
    (raked : parallel.raked) (unsettled : id ∉ session.settled) : Advances scene (some id) session next where
  before := advances.before
  sane := advances.sane
  orderly := advances.orderly
  grows := advances.grows
  unsettled other same := by
    cases same
    exact advances.grows.not_mem_settled found raked unsettled
  kept other parallel found raked _ := advances.kept other parallel found raked (by simp)
  ended := advances.ended
  fresh := advances.fresh
  nodes := advances.nodes
  edges other parallel found raked _ := advances.edges other parallel found raked (by simp)
  marks := advances.marks
  prepared := advances.prepared
  remembers := advances.remembers
  containers := advances.containers
  bases := advances.bases
  judged := advances.judged
  balances same := by contradiction

/-- The rakings and drills under way around an advance make no difference to it. -/
theorem reframe {raking : List ParallelId} {inFlight : List TypePath}
    (advances : Advances scene free { session with raking, inFlight } next) :
    Advances scene free session { next with raking := session.raking, inFlight := session.inFlight } where
  before := advances.before.congr rfl rfl
  sane := advances.sane.congr rfl rfl
  orderly := advances.orderly.congr rfl rfl rfl
  grows := ⟨advances.grows.keeps, advances.grows.settles, rfl, rfl, advances.grows.version⟩
  unsettled := advances.unsettled
  kept := advances.kept
  ended := advances.ended
  fresh id parallel found absent := by
    obtain ⟨raked, born, mirrored⟩ := advances.fresh id parallel found absent
    exact ⟨raked, born, mirrored.congr rfl rfl⟩
  nodes := advances.nodes
  edges := advances.edges
  marks := advances.marks
  prepared := advances.prepared
  remembers := advances.remembers
  containers := advances.containers
  bases := advances.bases
  judged id settled absent := by
    have judged : Judged scene session next id := (advances.judged id settled absent).weaken fun _ deep => deep
    exact judged.congr rfl
  balances none balanced := by
    have begun : { session with raking, inFlight }.Balanced scene := balanced.congr rfl rfl rfl rfl
    exact (advances.balances none begun).congr rfl rfl rfl rfl

/-- A drill that has ended leaves those around it under way. -/
theorem land {path : TypePath}
    (advances : Advances scene free { session with inFlight := path :: session.inFlight } next) :
    Advances scene free session { next with inFlight := next.inFlight.drop 1 } := by
  have landed : ({ next with inFlight := next.inFlight.drop 1 } : Session) =
      { next with raking := session.raking, inFlight := session.inFlight } := by
    rw [advances.grows.inFlight, ← advances.grows.raking]
    rfl
  rw [landed]
  exact advances.reframe

/-- Neither do faults that are noted while a parallel is under way. -/
theorem report {noted : Session} (advances : Advances scene (some id) session next)
    (same : noted = { next with faults := noted.faults }) (more : next.faults.faults <+: noted.faults.faults) :
    Advances scene (some id) session noted := by
  generalize noted.faults = faults at same more
  subst same
  exact {
    before := advances.before
    sane := advances.sane.congr rfl rfl
    orderly := advances.orderly.congr rfl rfl rfl
    grows := ⟨advances.grows.keeps, advances.grows.settles, advances.grows.inFlight, advances.grows.raking,
      advances.grows.version⟩
    unsettled := advances.unsettled
    kept := advances.kept
    ended := advances.ended
    fresh := fun id parallel found absent => by
      obtain ⟨raked, born, mirrored⟩ := advances.fresh id parallel found absent
      exact ⟨raked, born, mirrored.congr rfl rfl⟩
    nodes := advances.nodes
    edges := advances.edges
    marks := advances.marks
    prepared := advances.prepared
    remembers := advances.remembers.trans ⟨fun _ _ known => known, more⟩
    containers := advances.containers
    bases := advances.bases
    judged := fun id settled absent => (advances.judged id settled absent).congr rfl
    balances := fun same => by contradiction }

theorem answered (advances : Advances scene none session next) (orderly : session.Orderly scene)
    (found : session.parallel? id = some parallel) (raked : parallel.raked) {resolved : Resolved}
    (explicit : parallel.explicit = some resolved) {edges : List Edge}
    (among : edges ⊆ scene.graph.outbounds resolved.node) (answered : session.Answered edges resolved.bases) :
    next.Answered edges resolved.bases := by
  refine answered.mono (fun edge member => ?_) fun other parallel there => ?_
  · exact advances.edges id parallel found raked (by simp) resolved explicit edge (among member)
  · obtain ⟨now, present, _, node⟩ := advances.keeps orderly there
    exact ⟨now, present, node⟩

end Advances

theorem Verdict.advance {origin : Session} {bases : List ParallelId} {contract : Contract}
    (verdict : Verdict origin session id bases contract) (advances : Advances scene free session next)
    (orderly : session.Orderly scene) (found : session.parallel? id = some parallel)
    (deep : ∀ other, origin.Deep other → session.Deep other) : Verdict origin next id bases contract :=
  verdict.carry advances.before ⟨parallel, found, rfl⟩ (advances.accrues orderly)
    (advances.steady advances.before) deep

section Steps

/-- A change of the parallel under way. -/
theorem advances_modify (sane : session.Sane scene.graph) (orderly : session.Orderly scene)
    (found : session.parallel? id = some parallel) (raked : parallel.raked) (unsettled : id ∉ session.settled)
    {change : Parallel → Parallel} (mild : Mild session parallel (change parallel))
    (tidy : Tidy session parallel (change parallel)) (path : ∀ parallel, (change parallel).path = parallel.path)
    (edges : ∀ parallel, (change parallel).edges = parallel.edges)
    (begun : ∀ parallel, parallel.raked → (change parallel).raked)
    (container : ∀ parallel, (change parallel).container = parallel.container)
    (bases : parallel.bases ⊆ (change parallel).bases) :
    Advances scene (some id) session (session.modify id change) := by
  have others {other : ParallelId} (apart : other ≠ id) :
      (session.modify id change).parallel? other = session.parallel? other := by
    rw [parallel?_modify, if_neg apart]
  have nextSane := sane.modify fun again there => by
    cases found.symm.trans there
    exact mild
  refine ⟨sane, nextSane, ?_, extends_modify path edges begun, ?_, ?_, ?_, ?_, fun _ => rfl,
    fun _ _ _ _ _ _ _ _ _ => rfl, fun _ => .inl rfl, rfl, .refl _, ?_, ?_, fun _ => absurd,
    fun same => by contradiction⟩
  · refine orderly.revise sane nextSane (steady_modify unsettled change) rfl (revised_modify session id · change)
      (fun other before there => ?_) fun _ _ _ _ _ _ _ _ => rfl
    split
    · rename_i here
      subst here
      cases found.symm.trans there
      exact tidy
    · exact ⟨rfl, rfl, fun h => h, orderly.pristine other before there, orderly.shorter other before there⟩
  · intro other same
    cases same
    exact unsettled
  · intro other before there _ apart
    rw [others (by simpa [eq_comm] using apart)]
    exact there
  · intro other now there done
    by_cases here : other = id
    · exact .inr ⟨parallel, here ▸ found, raked⟩
    · exact .inr ⟨now, others here ▸ there, done⟩
  · intro other now there absent
    rw [parallel?_modify, absent] at there
    simp at there
  · intro other before now there present
    obtain ⟨again, known, rfl | ⟨_, rfl⟩⟩ := exists_of_modified id change present
    · cases there.symm.trans known
      rfl
    · cases there.symm.trans known
      exact container before
  · intro other
    by_cases here : other = id
    · subst here
      simpa [basesOf, parallel?_modify, found] using bases
    · simp only [basesOf, others here, List.Subset.refl]

theorem parallel?_condemn (session : Session) (scene : Scene) (target : CruftTarget) (kind : FaultKind)
    (other : ParallelId) :
    (session.condemn scene target kind).parallel? other = session.parallel? other := by
  simp only [parallel?, (calm_condemn session scene target kind).parallels]

/-- One edge leaves one node, and one node stands at one path, so an edge belongs to one parallel only. -/
theorem eq_of_outbound (framed : scene.graph.Framed) (sane : session.Sane scene.graph)
    (found : session.parallel? id = some parallel) {resolved : Resolved}
    (explicit : parallel.explicit = some resolved) {edge : Edge}
    (outbound : edge ∈ scene.graph.outbounds resolved.node) {other : ParallelId} {again : Parallel}
    (there : session.parallel? other = some again) {apart : Resolved} (second : again.explicit = some apart)
    {beside : Edge} (member : beside ∈ scene.graph.outbounds apart.node) (same : beside.id = edge.id) :
    other = id := by
  obtain ⟨listed, predecessor⟩ := List.mem_filter.mp outbound
  obtain ⟨among, other_eq⟩ := List.mem_filter.mp member
  cases eq_of_key_eq framed.edgeIds among listed same
  obtain ⟨node, inside, node_id, path⟩ := sane.explicit id parallel found resolved explicit
  obtain ⟨mate, within_, mate_id, at_⟩ := sane.explicit other again there apart second
  have one : mate = node := by
    refine eq_of_key_eq framed.nodeIds within_ inside ?_
    rw [mate_id, node_id, ← of_decide_eq_true predecessor, ← of_decide_eq_true other_eq]
  exact sane.paths other id again parallel there found (by rw [← at_, one, path])

/-- So no mark on an edge of one parallel makes an edge of another one cruft. -/
theorem hasEdge_condemn_of_ne (framed : scene.graph.Framed) (sane : session.Sane scene.graph)
    (found : session.parallel? id = some parallel) {resolved : Resolved}
    (explicit : parallel.explicit = some resolved) {edge : Edge}
    (outbound : edge ∈ scene.graph.outbounds resolved.node) {other : ParallelId} {again : Parallel}
    (there : session.parallel? other = some again) (distinct : other ≠ id) {apart : Resolved}
    (second : again.explicit = some apart) {beside : Edge} (member : beside ∈ scene.graph.outbounds apart.node) :
    (session.condemn scene (.edge edge.id) .unresolved).cruft.hasEdge beside.id =
      session.cruft.hasEdge beside.id := by
  rw [hasEdge_condemn_edge, Bool.or_eq_left_iff_imp]
  intro equal
  exact absurd (eq_of_outbound framed sane found explicit outbound there second member (of_decide_eq_true equal))
    distinct

theorem orderly_condemn (framed : scene.graph.Framed) (sane : session.Sane scene.graph)
    (orderly : session.Orderly scene) (found : session.parallel? id = some parallel)
    (unsettled : id ∉ session.settled) {resolved : Resolved} (explicit : parallel.explicit = some resolved)
    {edge : Edge} (outbound : edge ∈ scene.graph.outbounds resolved.node) :
    (session.condemn scene (.edge edge.id) .unresolved).Orderly scene := by
  have calm := calm_condemn session scene (.edge edge.id) .unresolved
  have same := parallel?_condemn session scene (.edge edge.id) .unresolved
  refine orderly.revise sane (calm.sane sane) ⟨fun other _ => same other, fun node => ?_, ?_⟩
    calm.settled (fun other => by rw [same, Option.map_id']) (fun other again there => ?_) ?_
  · exact hasNode_condemn_edge session scene edge.id node _
  · rw [calm.settled]
    exact List.Subset.refl _
  · exact ⟨rfl, rfl, fun h => h, orderly.pristine other again there, orderly.shorter other again there⟩
  · intro other settled again there apart second beside member
    refine hasEdge_condemn_of_ne framed sane found explicit outbound there ?_ second member
    rintro rfl
    exact unsettled settled

/-- An annotation of the parallel under way that turns out to be cruft. -/
theorem advances_condemn (framed : scene.graph.Framed) (sane : session.Sane scene.graph)
    (orderly : session.Orderly scene) (found : session.parallel? id = some parallel)
    (unsettled : id ∉ session.settled) {resolved : Resolved} (explicit : parallel.explicit = some resolved)
    {edge : Edge} (outbound : edge ∈ scene.graph.outbounds resolved.node) :
    Advances scene (some id) session (session.condemn scene (.edge edge.id) .unresolved) := by
  have calm := calm_condemn session scene (.edge edge.id) .unresolved
  have same := parallel?_condemn session scene (.edge edge.id) .unresolved
  refine ⟨sane, calm.sane sane, orderly_condemn framed sane orderly found unsettled explicit outbound,
    calm.extends, ?_, ?_, ?_, ?_, ?_, ?_, ?_, rfl, remembers_condemn session scene _ _, ?_, ?_, ?_,
    fun same => by contradiction⟩
  · intro other equal
    cases equal
    rw [calm.settled]
    exact unsettled
  · exact fun other again there _ _ => (same other).trans there
  · exact fun other again there raked => .inr ⟨again, (same other).symm.trans there, raked⟩
  · intro other again there absent
    rw [same, absent] at there
    contradiction
  · exact fun node => hasNode_condemn_edge session scene edge.id node _
  · intro other again there _ apart resolved second beside member
    exact hasEdge_condemn_of_ne framed sane found explicit outbound there (by simpa [eq_comm] using apart) second
      member
  · intro other
    rw [reason?_condemn_edge]
    split
    · rename_i here
      cases known : session.cruft.reason? (.edge edge.id) with
      | none => exact .inr rfl
      | some kind => exact .inl (by rw [here, known]; rfl)
    · exact .inl rfl
  · intro other before now there present
    cases (there.symm.trans (same other).symm).trans present
    rfl
  · exact fun other => by simp only [basesOf, same, List.Subset.refl]
  · exact fun other settled absent => absurd (calm.settled ▸ settled) absent

/-- A report changes nothing that resolution looks at. -/
theorem reportViolation_ensures (session : Session) (scene : Scene) (path : TypePath) (node : Node)
    (contract : Option Contract) :
    Ensures (session.reportViolation scene path node contract) fun next =>
      next = { session with faults := next.faults } ∧ session.faults.faults <+: next.faults.faults := by
  have notes (log : FaultLog) (faults : List (Option Fault)) :
      log.faults <+: (faults.foldl FaultLog.note log).faults := by
    induction faults generalizing log with
    | nil => exact List.prefix_refl _
    | cons fault faults ih => exact (FaultLog.note_prefix log fault).trans (ih _)
  unfold reportViolation
  split
  · exact .ok ⟨rfl, List.prefix_refl _⟩
  · exact .ok ⟨rfl, List.prefix_refl _⟩
  · exact (Ensures.anything _).bind fun message _ => .pure ⟨rfl, notes _ _⟩

end Steps

end OutlineTypes.Session
