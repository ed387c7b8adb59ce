import OutlineTypes.Proofs.Resolution.Acyclicity
import OutlineTypes.Proofs.Resolution.Reachability

/-! Verdicts of contracts. The conditions are what the overridden parallels inherit, and one is left
unsatisfied if it is in the lineage of no base. Both are read off while parallels are still being raked. What
was seen then stays true, and of what was raked to the end before nothing was missed. -/
namespace OutlineTypes.Session

variable {graph : Graph} {origin session next : Session} {document : DocumentId} {id other : ParallelId}

section Overriding

/-- The other parallel is explicit, and overriding leads to it through implicit ones. -/
def Overrides (session : Session) (id other : ParallelId) : Prop :=
  session.isExplicit other ∧ ∃ first ∈ session.edgesOf id,
    Relation.ReflTransGen (fun a b => session.isExplicit a = false ∧ b ∈ session.edgesOf a) first other

/-- What the parallel overrides inherits the other one, in as many steps as it takes. -/
def Demands (session : Session) (id condition : ParallelId) : Prop :=
  ∃ other, session.Overrides id other ∧ Relation.TransGen session.Inherits other condition

theorem mem_branchesOf_iff {branch : ParallelId} :
    branch ∈ session.branchesOf id ↔ branch ∈ session.edgesOf id ∨ branch ∈ session.basesOf id := by
  cases found : session.parallel? id <;> simp [branchesOf, edgesOf, basesOf, found, Parallel.branches]

theorem Sane.index_lt_of_mem_branchesOf (sane : session.Sane graph) {branch : ParallelId}
    (member : branch ∈ session.branchesOf id) : branch.index < session.size := by
  obtain ⟨parallel, found, listed⟩ := List.mem_flatMap.mp member
  obtain ⟨_, present, _⟩ := sane.branches id parallel (Option.mem_toList.mp found) branch listed
  exact lt_of_parallel? present

theorem Sane.mem_overridden_iff (sane : session.Sane graph) :
    other ∈ session.overridden id ↔ session.Overrides id other := by
  let onward (other : ParallelId) := if session.isExplicit other then [] else session.edgesOf other
  have step {a b : ParallelId} : b ∈ onward a ↔ session.isExplicit a = false ∧ b ∈ session.edgesOf a := by
    simp only [onward]
    split <;> simp [*]
  have inside {a b : ParallelId} (edge : b ∈ session.edgesOf a) : b.index ∈ Finset.range session.size :=
    Finset.mem_range.mpr (sane.index_lt_of_mem_branchesOf (mem_branchesOf_iff.mpr (.inl edge)))
  rw [overridden, List.mem_filter, Overrides, and_comm]
  refine and_congr_right fun _ => ⟨fun listed => ?_, ?_⟩
  · refine forall_mem_depthFirst (P := fun x => ∃ first ∈ session.edgesOf id, Relation.ReflTransGen
      (fun a b => session.isExplicit a = false ∧ b ∈ session.edgesOf a) first x) ?_ _ _ ?_ other listed
    · rintro x ⟨first, member, path⟩ y reached
      exact ⟨first, member, path.tail (step.mp reached)⟩
    · exact fun x member => ⟨x, List.mem_reverse.mp member, .refl⟩
  · rintro ⟨first, member, path⟩
    refine mem_depthFirst_of_reached ParallelId.eq_of_index (Finset.range session.size)
      (fun _ _ y reached => inside (step.mp reached).2) (fun x among => inside (List.mem_reverse.mp among))
      (Nat.le_of_eq (Finset.card_range _)) (List.mem_reverse.mpr member) (Marks.contains_empty _) ?_
    exact Relation.ReflTransGen.mono (fun _ _ edge => ⟨step.mpr edge, Marks.contains_empty _⟩) _ _ path

theorem transGen_of_mem_baseGraph {base : ParallelId} (member : base ∈ session.baseGraph id) :
    Relation.TransGen session.Inherits id base := by
  refine forall_mem_depthFirst (P := Relation.TransGen session.Inherits id) ?_ _ _ ?_ base member
  · exact fun _ path _ step => path.tail step
  · exact fun _ first => .single (List.mem_reverse.mp first)

theorem Sane.mem_baseGraph (sane : session.Sane graph) {base : ParallelId}
    (path : Relation.TransGen session.Inherits id base) (apart : base ≠ id) : base ∈ session.baseGraph id := by
  have inside {a b : ParallelId} (step : b ∈ session.basesOf a) : b.index ∈ Finset.range session.size :=
    Finset.mem_range.mpr (sane.index_lt_of_mem_branchesOf (mem_branchesOf_iff.mpr (.inr step)))
  have unmarked {a : ParallelId} (away : a ≠ id) :
      (Marks.empty.insert id.index).contains a.index = false := by
    rw [Marks.contains_insert, Bool.or_eq_false_iff, decide_eq_false_iff_not]
    exact ⟨Marks.contains_empty _, fun same => away (ParallelId.eq_of_index _ _ same).symm⟩
  obtain ⟨first, step, away, onward⟩ := exists_reach_avoiding path apart
  exact mem_depthFirst_of_reached ParallelId.eq_of_index (Finset.range session.size) (fun _ _ _ => inside)
    (fun _ among => inside (List.mem_reverse.mp among)) (Nat.le_of_eq (Finset.card_range _))
    (List.mem_reverse.mpr step) (unmarked away)
    (Relation.ReflTransGen.mono (fun _ _ edge => ⟨edge.1, unmarked edge.2⟩) _ _ onward)

theorem mem_conditions_iff {condition : ParallelId} : condition ∈ session.conditions id ↔
    ∃ other ∈ session.overridden id, condition ∈ session.baseGraph other := by
  rw [conditions, distinct, mem_unmarked_iff ParallelId.eq_of_index, List.mem_flatMap]
  simp

end Overriding

section Accrual

/-- What is there keeps its kind and what it overrides, and gets bases only. -/
structure Accrues (session next : Session) : Prop where
  kinds : ∀ id parallel, session.parallel? id = some parallel → next.isExplicit id = session.isExplicit id
  edges : ∀ id parallel, session.parallel? id = some parallel → next.edgesOf id = session.edgesOf id
  bases : ∀ id, session.basesOf id ⊆ next.basesOf id

namespace Accrues

variable (accrues : Accrues session next)

include accrues in
theorem transGen (path : Relation.TransGen session.Inherits id other) :
    Relation.TransGen next.Inherits id other :=
  Relation.TransGen.mono (fun above _ step => accrues.bases above step) _ _ path

include accrues in
theorem below (below : session.Below id other) : next.Below id other := by
  refine Relation.ReflTransGen.mono (fun above branch step => ?_) _ _ below
  obtain ⟨parallel, found, _⟩ := List.mem_flatMap.mp step
  rw [mem_branchesOf_iff] at step ⊢
  rw [accrues.edges above parallel (Option.mem_toList.mp found)]
  exact step.imp_right fun base => accrues.bases above base

include accrues in
/-- Overriding leads through parallels that are there to others that are. -/
theorem overrides_iff (sane : session.Sane graph) (held : session.Holds document id) :
    next.Overrides id other ↔ session.Overrides id other := by
  have edges {a : ParallelId} (here : session.Holds document a) : next.edgesOf a = session.edgesOf a := by
    obtain ⟨parallel, found, _⟩ := here
    exact accrues.edges a parallel found
  have kinds {a : ParallelId} (here : session.Holds document a) : next.isExplicit a = session.isExplicit a := by
    obtain ⟨parallel, found, _⟩ := here
    exact accrues.kinds a parallel found
  have closed (a b : ParallelId) (here : session.Holds document a)
      (step : session.isExplicit a = false ∧ b ∈ session.edgesOf a) : session.Holds document b :=
    sane.holds_of_mem_edgesOf here b step.2
  have reached {first : ParallelId} (member : first ∈ session.edgesOf id) :
      Relation.ReflTransGen (fun a b => next.isExplicit a = false ∧ b ∈ next.edgesOf a) first other ↔
        Relation.ReflTransGen (fun a b => session.isExplicit a = false ∧ b ∈ session.edgesOf a) first other :=
    reflTransGen_congr closed (fun a here b => by rw [kinds here, edges here])
      (sane.holds_of_mem_edgesOf held first member)
  have stands {first : ParallelId} (member : first ∈ session.edgesOf id) (path : Relation.ReflTransGen
      (fun a b => session.isExplicit a = false ∧ b ∈ session.edgesOf a) first other) :
      next.isExplicit other = session.isExplicit other :=
    kinds (of_reflTransGen closed (sane.holds_of_mem_edgesOf held first member) path)
  unfold Overrides
  rw [edges held]
  constructor
  · rintro ⟨explicit, first, member, path⟩
    have before := (reached member).mp path
    exact ⟨stands member before ▸ explicit, first, member, before⟩
  · rintro ⟨explicit, first, member, path⟩
    exact ⟨(stands member path).trans explicit, first, member, (reached member).mpr path⟩

end Accrues

/-- Below a deep parallel nothing is inherited later than it was raked. -/
theorem Steady.transGen_iff (steady : Steady session next) (deep : session.Deep id) :
    Relation.TransGen next.Inherits id other ↔ Relation.TransGen session.Inherits id other := by
  refine transGen_congr (P := session.Below id) (fun a b below step => ?_) (fun a below b => ?_) .refl
  · exact below.tail (mem_branchesOf_iff.mpr (.inr step))
  · simp only [Inherits, basesOf, steady.parallels a (deep a below)]

end Accrual

/-- What a contract says of a parallel with these bases. What was raked to the end in `origin`, before the
raking of the parallel began, is seen as it is; of anything else what came later may be missed. -/
structure Verdict (origin session : Session) (id : ParallelId) (bases : List ParallelId) (contract : Contract) :
    Prop where
  known : ∀ condition ∈ contract.unsatisfied, condition ∈ contract.conditions
  demanded : ∀ condition ∈ contract.conditions, session.Demands id condition
  complete : (∀ other, session.Overrides id other → origin.Deep other) → ∀ other condition,
    session.Overrides id other → Relation.TransGen session.Inherits other condition → condition ≠ other →
      condition ∈ contract.conditions
  satisfied : ∀ condition ∈ contract.conditions, condition ∉ contract.unsatisfied →
    ∃ base ∈ bases, session.Below base condition
  unmet : ∀ base ∈ bases, origin.Deep base → ∀ condition ∈ contract.unsatisfied, ¬session.Below base condition

namespace Verdict

variable {bases : List ParallelId} {contract : Contract}

/-- Before any base is found nothing is satisfied. -/
theorem start (sane : session.Sane graph) (id : ParallelId) :
    Verdict session session id [] (.requiring (session.conditions id)) where
  known _ member := member
  demanded condition member := by
    obtain ⟨other, overridden, inherited⟩ := mem_conditions_iff.mp (OrderedSet.mem_ofList.mp member)
    exact ⟨other, sane.mem_overridden_iff.mp overridden, transGen_of_mem_baseGraph inherited⟩
  complete _ other condition overrides path apart := by
    refine OrderedSet.mem_ofList.mpr (mem_conditions_iff.mpr ⟨other, ?_, sane.mem_baseGraph path apart⟩)
    exact sane.mem_overridden_iff.mpr overrides
  satisfied _ member unmet := absurd member unmet
  unmet _ member := absurd member List.not_mem_nil

/-- The rakings under way make no difference to it. -/
theorem reframe {raking : List ParallelId} (verdict : Verdict origin session id bases contract) :
    Verdict { origin with raking } { session with raking } id bases contract :=
  ⟨verdict.known, verdict.demanded, verdict.complete, verdict.satisfied, verdict.unmet⟩

/-- Nothing of a verdict is lost while other parallels are raked. -/
theorem carry (verdict : Verdict origin session id bases contract) (sane : session.Sane graph)
    (held : session.Holds document id) (accrues : Accrues session next) (steady : Steady session next)
    (deep : ∀ other, origin.Deep other → session.Deep other) : Verdict origin next id bases contract where
  known := verdict.known
  demanded condition member := by
    obtain ⟨other, overrides, path⟩ := verdict.demanded condition member
    exact ⟨other, (accrues.overrides_iff sane held).mpr overrides, accrues.transGen path⟩
  complete finished other condition overrides path := by
    have before (other : ParallelId) : next.Overrides id other ↔ session.Overrides id other :=
      accrues.overrides_iff sane held
    refine verdict.complete (fun other earlier => finished other ((before other).mpr earlier)) other condition
      ((before other).mp overrides) ?_
    exact (steady.transGen_iff (deep other (finished other overrides))).mp path
  satisfied condition member met := by
    obtain ⟨base, among, below⟩ := verdict.satisfied condition member met
    exact ⟨base, among, accrues.below below⟩
  unmet base among finished condition member below :=
    verdict.unmet base among finished condition member ((steady.below_iff (deep base finished)).mp below)

/-- Less may have been raked to the end in an earlier session. -/
theorem weaken {earlier : Session} (verdict : Verdict origin session id bases contract)
    (deep : ∀ other, earlier.Deep other → origin.Deep other) : Verdict earlier session id bases contract where
  known := verdict.known
  demanded := verdict.demanded
  complete finished := verdict.complete fun other overrides => deep other (finished other overrides)
  satisfied := verdict.satisfied
  unmet base among finished := verdict.unmet base among (deep base finished)

theorem congr {same : List ParallelId} (verdict : Verdict origin session id bases contract)
    (members : ∀ base, base ∈ same ↔ base ∈ bases) : Verdict origin session id same contract where
  known := verdict.known
  demanded := verdict.demanded
  complete := verdict.complete
  satisfied condition member met := by
    obtain ⟨base, among, below⟩ := verdict.satisfied condition member met
    exact ⟨base, (members base).mpr among, below⟩
  unmet base among := verdict.unmet base ((members base).mp among)

end Verdict

section Weighing

/-- What a base makes of a contract: what is satisfied now lies in its lineage, and nothing of its lineage is
left unsatisfied if it was raked to the end before. -/
structure Weighed (origin session : Session) (base : ParallelId) (before after : Contract) : Prop where
  conditions : after.conditions = before.conditions
  fewer : ∀ condition ∈ after.unsatisfied, condition ∈ before.unsatisfied
  gained : ∀ condition ∈ before.unsatisfied, condition ∉ after.unsatisfied → session.Below base condition
  unmet : origin.Deep base → ∀ condition ∈ after.unsatisfied, ¬session.Below base condition

variable {base : ParallelId} {contract : Contract}

/-- A base whose lineage holds nothing of what is missing leaves the contract as it was. -/
theorem weighed_refl (unmet : origin.Deep base → ∀ condition ∈ contract.unsatisfied,
    ¬session.Below base condition) : Weighed origin session base contract contract :=
  ⟨rfl, fun _ member => member, fun _ member unsatisfied => absurd member unsatisfied, unmet⟩

theorem weighed_satisfy {lineage : List ParallelId}
    (listed : ∀ other, other ∈ lineage ↔ session.Below base other) :
    Weighed origin session base contract (contract.satisfy lineage) where
  conditions := rfl
  fewer _ member := (OrderedSet.mem_filter.mp member).1
  gained condition member satisfied := by
    by_contra outside
    refine satisfied (OrderedSet.mem_filter.mpr ⟨member, ?_⟩)
    rwa [decide_eq_true_eq, listed]
  unmet _ condition member := by
    have outside := (OrderedSet.mem_filter.mp member).2
    rwa [decide_eq_true_eq, listed] at outside

theorem not_below_of_gain {lineage : List ParallelId}
    (listed : ∀ other, other ∈ lineage ↔ session.Below base other) (nothing : ¬0 < contract.gain lineage) :
    ∀ condition ∈ contract.unsatisfied, ¬session.Below base condition := by
  intro condition member below
  exact nothing (List.countP_pos_iff.mpr ⟨condition, member, decide_eq_true ((listed condition).mpr below)⟩)

/-- A further base that was weighed. -/
theorem Verdict.weigh {bases : List ParallelId} {after : Contract}
    (verdict : Verdict origin session id bases contract) (weighed : Weighed origin session base contract after) :
    Verdict origin session id (base :: bases) after where
  known condition member := by
    rw [weighed.conditions]
    exact verdict.known condition (weighed.fewer condition member)
  demanded := weighed.conditions ▸ verdict.demanded
  complete := weighed.conditions ▸ verdict.complete
  satisfied condition member met := by
    rw [weighed.conditions] at member
    by_cases before : condition ∈ contract.unsatisfied
    · exact ⟨base, List.mem_cons_self, weighed.gained condition before met⟩
    · obtain ⟨other, among, below⟩ := verdict.satisfied condition member before
      exact ⟨other, List.mem_cons_of_mem _ among, below⟩
  unmet other member finished condition unsatisfied := by
    rcases List.mem_cons.mp member with rfl | among
    · exact weighed.unmet finished condition unsatisfied
    · exact verdict.unmet other among finished condition (weighed.fewer condition unsatisfied)

end Weighing

/-- An explicit parallel that overrides anything has a contract, and its verdict holds. -/
def Judged (scene : Scene) (origin session : Session) (id : ParallelId) : Prop :=
  ∀ parallel resolved, session.parallel? id = some parallel → parallel.explicit = some resolved →
    scene.checksContracts → parallel.isApex = false →
      ∃ contract, resolved.contract = some contract ∧ Verdict origin session id (session.basesOf id) contract

namespace Judged

variable {scene : Scene}

theorem congr (judged : Judged scene origin session id) (parallels : next.parallels = session.parallels) :
    Judged scene origin next id := by
  cases session; cases next
  cases parallels
  intro parallel resolved found explicit checks overrides
  obtain ⟨contract, stored, verdict⟩ := judged parallel resolved found explicit checks overrides
  exact ⟨contract, stored, verdict.known, verdict.demanded, verdict.complete, verdict.satisfied, verdict.unmet⟩

theorem weaken {earlier : Session} (judged : Judged scene origin session id)
    (deep : ∀ other, earlier.Deep other → origin.Deep other) : Judged scene earlier session id := by
  intro parallel resolved found explicit checks overrides
  obtain ⟨contract, stored, verdict⟩ := judged parallel resolved found explicit checks overrides
  exact ⟨contract, stored, verdict.weaken deep⟩

/-- The verdict on a parallel that is raked to the end stands. -/
theorem carry (judged : Judged scene origin session id) (settled : id ∈ session.settled) (sane : session.Sane graph)
    (accrues : Accrues session next) (steady : Steady session next)
    (deep : ∀ other, origin.Deep other → session.Deep other) : Judged scene origin next id := by
  intro parallel resolved found explicit checks overrides
  have same := steady.parallels id settled
  rw [same] at found
  obtain ⟨contract, stored, verdict⟩ := judged parallel resolved found explicit checks overrides
  have bases : next.basesOf id = session.basesOf id := by simp only [basesOf, same]
  exact ⟨contract, stored, bases ▸ verdict.carry sane ⟨parallel, found, rfl⟩ accrues steady deep⟩

end Judged

end OutlineTypes.Session
