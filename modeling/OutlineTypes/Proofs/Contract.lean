import OutlineTypes.Proofs.Ordered
import OutlineTypes.Resolution.Session
import Mathlib.Algebra.GroupWithZero.Nat

/-! Contract accounts. Lineages are offered to a contract one after another. What stays unsatisfied is what stands in
none of them, so their order makes no difference to it, and every condition is gained once at most. -/
namespace OutlineTypes

namespace Contract

theorem satisfy_of_gain_eq_zero {contract : Contract} {lineage : List ParallelId}
    (nothing : contract.gain lineage = 0) : contract.satisfy lineage = contract := by
  have all : contract.unsatisfied.filter (· ∉ lineage) = contract.unsatisfied := by
    refine OrderedSet.ext_toList (List.filter_eq_self.mpr fun condition missed => ?_)
    simpa using List.countP_eq_zero.mp nothing condition missed
  rw [satisfy, all]

theorem gain_of_satisfied {contract : Contract} (satisfied : contract.hasUnsatisfied = false)
    (lineage : List ParallelId) : contract.gain lineage = 0 := by
  have none : contract.unsatisfied.toList = [] := by
    simpa [hasUnsatisfied, OrderedSet.isEmpty] using satisfied
  rw [gain, none, List.countP_nil]

/-- Offers lineages to a contract, one after another: how many conditions each of them newly satisfies, and what the
contract is in the end. -/
def offerAll (contract : Contract) : List (List ParallelId) → List Nat × Contract
  | [] => ([], contract)
  | lineage :: rest =>
    let (gains, last) := (contract.satisfy lineage).offerAll rest
    (contract.gain lineage :: gains, last)

/-- The condition stands in none of the lineages. -/
def Missed (lineages : List (List ParallelId)) (condition : ParallelId) : Prop :=
  ∀ lineage ∈ lineages, condition ∉ lineage

instance (lineages : List (List ParallelId)) (condition : ParallelId) : Decidable (Missed lineages condition) :=
  inferInstanceAs (Decidable (∀ lineage ∈ lineages, condition ∉ lineage))

variable {lineage : List ParallelId} {lineages : List (List ParallelId)} {condition : ParallelId}

@[simp] theorem missed_nil : Missed [] condition := by simp [Missed]

@[simp] theorem missed_cons : Missed (lineage :: lineages) condition ↔
    condition ∉ lineage ∧ Missed lineages condition := by simp [Missed]

theorem missed_perm {others : List (List ParallelId)} (same : others.Perm lineages) :
    Missed others condition ↔ Missed lineages condition :=
  forall_congr' fun _ => imp_congr_left same.mem_iff

variable (contract : Contract) (lineages : List (List ParallelId))

/-- What no lineage holds stays unsatisfied. -/
theorem last_offerAll : (contract.offerAll lineages).2 =
    { contract with unsatisfied := contract.unsatisfied.filter (Missed lineages ·) } := by
  induction lineages generalizing contract with
  | nil => simp [offerAll, OrderedSet.filter]
  | cons lineage rest ih =>
    refine (ih (contract.satisfy lineage)).trans ?_
    simp only [satisfy, OrderedSet.filter, List.filter_filter, missed_cons, Bool.decide_and, Bool.and_comm]

/-- A lineage gains what it holds and no earlier one held. -/
theorem gains_offerAll : (contract.offerAll lineages).1 = lineages.mapIdx fun index lineage =>
    contract.unsatisfied.toList.countP fun condition =>
      condition ∈ lineage ∧ Missed (lineages.take index) condition := by
  induction lineages generalizing contract with
  | nil => rfl
  | cons lineage rest ih =>
    have later (index : Nat) (other : List ParallelId) :
        ((contract.satisfy lineage).unsatisfied.toList.countP fun condition =>
            condition ∈ other ∧ Missed (rest.take index) condition) =
          contract.unsatisfied.toList.countP fun condition =>
            condition ∈ other ∧ Missed ((lineage :: rest).take (index + 1)) condition := by
      rw [satisfy, OrderedSet.toList_filter, List.countP_filter]
      exact List.countP_congr fun condition _ => by simp [and_comm, and_left_comm]
    have first : contract.gain lineage = contract.unsatisfied.toList.countP fun condition =>
        condition ∈ lineage ∧ Missed ((lineage :: rest).take 0) condition := by
      simp [gain]
    rw [List.mapIdx_cons, ← first]
    refine congrArg (contract.gain lineage :: ·) ((ih (contract.satisfy lineage)).trans ?_)
    simp only [later]

/-- What the lineages gain and what they leave is all that was unsatisfied. -/
theorem sum_gains_offerAll : (contract.offerAll lineages).1.sum + (contract.offerAll lineages).2.unsatisfied.size =
    contract.unsatisfied.size := by
  induction lineages generalizing contract with
  | nil => exact Nat.zero_add _
  | cons lineage rest ih =>
    let after := contract.satisfy lineage
    calc (contract.gain lineage :: (after.offerAll rest).1).sum + (after.offerAll rest).2.unsatisfied.size
      _ = contract.gain lineage + ((after.offerAll rest).1.sum + (after.offerAll rest).2.unsatisfied.size) := by
        rw [List.sum_cons, Nat.add_assoc]
      _ = contract.gain lineage + after.unsatisfied.size := by rw [ih]
      _ = contract.unsatisfied.size := contract.size_satisfy lineage

/-- Lineages offered to a contract leave the distinct conditions that stand in none of them, in the order in which
they were first required, whatever the order of the lineages. Each lineage gains the conditions that it is the first to
hold, and what is gained and what is left add up to all of them. -/
theorem offerAll_accounts (conditions : List ParallelId) (lineages : List (List ParallelId)) :
    ∃ gains contract, (requiring conditions).offerAll lineages = (gains, contract) ∧
      contract.conditions.toList = conditions.eraseDups ∧
      contract.unsatisfied.toList = conditions.eraseDups.filter (Missed lineages ·) ∧
      gains = (lineages.mapIdx fun index lineage => conditions.eraseDups.countP fun condition =>
        condition ∈ lineage ∧ Missed (lineages.take index) condition) ∧
      gains.sum + contract.unsatisfied.toList.length = conditions.eraseDups.length ∧
      ∀ others : List (List ParallelId), others.Perm lineages →
        ((requiring conditions).offerAll others).2 = contract := by
  have distinct : (requiring conditions).unsatisfied.toList = conditions.eraseDups := OrderedSet.toList_ofList conditions
  have last := last_offerAll (requiring conditions) lineages
  have gains := gains_offerAll (requiring conditions) lineages
  have sum := sum_gains_offerAll (requiring conditions) lineages
  rw [distinct] at gains
  refine ⟨_, _, rfl, ?_, ?_, gains, ?_, fun others same => ?_⟩
  · rw [last]
    exact distinct
  · rw [last, ← distinct]
    rfl
  · rw [← distinct]
    exact sum
  · simp only [last_offerAll, missed_perm same]

/-- A condition that is required twice and held by several lineages is gained once. -/
theorem repeated_condition_gained_once : ∃ gains contract,
    (requiring [⟨1⟩, ⟨2⟩, ⟨1⟩, ⟨3⟩]).offerAll [[⟨5⟩, ⟨1⟩], [⟨1⟩], [⟨3⟩, ⟨1⟩]] = (gains, contract) ∧
      gains = [1, 0, 1] ∧ contract.unsatisfied.toList = [⟨2⟩] ∧
      [[⟨3⟩, ⟨1⟩], [⟨5⟩, ⟨1⟩], [⟨1⟩]].Perm [[⟨5⟩, ⟨1⟩], [⟨1⟩], [⟨3⟩, (⟨1⟩ : ParallelId)]] ∧
      ((requiring [⟨1⟩, ⟨2⟩, ⟨1⟩, ⟨3⟩]).offerAll [[⟨3⟩, ⟨1⟩], [⟨5⟩, ⟨1⟩], [⟨1⟩]]).2 = contract := by
  obtain ⟨gains, contract, offered, _, left, counted, _, anyOrder⟩ :=
    offerAll_accounts [⟨1⟩, ⟨2⟩, ⟨1⟩, ⟨3⟩] [[⟨5⟩, ⟨1⟩], [⟨1⟩], [⟨3⟩, ⟨1⟩]]
  have same : [[⟨3⟩, ⟨1⟩], [⟨5⟩, ⟨1⟩], [⟨1⟩]].Perm [[⟨5⟩, ⟨1⟩], [⟨1⟩], [⟨3⟩, (⟨1⟩ : ParallelId)]] := by decide
  exact ⟨gains, contract, offered, counted.trans (by decide), left.trans (by decide), same, anyOrder _ same⟩

end Contract
end OutlineTypes
