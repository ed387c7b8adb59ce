import OutlineTypes.Document
import OutlineTypes.Proofs.Document.Nesting
import OutlineTypes.Proofs.Document.Reading
import OutlineTypes.Proofs.Success

/-! Regions. A region named by lines that take part in the hierarchy holds the lines they contain; one
named by none holds all. -/
namespace OutlineTypes.Document

/-- A line inside `around` belongs to the region that `parents` name. -/
def Regional (parents : List StatementId) (around : List Statement) : Prop :=
  parents = [] ∨ ∃ line ∈ around, line.id ∈ parents

/-- Every line named is in the document and takes part in its hierarchy. -/
def Names (document : Document) (parents : List StatementId) : Prop :=
  ∀ id ∈ parents, ∃ line ∈ document.statements, line.id = id ∧ line.noop = false

variable {document : Document}

theorem Sound.positionOf_succeeds (sound : document.Sound) {id : StatementId} {line : Statement}
    (member : line ∈ document.statements) (same : line.id = id) :
    Succeeds (document.positionOf id) fun index => document.get? index = some line := by
  obtain ⟨index, found⟩ := List.mem_iff_getElem?.mp member
  have position : document.position? id = some index :=
    sound.position?_eq_some_iff.mpr ⟨line, found, same⟩
  simp only [positionOf, position]
  exact .ok found

theorem mem_nestedUnder {positions : List Nat} {index : Nat} :
    index ∈ document.nestedUnder positions ↔
      index < document.length ∧ ∃ outer ∈ positions, index ∈ document.descendants outer := by
  simp [nestedUnder]

/-- A region lists its lines from the top. -/
theorem pairwise_of_region {parents : List StatementId} {region : List Nat}
    (found : document.region parents = .ok region) : region.Pairwise (· < ·) := by
  have below : (List.range document.length).Pairwise (· < ·) := List.pairwise_lt_range
  unfold Document.region at found
  split at found
  · cases found
    exact below
  · have sorted : Ensures (parents.mapM document.positionOf >>= fun positions =>
        (pure (document.nestedUnder positions) : Except Fatal (List Nat))) (List.Pairwise (· < ·)) :=
      (Ensures.anything _).bind fun positions _ => .pure (below.filter _)
    exact sorted region found

theorem Sound.region_succeeds (sound : document.Sound) {parents : List StatementId}
    (names : document.Names parents) :
    Succeeds (document.region parents) fun region => ∀ index, index < document.length →
      (index ∈ region ↔ Regional parents (Outline.chain document.statements index)) := by
  unfold region
  by_cases whole : parents = []
  · simp only [whole, List.isEmpty_nil, ↓reduceIte]
    exact .ok fun index bound => by simp [Regional, bound]
  · have some : parents.isEmpty = false := by simpa using whole
    simp only [some, Bool.false_eq_true, ↓reduceIte]
    have positions : Succeeds (parents.mapM document.positionOf) (List.Forall₂ (fun id index =>
        ∃ line, document.get? index = .some line ∧ line.id = id ∧ line.noop = false) parents) := by
      refine Succeeds.mapM fun id among => ?_
      obtain ⟨line, member, same, noop⟩ := names id among
      exact (sound.positionOf_succeeds member same).mono fun index found => ⟨line, found, same, noop⟩
    refine positions.bind fun positions named => .pure fun index bound => ?_
    rw [mem_nestedUnder, and_iff_right bound, Regional, or_iff_right whole]
    constructor
    · rintro ⟨outer, among, nested⟩
      obtain ⟨id, listed, line, found, rfl, noop⟩ := exists_mem_left_of_forall₂ named among
      have takesPart : ∀ other, document.statements[outer]? = .some other → other.noop = false :=
        fun other present => by cases found.symm.trans present; exact noop
      have ancestor := (Outline.mem_descendants_iff takesPart).mp nested
      exact ⟨line, Outline.mem_chain_iff.mpr ⟨outer, ancestor, found⟩, listed⟩
    · rintro ⟨line, around, listed⟩
      obtain ⟨outer, ancestor, found⟩ := Outline.mem_chain_iff.mp around
      obtain ⟨position, among, other, here, same, _⟩ := exists_mem_right_of_forall₂ named listed
      obtain rfl := sound.index_unique found here same.symm
      refine ⟨outer, among, (Outline.mem_descendants_iff fun other present => ?_).mpr ancestor⟩
      cases found.symm.trans present
      exact (Outline.noop_of_mem_chain around).2

end OutlineTypes.Document
