import OutlineTypes.Proofs.Resolution.Sanity

/-! Lineages of sane sessions. What is reached along branches, edges or bases from parallels of the session
are parallels of the session, all in one document. -/
namespace OutlineTypes

section Reach

variable {number : α → Nat} {next : α → List α} {P : α → Prop}

theorem forall_mem_layersFrom (closed : ∀ x, P x → ∀ y ∈ next x, P y) (bound : Nat) (marks : Marks)
    {layer : List α} (start : ∀ x ∈ layer, P x) : ∀ x ∈ layersFrom number next bound marks layer, P x := by
  induction bound generalizing marks layer with
  | zero => exact start
  | succ bound ih =>
    cases layer with
    | nil => simp [layersFrom]
    | cons first rest =>
      intro x member
      simp only [layersFrom] at member
      rcases List.mem_append.mp member with here | further
      · exact start x here
      · refine ih _ (fun y among => ?_) x further
        obtain ⟨origin, listed, reached⟩ := List.mem_flatMap.mp (mem_of_mem_unmarked number among).1
        exact closed origin (start origin listed) y reached

theorem forall_mem_breadthFirst (closed : ∀ x, P x → ∀ y ∈ next x, P y) (bound : Nat)
    {start : List α} (holds : ∀ x ∈ start, P x) : ∀ x ∈ breadthFirst number next bound start, P x :=
  forall_mem_layersFrom closed bound _ fun x member => holds x (mem_of_mem_unmarked number member).1

theorem forall_mem_depthFirst (closed : ∀ x, P x → ∀ y ∈ next x, P y) (bound : Nat) (marks : Marks)
    {stack : List α} (start : ∀ x ∈ stack, P x) : ∀ x ∈ depthFirst number next bound marks stack, P x := by
  induction bound generalizing marks stack with
  | zero => simp [depthFirst]
  | succ bound ih =>
    intro x member
    rw [depthFirst] at member
    split at member
    · simp at member
    · rename_i top rest unmarked
      have remains : ∀ y ∈ top :: rest, P y := fun y among =>
        start y ((List.dropWhile_sublist _).subset (unmarked ▸ among))
      rcases List.mem_cons.mp member with rfl | deeper
      · exact remains _ List.mem_cons_self
      · refine ih _ (fun y among => ?_) x deeper
        rcases List.mem_append.mp among with reached | waiting
        · exact closed top (remains top List.mem_cons_self) y (List.mem_reverse.mp reached)
        · exact remains y (List.mem_cons_of_mem _ waiting)

theorem forall_mem_distinct {xs : List α} (holds : ∀ x ∈ xs, P x) : ∀ x ∈ distinct number xs, P x :=
  fun x member => holds x (mem_of_mem_unmarked number member).1

end Reach

namespace Session

variable {graph : Graph} {session : Session} {document : DocumentId} {id : ParallelId}

theorem Sane.holds_of_mem_branchesOf (sane : session.Sane graph) (held : session.Holds document id) :
    ∀ branch ∈ session.branchesOf id, session.Holds document branch := by
  intro branch member
  obtain ⟨parallel, found, rfl⟩ := held
  simp only [branchesOf, found, Option.toList_some, List.flatMap_cons, List.flatMap_nil,
    List.append_nil] at member
  exact sane.branches id parallel found branch member

theorem Sane.holds_of_mem_edgesOf (sane : session.Sane graph) (held : session.Holds document id) :
    ∀ edge ∈ session.edgesOf id, session.Holds document edge := by
  intro edge member
  obtain ⟨parallel, found, rfl⟩ := held
  simp only [edgesOf, found, Option.toList_some, List.flatMap_cons, List.flatMap_nil,
    List.append_nil] at member
  exact sane.branches id parallel found edge (List.mem_append_left _ member)

theorem Sane.holds_of_mem_basesOf (sane : session.Sane graph) (held : session.Holds document id) :
    ∀ base ∈ session.basesOf id, session.Holds document base := by
  intro base member
  obtain ⟨parallel, found, rfl⟩ := held
  simp only [basesOf, found, Option.toList_some, List.flatMap_cons, List.flatMap_nil,
    List.append_nil] at member
  exact sane.branches id parallel found base (List.mem_append_right _ member)

theorem present_succeeds {ids : List ParallelId} (held : ∀ id ∈ ids, session.Holds document id) :
    session.present ids = .ok ids := by
  have none : (ids.find? fun id => (session.parallel? id).isNone) = .none := by
    rw [List.find?_eq_none]
    intro id member
    obtain ⟨parallel, found, _⟩ := held id member
    simp [found]
  simp only [present, none]

theorem present_ensures (session : Session) (ids : List ParallelId) :
    Ensures (session.present ids) fun listed => listed = ids := by
  unfold present
  split
  · exact .error _
  · exact .ok rfl

theorem lineageOf_ensures (session : Session) (id : ParallelId) :
    Ensures (session.lineageOf id) fun lineage => lineage = session.lineage id := session.present_ensures _

theorem conditionsOf_ensures (session : Session) (id : ParallelId) :
    Ensures (session.conditionsOf id) fun conditions => conditions = session.conditions id :=
  (Ensures.anything _).bind fun _ _ => session.present_ensures _

theorem Sane.holds_of_mem_lineage (sane : session.Sane graph) (held : session.Holds document id) :
    ∀ other ∈ session.lineage id, session.Holds document other :=
  forall_mem_breadthFirst (fun _ => sane.holds_of_mem_branchesOf) _ (by simpa using held)

theorem Sane.lineageOf_eq (sane : session.Sane graph) (held : session.Holds document id) :
    session.lineageOf id = .ok (session.lineage id) :=
  present_succeeds (sane.holds_of_mem_lineage held)

theorem Sane.holds_of_mem_overriding (sane : session.Sane graph) (held : session.Holds document id) :
    ∀ other ∈ session.overriding id, session.Holds document other := by
  refine forall_mem_depthFirst (fun other inside onward member => ?_) _ _ fun other member => ?_
  · split at member
    · simp at member
    · exact sane.holds_of_mem_edgesOf inside onward member
  · exact sane.holds_of_mem_edgesOf held other (List.mem_reverse.mp member)

theorem Sane.holds_of_mem_conditions (sane : session.Sane graph) (held : session.Holds document id) :
    ∀ other ∈ session.conditions id, session.Holds document other := by
  refine forall_mem_distinct fun other member => ?_
  obtain ⟨above, overridden, inherited⟩ := List.mem_flatMap.mp member
  have inside := sane.holds_of_mem_overriding held above (List.mem_filter.mp overridden).1
  refine forall_mem_depthFirst (fun _ => sane.holds_of_mem_basesOf) _ _ (fun base listed => ?_) other
    inherited
  exact sane.holds_of_mem_basesOf inside base (List.mem_reverse.mp listed)

theorem Sane.conditionsOf_eq (sane : session.Sane graph) (held : session.Holds document id) :
    session.conditionsOf id = .ok (session.conditions id) := by
  simp only [conditionsOf, present_succeeds (sane.holds_of_mem_overriding held), ok_bind,
    present_succeeds (sane.holds_of_mem_conditions held)]

end Session
end OutlineTypes
