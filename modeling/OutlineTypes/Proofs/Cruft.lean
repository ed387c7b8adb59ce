import OutlineTypes.Proofs.Ordered
import OutlineTypes.Resolution.Session

/-! Marks of cruft. Marking a node or an edge marks the spans behind it and no other node or edge, and a
mark that was there stays as it was, and so does every fault on the log. -/
namespace OutlineTypes

namespace Cruft

theorem reason?_mark (cruft : Cruft) (target other : CruftTarget) (kind : FaultKind) :
    (cruft.mark target kind).reason? other =
      if other = target then some ((cruft.reason? target).getD kind) else cruft.reason? other := by
  unfold mark has
  cases marked : cruft.reason? target with
  | some reason =>
    by_cases same : other = target
    · simp [same, marked]
    · simp [same]
  | none =>
    cases target <;> cases other <;> simp [reason?, OrderedMap.find?_insert]

theorem has_mark (cruft : Cruft) (target other : CruftTarget) (kind : FaultKind) :
    (cruft.mark target kind).has other = (cruft.has other || decide (target = other)) := by
  unfold has
  rw [reason?_mark]
  by_cases same : other = target
  · simp [same]
  · simp [same, Ne.symm same]

theorem has_mark_of_has {cruft : Cruft} {other : CruftTarget} (marked : cruft.has other)
    (target : CruftTarget) (kind : FaultKind) : (cruft.mark target kind).has other := by
  simp [has_mark, marked]

theorem reason?_markAll (kind : FaultKind) (targets : List CruftTarget) (cruft : Cruft) (other : CruftTarget) :
    (targets.foldl (fun cruft target => cruft.mark target kind) cruft).reason? other =
      if other ∈ targets then some ((cruft.reason? other).getD kind) else cruft.reason? other := by
  induction targets generalizing cruft with
  | nil => simp
  | cons target targets ih =>
    rw [List.foldl_cons, ih, reason?_mark]
    by_cases same : other = target
    · simp [same]
    · simp [same]

theorem has_markAll (kind : FaultKind) (targets : List CruftTarget) (cruft : Cruft) (other : CruftTarget) :
    (targets.foldl (fun cruft target => cruft.mark target kind) cruft).has other =
      (cruft.has other || decide (other ∈ targets)) := by
  unfold has
  rw [reason?_markAll]
  by_cases member : other ∈ targets <;> simp [member]

def isSpan : CruftTarget → Bool
  | .span _ => true
  | .node _ | .edge _ => false

theorem reason?_addSpan (kind : FaultKind) (documents : Documents) (state : Cruft × FaultLog) (id : SpanId)
    {other : CruftTarget} (apart : isSpan other = false) :
    (addSpan kind documents state id).1.reason? other = state.1.reason? other := by
  unfold addSpan
  simp only
  split
  · rfl
  · rw [reason?_mark, if_neg]
    rintro rfl
    contradiction

theorem reason?_add (target : CruftTarget) (kind : FaultKind) (graph : Graph) (documents : Documents)
    (state : Cruft × FaultLog) {other : CruftTarget} (proper : isSpan target = false)
    (apart : isSpan other = false) :
    (add target kind graph documents state).1.reason? other =
      if other = target then some ((state.1.reason? target).getD kind) else state.1.reason? other := by
  have spans (ids : List SpanId) (state : Cruft × FaultLog) :
      (ids.foldl (addSpan kind documents) state).1.reason? other = state.1.reason? other := by
    induction ids generalizing state with
    | nil => rfl
    | cons id ids ih =>
      rw [List.foldl_cons, ih]
      exact reason?_addSpan kind documents state id apart
  obtain ⟨cruft, log⟩ := state
  unfold add
  simp only
  split
  · rename_i marked
    obtain ⟨reason, found⟩ := Option.isSome_iff_exists.mp marked
    by_cases same : other = target
    · simp [same, found]
    · simp [same]
  · rw [spans]
    cases target with
    | span id => contradiction
    | node id => exact reason?_mark cruft (.node id) other kind
    | edge id => exact reason?_mark cruft (.edge id) other kind

/-- Every mark keeps its reason, and faults come after those that are on the log. -/
structure Remembers (state next : Cruft × FaultLog) : Prop where
  reasons : ∀ target reason, state.1.reason? target = some reason → next.1.reason? target = some reason
  faults : state.2.faults <+: next.2.faults

namespace Remembers

variable {state next last : Cruft × FaultLog}

theorem refl (state : Cruft × FaultLog) : Remembers state state := ⟨fun _ _ h => h, List.prefix_refl _⟩

theorem trans (first : Remembers state next) (second : Remembers next last) : Remembers state last where
  reasons target reason known := second.reasons target reason (first.reasons target reason known)
  faults := first.faults.trans second.faults

theorem foldl {step : Cruft × FaultLog → α → Cruft × FaultLog} (each : ∀ state x, Remembers state (step state x))
    (state : Cruft × FaultLog) (xs : List α) : Remembers state (xs.foldl step state) := by
  induction xs generalizing state with
  | nil => exact refl state
  | cons x xs ih => exact (each state x).trans (ih _)

end Remembers

theorem reason?_mark_of_some {cruft : Cruft} {other : CruftTarget} {reason : FaultKind}
    (known : cruft.reason? other = some reason) (target : CruftTarget) (kind : FaultKind) :
    (cruft.mark target kind).reason? other = some reason := by
  rw [reason?_mark]
  split
  · rename_i same
    rw [← same, known]
    rfl
  · exact known

theorem remembers_addSpan (kind : FaultKind) (documents : Documents) (state : Cruft × FaultLog) (id : SpanId) :
    Remembers state (addSpan kind documents state id) := by
  unfold addSpan
  simp only
  split
  · exact .refl state
  · exact ⟨fun _ _ known => reason?_mark_of_some known _ _, FaultLog.note_prefix _ _⟩

theorem remembers_add (target : CruftTarget) (kind : FaultKind) (graph : Graph) (documents : Documents)
    (state : Cruft × FaultLog) : Remembers state (add target kind graph documents state) := by
  obtain ⟨cruft, log⟩ := state
  unfold add
  simp only
  split
  · exact .refl _
  · have marked : Remembers (cruft, log) (cruft.mark target kind, log) :=
      ⟨fun _ _ known => reason?_mark_of_some known target kind, List.prefix_refl _⟩
    have spans := Remembers.foldl (remembers_addSpan kind documents)
    cases target with
    | span id => exact spans (cruft, log) _
    | node id => exact marked.trans (spans (cruft.mark (.node id) kind, log) _)
    | edge id => exact marked.trans (spans (cruft.mark (.edge id) kind, log) _)

end Cruft

namespace Session

variable (session : Session) (scene : Scene)

/-- Nothing that was found faulty is forgotten. -/
def Remembers (session next : Session) : Prop :=
  Cruft.Remembers (session.cruft, session.faults) (next.cruft, next.faults)

theorem remembers_condemn (target : CruftTarget) (kind : FaultKind) :
    session.Remembers (session.condemn scene target kind) :=
  Cruft.remembers_add target kind scene.graph scene.documents (session.cruft, session.faults)

theorem reason?_condemn_edge (edge other : EdgeId) (kind : FaultKind) :
    (session.condemn scene (.edge edge) kind).cruft.reason? (.edge other) =
      if other = edge then some ((session.cruft.reason? (.edge edge)).getD kind)
      else session.cruft.reason? (.edge other) := by
  have proper : Cruft.isSpan (.edge other) = false := rfl
  have eq := Cruft.reason?_add (.edge edge) kind scene.graph scene.documents (session.cruft, session.faults)
    rfl proper
  simp only [CruftTarget.edge.injEq] at eq
  exact eq

theorem hasNode_condemn_edge (edge : EdgeId) (node : NodeId) (kind : FaultKind) :
    (session.condemn scene (.edge edge) kind).cruft.hasNode node = session.cruft.hasNode node := by
  have proper : Cruft.isSpan (.node node) = false := rfl
  have eq := Cruft.reason?_add (.edge edge) kind scene.graph scene.documents (session.cruft, session.faults)
    rfl proper
  rw [if_neg (by simp)] at eq
  exact congrArg Option.isSome eq

theorem hasEdge_condemn_edge (edge other : EdgeId) (kind : FaultKind) :
    (session.condemn scene (.edge edge) kind).cruft.hasEdge other =
      (session.cruft.hasEdge other || decide (other = edge)) := by
  simp only [Cruft.hasEdge, Cruft.has, reason?_condemn_edge]
  by_cases same : other = edge
  · simp [same]
  · simp [same]

section Groundless

variable {session : Session} {scene : Scene}

/-- All spans of the target are cruft. -/
def Groundless (scene : Scene) (cruft : Cruft) (target : CruftTarget) : Prop :=
  ∀ span ∈ Cruft.spansBehind scene.graph target, cruft.has (.span span)

/-- Nothing is reported of a target that is groundless. -/
theorem condemn_eq_mark {target : CruftTarget} (groundless : Groundless scene session.cruft target)
    (kind : FaultKind) :
    session.condemn scene target kind = { session with cruft := session.cruft.mark target kind } := by
  have silent (cruft : Cruft) (spans : List SpanId) (marked : ∀ span ∈ spans, cruft.has (.span span)) :
      spans.foldl (Cruft.addSpan kind scene.documents) (cruft, session.faults) = (cruft, session.faults) := by
    induction spans with
    | nil => rfl
    | cons span spans ih =>
      rw [List.forall_mem_cons] at marked
      rw [List.foldl_cons, Cruft.addSpan, Cruft.hasSpan, if_pos marked.1]
      exact ih marked.2
  by_cases marked : session.cruft.has target
  · simp [condemn, Cruft.add, Cruft.mark, marked]
  · have after (span : SpanId) (behind : span ∈ Cruft.spansBehind scene.graph target) :
        (session.cruft.mark target kind).has (.span span) :=
      Cruft.has_mark_of_has (groundless span behind) target kind
    cases target with
    | node id => simp only [condemn, Cruft.add, marked, Bool.false_eq_true, ↓reduceIte, silent _ _ after]
    | edge id => simp only [condemn, Cruft.add, marked, Bool.false_eq_true, ↓reduceIte, silent _ _ after]
    | span id => exact absurd (groundless id (List.mem_singleton_self id)) marked

theorem condemnAll_eq (kind : FaultKind) (targets : List CruftTarget)
    (groundless : ∀ target ∈ targets, Groundless scene session.cruft target) :
    targets.foldl (fun session target => session.condemn scene target kind) session =
      { session with cruft := targets.foldl (fun cruft target => cruft.mark target kind) session.cruft } := by
  induction targets generalizing session with
  | nil => rfl
  | cons target targets ih =>
    rw [List.forall_mem_cons] at groundless
    rw [List.foldl_cons, condemn_eq_mark groundless.1, ih]
    · rfl
    · intro other member span behind
      exact Cruft.has_mark_of_has (groundless.2 other member span behind) target kind

theorem condemnGroundless_eq (targets : List CruftTarget) :
    session.condemnGroundless scene targets = { session with
      cruft := (targets.filter fun target =>
        (Cruft.spansBehind scene.graph target).all session.cruft.hasSpan).foldl
          (fun cruft target => cruft.mark target .tabs) session.cruft } := by
  apply condemnAll_eq .tabs
  intro target member span behind
  exact List.all_eq_true.mp (List.mem_filter.mp member).2 span behind

end Groundless

end Session
end OutlineTypes
