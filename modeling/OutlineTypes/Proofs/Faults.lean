import OutlineTypes.Proofs.Cruft

/-! Faults on a log. A fault is noted at most once about each place, and noting it leaves the faults of other
kinds alone. Marking a target marks the spans behind it and reports each of them that had no mark. -/
namespace OutlineTypes

namespace FaultKind

/-- A fault of this kind is about one name that annotates a node. -/
def blamesName : FaultKind → Bool
  | unresolved | circular => true
  | contract | tabs => false

end FaultKind

/-- The span stands in its document, so that faults about it have a place. -/
def SpanId.LocatedIn (span : SpanId) (documents : Documents) : Prop := ∀ kind, ∃ fault,
  (documents.find? span.statement.document).bind (Fault.atSpan? kind · span) = some fault

def StatementId.LocatedIn (id : StatementId) (documents : Documents) : Prop := ∀ kind, ∃ fault,
  (documents.find? id.document).bind (Fault.atStatement? kind · id) = some fault

namespace Fault

variable {kind : FaultKind} {document : Document} {fault : Fault}

theorem place_of_atStatement? {id : StatementId} (located : atStatement? kind document id = some fault) :
    fault.place = (kind, id, none) := by
  simp only [atStatement?, Option.bind_eq_bind, Option.bind_eq_some_iff, Option.pure_def, Option.some.injEq] at located
  obtain ⟨line, _, statement, _, rfl⟩ := located
  rfl

theorem place_of_atSpan? {id : SpanId} (located : atSpan? kind document id = some fault) :
    fault.place = (kind, id.statement, some id) := by
  simp only [atSpan?, Option.bind_eq_bind, Option.bind_eq_some_iff, Option.pure_def, Option.some.injEq] at located
  obtain ⟨line, _, statement, _, span, found, rfl⟩ := located
  have same : id.statement = statement.id := by
    by_contra apart
    simp [Statement.span?, apart] at found
  rw [place, same]

end Fault

namespace FaultLog

variable {log : FaultLog} {fault : Fault} {kind : FaultKind} {statement : StatementId}

/-- The faults of a kind that name a span. -/
def naming (log : FaultLog) (kind : FaultKind) (span : SpanId) : List Fault :=
  (log.ofKind kind).filter (·.span = some span)

/-- There is a fault about a contract in this statement. -/
def Accuses (log : FaultLog) (statement : StatementId) : Prop :=
  ∃ fault ∈ log.ofKind .contract, fault.statement = statement

theorem holds_iff (log : FaultLog) (place : FaultKind × StatementId × Option SpanId) :
    log.holds place ↔ ∃ fault ∈ log.ofKind place.1, fault.statement = place.2.1 ∧ fault.span = place.2.2 := by
  simp only [holds, List.any_eq_true, ofKind, List.mem_filter, decide_eq_true_eq, Fault.place, Prod.ext_iff]
  constructor
  · rintro ⟨fault, listed, kind, same⟩
    exact ⟨fault, ⟨listed, kind⟩, same⟩
  · rintro ⟨fault, ⟨listed, kind⟩, same⟩
    exact ⟨fault, listed, kind, same⟩

theorem ofKind_note (log : FaultLog) (fault : Fault) (kind : FaultKind) :
    (log.note (some fault)).ofKind kind =
      log.ofKind kind ++ if fault.kind = kind ∧ log.holds fault.place = false then [fault] else [] := by
  unfold note report
  by_cases held : log.holds fault.place
  · simp [held]
  · by_cases same : fault.kind = kind
    · simp [held, same, ofKind]
    · simp [held, same, ofKind]

theorem ofKind_note_of_ne (other : fault.kind ≠ kind) : (log.note (some fault)).ofKind kind = log.ofKind kind := by
  simp [ofKind_note, other]

theorem naming_note (log : FaultLog) (fault : Fault) (kind : FaultKind) (span : SpanId) :
    (log.note (some fault)).naming kind span = log.naming kind span ++
      if (fault.kind = kind ∧ fault.span = some span) ∧ log.holds fault.place = false then [fault] else [] := by
  rw [naming, ofKind_note, List.filter_append, naming]
  by_cases noted : fault.kind = kind ∧ log.holds fault.place = false
  · by_cases named : fault.span = some span <;> simp [noted, named]
  · rw [if_neg noted, if_neg fun h => noted ⟨h.1.1, h.2⟩]
    rfl

theorem accuses_note (contract : fault.kind = .contract) :
    (log.note (some fault)).Accuses statement ↔ log.Accuses statement ∨ fault.statement = statement := by
  unfold Accuses
  rw [ofKind_note]
  by_cases held : log.holds fault.place
  · simp only [held, Bool.true_eq_false, and_false, ↓reduceIte, List.append_nil]
    refine ⟨.inl, fun h => h.elim id ?_⟩
    rintro rfl
    obtain ⟨other, listed, same, _⟩ := (log.holds_iff fault.place).mp held
    exact ⟨other, contract ▸ listed, same⟩
  · simp [held, contract, or_and_right, exists_or]

section Notes

variable {faults : List (Option Fault)}

theorem ofKind_notes_of_ne (alike : ∀ fault, some fault ∈ faults → fault.kind = kind) {other : FaultKind}
    (apart : other ≠ kind) : (faults.foldl note log).ofKind other = log.ofKind other := by
  induction faults generalizing log with
  | nil => rfl
  | cons first faults ih =>
    rw [List.foldl_cons, ih fun fault member => alike fault (List.mem_cons_of_mem _ member)]
    cases first with
    | none => rfl
    | some fault => exact ofKind_note_of_ne (alike fault List.mem_cons_self ▸ apart.symm)

theorem accuses_notes (alike : ∀ fault, some fault ∈ faults → fault.kind = .contract) :
    (faults.foldl note log).Accuses statement ↔
      log.Accuses statement ∨ ∃ fault, some fault ∈ faults ∧ fault.statement = statement := by
  induction faults generalizing log with
  | nil => simp
  | cons first faults ih =>
    rw [List.foldl_cons, ih fun fault member => alike fault (List.mem_cons_of_mem _ member)]
    cases first with
    | none => simp [note]
    | some fault =>
      rw [accuses_note (alike fault List.mem_cons_self), or_assoc]
      simp [or_and_right, exists_or]

end Notes

end FaultLog

namespace Cruft

variable {kind other : FaultKind} {documents : Documents} {graph : Graph} {target : CruftTarget}

/-- The fault about a span is filed under the span. -/
theorem place_of_located {id : SpanId} {fault : Fault}
    (located : (documents.find? id.statement.document).bind (Fault.atSpan? kind · id) = some fault) :
    fault.place = (kind, id.statement, some id) := by
  obtain ⟨document, _, found⟩ := Option.bind_eq_some_iff.mp located
  exact Fault.place_of_atSpan? found

section Has

variable (kind) (documents) (graph)

theorem has_addSpan (state : Cruft × FaultLog) (id : SpanId) (other : CruftTarget) :
    (addSpan kind documents state id).1.has other = (state.1.has other || decide (.span id = other)) := by
  unfold addSpan
  simp only
  split
  · rename_i marked
    by_cases same : CruftTarget.span id = other
    · subst same
      simpa [hasSpan] using marked
    · simp [same]
  · exact has_mark _ _ _ _

theorem has_addSpans (ids : List SpanId) (state : Cruft × FaultLog) (other : CruftTarget) :
    (ids.foldl (addSpan kind documents) state).1.has other =
      (state.1.has other || decide (other ∈ ids.map CruftTarget.span)) := by
  induction ids generalizing state with
  | nil => simp
  | cons id ids ih => simp [ih, has_addSpan, Bool.or_assoc, eq_comm]

/-- What is marked once a target is. -/
theorem has_add (state : Cruft × FaultLog) (unmarked : state.1.has target = false) (other : CruftTarget) :
    (add target kind graph documents state).1.has other = (state.1.has other || decide (target = other) ||
      decide (other ∈ (spansBehind graph target).map CruftTarget.span)) := by
  unfold add
  simp only [unmarked, Bool.false_eq_true, ↓reduceIte]
  rw [has_addSpans]
  cases target with
  | span id => simp [spansBehind, eq_comm]
  | node id => rw [has_mark]
  | edge id => rw [has_mark]

end Has

section OtherKinds

theorem ofKind_addSpan_of_ne (apart : other ≠ kind) (state : Cruft × FaultLog) (id : SpanId) :
    (addSpan kind documents state id).2.ofKind other = state.2.ofKind other := by
  unfold addSpan
  simp only
  split
  · rfl
  · cases located : (documents.find? id.statement.document).bind (Fault.atSpan? kind · id) with
    | none => rfl
    | some fault =>
      have same : fault.kind = kind := congrArg Prod.fst (place_of_located located)
      exact FaultLog.ofKind_note_of_ne (same ▸ apart.symm)

theorem ofKind_add_of_ne (apart : other ≠ kind) (state : Cruft × FaultLog) :
    (add target kind graph documents state).2.ofKind other = state.2.ofKind other := by
  have spans (ids : List SpanId) (state : Cruft × FaultLog) :
      (ids.foldl (addSpan kind documents) state).2.ofKind other = state.2.ofKind other := by
    induction ids generalizing state with
    | nil => rfl
    | cons id ids ih => rw [List.foldl_cons, ih, ofKind_addSpan_of_ne apart]
  unfold add
  simp only
  split
  · rfl
  · exact spans _ _

end OtherKinds

end Cruft
end OutlineTypes
