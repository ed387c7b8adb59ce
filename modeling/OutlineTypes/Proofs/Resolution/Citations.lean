import OutlineTypes.Proofs.Document.Ranges
import OutlineTypes.Proofs.Resolution.Steps

/-! Citations. Every fault that a session reports names a line of its document at the position where that line
stands, with a range of its characters, and a fault about a span has the range that spells its subject. -/
namespace OutlineTypes

theorem Statement.mem_of_span? {line : Statement} {id : SpanId} {span : Span} (found : line.span? id = some span) :
    id.statement = line.id ∧ span ∈ line.side id.side := by
  unfold span? at found
  split at found
  · exact ⟨‹_›, List.mem_of_getElem? found⟩
  · contradiction

/-- The range that a fault of the line has, as it is about a span or about all of the line. -/
def Statement.rangeOf? (line : Statement) : Option SpanId → Option Text.ByteRange
  | none => line.contentRange
  | some id => (line.span? id).map Span.range

namespace Fault

variable {documents : Documents} {document : Document} {kind : FaultKind} {fault : Fault}

/-- What the fault says of the line is so. -/
structure Cites (document : Document) (line : Statement) (fault : Fault) : Prop where
  position : document.position? fault.statement = some fault.line
  here : document.get? fault.line = some line
  statement : line.id = fault.statement
  /-- The range begins and ends between characters of the line. -/
  covered : ∃ text, Text.slice? line.text.toList fault.range = some text
  spelled : ∀ id, fault.span = some id → ∃ span, line.span? id = some span ∧
    Text.slice? line.text.toList fault.range = some span.subject.toList

/-- The fault is about a line that its document has. -/
def Accurate (documents : Documents) (fault : Fault) : Prop :=
  ∃ document line, documents.find? fault.statement.document = some document ∧ fault.Cites document line

/-- What a fault says in words is no matter. -/
theorem Accurate.reword (accurate : fault.Accurate documents) (message : String) :
    { fault with message }.Accurate documents := by
  obtain ⟨document, line, found, cites⟩ := accurate
  exact ⟨document, line, found, cites.position, cites.here, cites.statement, cites.covered, cites.spelled⟩

theorem accurate_of_atStatement? (sound : document.Sound) {id : StatementId}
    (found : documents.find? id.document = some document) (located : atStatement? kind document id = some fault) :
    fault.Accurate documents := by
  simp only [atStatement?, Option.bind_eq_bind, Option.bind_eq_some_iff, Option.pure_def, Option.some.injEq] at located
  obtain ⟨index, position, line, here, rfl⟩ := located
  refine ⟨document, line, found, position, here, ?_, ⟨_, line.slice?_contentRange⟩, fun id same => by contradiction⟩
  obtain ⟨again, there, same⟩ := sound.position?_eq_some_iff.mp position
  cases here.symm.trans there
  exact same

theorem accurate_of_atSpan? (sound : document.Sound) {id : SpanId}
    (found : documents.find? id.statement.document = some document)
    (located : atSpan? kind document id = some fault) : fault.Accurate documents := by
  simp only [atSpan?, Option.bind_eq_bind, Option.bind_eq_some_iff, Option.pure_def, Option.some.injEq] at located
  obtain ⟨index, position, line, here, span, named, rfl⟩ := located
  obtain ⟨own, among⟩ := Statement.mem_of_span? named
  have spelled : Text.slice? line.text.toList span.range = some span.subject.toList := by
    rw [sound.read line (List.mem_of_getElem? here)] at among ⊢
    exact (Statement.covers_read among).slice?
  rw [own] at found position
  refine ⟨document, line, found, position, here, rfl, ⟨_, spelled⟩, fun other same => ?_⟩
  cases same
  exact ⟨span, named, spelled⟩

/-- The fault has the range of what it is about. -/
def Ranged (documents : Documents) (fault : Fault) : Prop :=
  ∃ document line, documents.find? fault.statement.document = some document ∧ document.get? fault.line = some line ∧
    line.rangeOf? fault.span = some fault.range

theorem Ranged.reword (ranged : fault.Ranged documents) (message : String) : { fault with message }.Ranged documents :=
  ranged

theorem ranged_of_atStatement? {id : StatementId} (found : documents.find? id.document = some document)
    (located : atStatement? kind document id = some fault) : fault.Ranged documents := by
  simp only [atStatement?, Option.bind_eq_bind, Option.bind_eq_some_iff, Option.pure_def, Option.some.injEq] at located
  obtain ⟨index, position, line, here, rfl⟩ := located
  exact ⟨document, line, found, here, rfl⟩

theorem ranged_of_atSpan? {id : SpanId} (found : documents.find? id.statement.document = some document)
    (located : atSpan? kind document id = some fault) : fault.Ranged documents := by
  simp only [atSpan?, Option.bind_eq_bind, Option.bind_eq_some_iff, Option.pure_def, Option.some.injEq] at located
  obtain ⟨index, position, line, here, span, named, rfl⟩ := located
  refine ⟨document, line, (Statement.mem_of_span? named).1 ▸ found, here, ?_⟩
  rw [Statement.rangeOf?, named, Option.map_some]

end Fault

/-- The documents are sound, and each is found by the lines that it has. -/
structure Documents.Kept (documents : Documents) : Prop where
  sound : ∀ id document, documents.find? id = some document → document.Sound
  found : ∀ document ∈ documents.values, ∀ line ∈ document.statements,
    documents.find? line.id.document = some document

/-- Every fault that is located in one of the documents has the property, however it is worded. -/
structure Documents.Warrants (documents : Documents) (P : Fault → Prop) : Prop where
  statement : ∀ kind id document fault, documents.find? id.document = some document →
    Fault.atStatement? kind document id = some fault → P fault
  span : ∀ kind id document fault, documents.find? id.statement.document = some document →
    Fault.atSpan? kind document id = some fault → P fault
  reword : ∀ fault message, P fault → P { fault with message }

theorem Documents.Kept.warrants_accurate {documents : Documents} (kept : documents.Kept) :
    documents.Warrants (Fault.Accurate documents) where
  statement _ _ _ _ found located := Fault.accurate_of_atStatement? (kept.sound _ _ found) found located
  span _ _ _ _ found located := Fault.accurate_of_atSpan? (kept.sound _ _ found) found located
  reword _ message accurate := accurate.reword message

theorem Documents.warrants_ranged (documents : Documents) : documents.Warrants (Fault.Ranged documents) where
  statement _ _ _ _ found located := Fault.ranged_of_atStatement? found located
  span _ _ _ _ found located := Fault.ranged_of_atSpan? found located
  reword _ message ranged := ranged.reword message

namespace FaultLog

variable {log : FaultLog} {P : Fault → Prop}

/-- All faults of the log have the property. -/
def All (P : Fault → Prop) (log : FaultLog) : Prop := ∀ fault ∈ log.faults, P fault

/-- All faults of the log are about lines that the documents have. -/
def Accurate (documents : Documents) (log : FaultLog) : Prop :=
  ∀ fault ∈ log.faults, fault.Accurate documents

theorem All.note (all : log.All P) {fault : Option Fault} (new : ∀ noted, fault = some noted → P noted) :
    (log.note fault).All P := by
  cases fault with
  | none => exact all
  | some fault =>
    intro other listed
    simp only [FaultLog.note, report] at listed
    split at listed
    · exact all other listed
    · rcases List.mem_append.mp listed with before | last
      · exact all other before
      · exact List.mem_singleton.mp last ▸ new fault rfl

theorem All.notes (all : log.All P) {faults : List (Option Fault)} (new : ∀ noted, some noted ∈ faults → P noted) :
    (faults.foldl FaultLog.note log).All P := by
  induction faults generalizing log with
  | nil => exact all
  | cons fault faults ih =>
    refine ih (all.note fun noted same => new noted (same ▸ List.mem_cons_self)) fun noted member => ?_
    exact new noted (List.mem_cons_of_mem _ member)

end FaultLog

namespace Session

variable {scene : Scene} {session next : Session} {document : DocumentId} {P : Fault → Prop}

section Marks

variable (warrants : scene.documents.Warrants P)
include warrants

theorem all_addSpan (kind : FaultKind) {state : Cruft × FaultLog} (all : state.2.All P) (id : SpanId) :
    (Cruft.addSpan kind scene.documents state id).2.All P := by
  unfold Cruft.addSpan
  simp only
  split
  · exact all
  · refine all.note fun noted located => ?_
    obtain ⟨document, found, at_⟩ := Option.bind_eq_some_iff.mp located
    exact warrants.span _ _ _ _ found at_

theorem all_condemn (all : session.faults.All P) (target : CruftTarget) (kind : FaultKind) :
    (session.condemn scene target kind).faults.All P := by
  have spans (ids : List SpanId) (state : Cruft × FaultLog) (all : state.2.All P) :
      (ids.foldl (Cruft.addSpan kind scene.documents) state).2.All P := by
    induction ids generalizing state with
    | nil => exact all
    | cons id ids ih => exact ih _ (all_addSpan warrants kind all id)
  unfold condemn Cruft.add
  simp only
  split
  · exact all
  · exact spans _ _ all

theorem all_condemnStatement (kept : scene.documents.Kept) (all : session.faults.All P) {place : Document × Statement}
    (listed : place ∈ misindented scene.documents) : (session.condemnStatement place).faults.All P := by
  obtain ⟨document, line⟩ := place
  obtain ⟨among, member, _⟩ := mem_misindented.mp listed
  exact all.note fun noted located => warrants.statement _ _ _ _ (kept.found document among line member) located

theorem all_prepare (kept : scene.documents.Kept) (all : session.faults.All P) :
    (session.prepare scene).faults.All P := by
  have lines (places : List (Document × Statement)) (among : places ⊆ misindented scene.documents) (start : Session)
      (all : start.faults.All P) : (places.foldl condemnStatement start).faults.All P := by
    induction places generalizing start with
    | nil => exact all
    | cons place places ih =>
      rw [List.cons_subset] at among
      exact ih among.2 _ (all_condemnStatement warrants kept all among.1)
  have condemned := lines _ (List.Subset.refl _) { session with prepared := true } all
  unfold prepare
  split
  · exact all
  · simp only
    split
    · exact condemned
    · rwa [faults_condemnGroundless, faults_condemnGroundless]

theorem all_accuse (all : session.faults.All P) (node : Node) (message : String) :
    (session.accuse scene node message).faults.All P := by
  refine all.notes fun noted listed => ?_
  obtain ⟨id, _, said⟩ := List.mem_map.mp listed
  obtain ⟨bare, located, rfl⟩ := Option.map_eq_some_iff.mp said
  obtain ⟨document, found, at_⟩ := Option.bind_eq_some_iff.mp located
  exact warrants.reword _ message (warrants.statement _ _ _ _ found at_)

end Marks

section Drills

variable (warrants : scene.documents.Warrants P)
include warrants

theorem Step.all (step : Step scene document session next) (all : session.faults.All P) : next.faults.All P := by
  cases step with
  | insert ours done =>
    unfold Session.insert at done
    split at done
    · contradiction
    · cases done
      exact all
  | modify => exact all
  | condemn listed kind => exact all_condemn warrants all _ kind
  | accuse listed message => exact all_accuse warrants all _ message
  | account => exact all

theorem Steps.all (steps : Steps scene document session next) (all : session.faults.All P) : next.faults.All P := by
  induction steps with
  | refl => exact all
  | tail _ step ih => exact step.all warrants ih

theorem all_cutCycles (all : session.faults.All P) : (session.cutCycles scene).faults.All P := by
  unfold cutCycles
  simp only
  generalize session.circularEdges = edges
  induction edges generalizing session with
  | nil => exact all
  | cons edge edges ih => exact ih (all_condemn warrants all (.edge edge) .circular)

theorem Sane.drill_all (sane : session.Sane scene.graph) (coherent : scene.graph.Coherent)
    (all : session.faults.All P) (path : TypePath) :
    Ensures (session.drill scene path) fun result => result.2.faults.All P := by
  unfold drill
  refine (drillWithin_steps coherent _ path session rfl (sane.closed _)).bind fun result h => .pure ?_
  exact all_cutCycles warrants (h.1.all warrants all)

end Drills

end Session
end OutlineTypes
