import OutlineTypes.Document
import OutlineTypes.Proofs.Document.Likeness
import OutlineTypes.Proofs.Ordered
import Mathlib.Data.List.InsertIdx

/-! Documents under other names. A document that goes by another name has the same lines in the same places: it
is read, edited and searched in the same way, and says the same under its new name. -/
namespace OutlineTypes

variable {f : DocumentId → DocumentId}

section Names

variable (f)

def StatementId.rename (id : StatementId) : StatementId := { id with document := f id.document }

def SpanId.rename (id : SpanId) : SpanId := { id with statement := id.statement.rename f }

def Span.rename (span : Span) : Span := { span with id := span.id.rename f }

def Statement.rename (line : Statement) : Statement :=
  { line with
    id := line.id.rename f
    declarations := line.declarations.map (Span.rename f)
    annotations := line.annotations.map (Span.rename f) }

def TypePath.rename (path : TypePath) : TypePath := { path with document := f path.document }

namespace Document

def rename (document : Document) : Document :=
  { document with id := f document.id, statements := document.statements.map (Statement.rename f) }

def Placement.rename (placement : Placement) : Placement :=
  ⟨placement.statement.rename f, placement.span.rename f, placement.path.rename f⟩

end Document

end Names

theorem StatementId.rename_injective (injective : f.Injective) : (StatementId.rename f).Injective := by
  rintro ⟨_, _⟩ ⟨_, _⟩ same
  simpa [rename, injective.eq_iff] using same

theorem SpanId.rename_injective (injective : f.Injective) : (SpanId.rename f).Injective := by
  rintro ⟨_, _, _⟩ ⟨_, _, _⟩ same
  simpa [rename, (StatementId.rename_injective injective).eq_iff] using same

theorem TypePath.rename_injective (injective : f.Injective) : (TypePath.rename f).Injective := by
  rintro ⟨_, _, _⟩ ⟨_, _, _⟩ same
  simpa [rename, injective.eq_iff] using same

section Reading

theorem Statement.rename_read (id : StatementId) (text : String) (tabSize : Nat) :
    (read id text tabSize).rename f = read (id.rename f) text tabSize := by
  have spans (side : Side) (tokens : List Token) :
      (spansOn id side tokens).map (Span.rename f) = spansOn (id.rename f) side tokens := by
    simp only [spansOn, List.map_map]
    rfl
  simp only [rename, read_eq_split, split, blank, spans]

namespace Document

variable {document : Document}

theorem read_rename (line : String) : (document.rename f).read line =
    ((document.read line).1.rename f, (document.read line).2.rename f) := by
  simp only [read, Statement.rename_read]
  rfl

theorem readAll_rename (lines : List String) : (document.rename f).readAll lines =
    ((document.readAll lines).1.map (Statement.rename f), (document.readAll lines).2.rename f) := by
  induction lines generalizing document with
  | nil => rfl
  | cons line rest ih => simp only [readAll, read_rename, ih, List.map_cons]

theorem replace_rename (statements : List Statement) :
    (document.replace statements).rename f = (document.rename f).replace (statements.map (Statement.rename f)) := rfl

theorem rename_ofText (id : DocumentId) (tabSize : Nat) (text : String) :
    (ofText id tabSize text).rename f = ofText (f id) tabSize text := by
  have blank : empty (f id) tabSize = (empty id tabSize).rename f := rfl
  simp only [ofText, blank, readAll_rename, replace_rename]

end Document

end Reading

section Containment

variable (lines : List Statement)

namespace Outline

theorem enclosing_rename (indent : Nat) (above : List Statement) :
    enclosing indent (above.map (Statement.rename f)) = enclosing indent above := by
  induction above generalizing indent with
  | nil => rfl
  | cons line above ih => simp only [List.map_cons, enclosing, Statement.rename, List.length_map, ih]

theorem above_rename (index : Nat) :
    above (lines.map (Statement.rename f)) index = (above lines index).map (Statement.rename f) := by
  simp [above]

theorem ancestors_rename (index : Nat) :
    ancestors (lines.map (Statement.rename f)) index = ancestors lines index := by
  unfold ancestors
  rw [List.getElem?_map]
  cases lines[index]? with
  | none => rfl
  | some line =>
    simp only [Option.map_some, above_rename, enclosing_rename]
    rfl

theorem container?_rename (index indent : Nat) :
    container? (lines.map (Statement.rename f)) index indent = container? lines index indent := by
  rw [container?, above_rename, enclosing_rename, container?]

theorem descendants_rename (index : Nat) :
    descendants (lines.map (Statement.rename f)) index = descendants lines index := by
  unfold descendants
  rw [List.getElem?_map]
  cases lines[index]? with
  | none => rfl
  | some line =>
    simp only [Option.map_some, List.zipIdx_map, ← List.map_drop, List.takeWhile_map, List.filter_map,
      List.map_map]
    rfl

end Outline

namespace Document

variable {document : Document} (injective : f.Injective)

theorem get?_rename (index : Nat) : (document.rename f).get? index = (document.get? index).map (Statement.rename f) :=
  List.getElem?_map

theorem length_rename : (document.rename f).length = document.length := by
  simp [length, rename]

theorem ancestors_rename (index : Nat) : (document.rename f).ancestors index = document.ancestors index :=
  Outline.ancestors_rename document.statements index

theorem descendants_rename (index : Nat) : (document.rename f).descendants index = document.descendants index :=
  Outline.descendants_rename document.statements index

include injective

theorem position?_rename (id : StatementId) :
    (document.rename f).position? (id.rename f) = document.position? id := by
  simp only [position?, rename, List.findIdx?_map]
  congr 1
  funext line
  simp [Statement.rename, (StatementId.rename_injective injective).eq_iff]

theorem statement?_rename (id : StatementId) :
    (document.rename f).statement? (id.rename f) = (document.statement? id).map (Statement.rename f) := by
  simp only [statement?, position?_rename injective]
  cases document.position? id with
  | none => rfl
  | some index => exact get?_rename index

end Document

end Containment

section Editing

variable (injective : f.Injective)

def Touched.rename (touched : Touched) : Touched :=
  ⟨touched.parents.image _ (StatementId.rename_injective injective), touched.whole⟩

namespace Touched

variable {touched : Touched}

theorem note_rename (lines : List Statement) (parent : Option Nat) :
    (touched.rename injective).note (lines.map (Statement.rename f)) parent =
      (touched.note lines parent).rename injective := by
  have found : (parent.bind fun index => (lines.map (Statement.rename f))[index]?) =
      (parent.bind fun index => lines[index]?).map (Statement.rename f) := by
    cases parent <;> simp
  unfold note
  rw [found]
  cases parent.bind fun index => lines[index]? with
  | none => rfl
  | some line => simp only [Option.map_some, rename, OrderedSet.image_insert]; rfl

theorem noteLine_rename (lines : List Statement) (position : Nat) (line : Statement) :
    (touched.rename injective).noteLine (lines.map (Statement.rename f)) position (line.rename f) =
      (touched.noteLine lines position line).rename injective := by
  have noop : (line.rename f).noop = line.noop := rfl
  have indent : (line.rename f).indent = line.indent := rfl
  unfold noteLine
  rw [noop, indent, Outline.container?_rename, note_rename]
  split <;> rfl

theorem noteRun_rename (lines : List Statement) (position count : Nat) :
    (touched.rename injective).noteRun (lines.map (Statement.rename f)) position count =
      (touched.noteRun lines position count).rename injective := by
  induction count generalizing touched position with
  | zero => rfl
  | succ count ih =>
    simp only [noteRun, List.getElem?_map]
    cases lines[position]? with
    | none => exact ih _
    | some line => simp only [Option.map_some, noteLine_rename, ih]

end Touched

namespace Draft

def rename (draft : Draft) : Draft :=
  ⟨draft.lines.map (Statement.rename f), draft.touched.rename injective, draft.reader.rename f⟩

variable {draft : Draft}

theorem apply_rename (edit : Edit) :
    (draft.rename injective).apply edit = (draft.apply edit).map (rename injective) := by
  cases edit with
  | insert position line =>
    simp only [apply, rename, List.length_map, Document.read_rename, Touched.noteLine_rename]
    split
    · rfl
    · simp only [Except.map, rename, List.map_insertIdx]
  | delete position count =>
    simp only [apply, rename, List.length_map, Touched.noteRun_rename]
    split
    · rfl
    · simp only [Except.map, rename, List.map_append, List.map_take, List.map_drop]
  | update position line =>
    simp only [apply, rename, List.getElem?_map, List.length_map, Document.read_rename]
    cases draft.lines[position]? with
    | none => rfl
    | some old =>
      simp only [Option.map_some, Touched.noteLine_rename, Except.map, rename, List.map_set]

theorem applyAll_rename (edits : List Edit) : (draft.rename injective).applyAll edits =
    ((draft.applyAll edits).1.rename injective, (draft.applyAll edits).2) := by
  induction edits generalizing draft with
  | nil => rfl
  | cons edit rest ih =>
    simp only [applyAll, apply_rename]
    cases draft.apply edit with
    | error reason => rfl
    | ok next => exact ih

theorem parents_rename (document : Document) : (draft.rename injective).parents (document.rename f) =
    (draft.parents document).map (StatementId.rename f) := by
  have gone : ((draft.rename injective).touched.parents.toList.any fun id =>
      ((document.rename f).position? id).isNone || !(draft.rename injective).lines.any (·.id = id)) =
        draft.touched.parents.toList.any fun id =>
          (document.position? id).isNone || !draft.lines.any (·.id = id) := by
    simp only [rename, Touched.rename, OrderedSet.toList_image, List.any_map, Function.comp_def,
      Document.position?_rename injective, Statement.rename, (StatementId.rename_injective injective).eq_iff]
  have whole : (draft.rename injective).touched.whole = draft.touched.whole := rfl
  simp only [parents, gone, whole]
  split <;> rfl

end Draft

def EditPlan.rename (f : DocumentId → DocumentId) (plan : EditPlan) : EditPlan :=
  ⟨plan.statements.map (Statement.rename f), plan.parents.map (StatementId.rename f)⟩

include injective in
theorem Document.plan_rename (document : Document) (edits : List Edit) : (document.rename f).plan edits =
    ((document.plan edits).1.map (EditPlan.rename f), (document.plan edits).2.rename f) := by
  have start : Draft.ofDocument (document.rename f) = (Draft.ofDocument document).rename injective := rfl
  simp only [plan, start, Draft.applyAll_rename]
  generalize (Draft.ofDocument document).applyAll edits = result
  obtain ⟨draft, failure⟩ := result
  cases failure with
  | some reason => rfl
  | none =>
    have parents := draft.parents_rename injective { document with nextSerial := draft.reader.nextSerial }
    simp only [Except.map, EditPlan.rename, ← parents]
    rfl

end Editing

namespace Document

variable {document : Document} (injective : f.Injective)

section Regions

include injective

/-- A region that the document has under its new name, too. -/
theorem region_rename (parents : List StatementId) :
    Refines (document.region parents) ((document.rename f).region (parents.map (StatementId.rename f))) := by
  have positions : Refines (parents.mapM document.positionOf)
      ((parents.map (StatementId.rename f)).mapM (document.rename f).positionOf) := by
    have each (id : StatementId) : Refines (document.positionOf id) ((document.rename f).positionOf (id.rename f)) := by
      unfold positionOf
      rw [position?_rename injective]
      split
      · exact .refl _
      · exact fun _ wrong => by contradiction
    induction parents with
    | nil => exact .refl _
    | cons id parents ih =>
      rw [List.map_cons, List.mapM_cons, List.mapM_cons]
      exact (each id).bind fun _ => ih.bind fun _ => .refl _
  have nested (positions : List Nat) : (document.rename f).nestedUnder positions = document.nestedUnder positions := by
    have inside : (document.rename f).descendants = document.descendants := funext descendants_rename
    simp only [nestedUnder, length_rename, inside]
  unfold region
  rw [List.isEmpty_map, length_rename]
  split
  · exact .refl _
  · refine positions.bind fun positions => ?_
    rw [nested]
    exact .refl _

end Regions

theorem byDepth_rename (region : List Nat) : (document.rename f).byDepth region = document.byDepth region := by
  have noop (index : Nat) : ((document.rename f).get? index).any (fun line => !line.noop) =
      (document.get? index).any fun line => !line.noop := by
    rw [get?_rename]
    cases document.get? index <;> rfl
  simp only [byDepth, noop, depth, ancestors_rename]

theorem factor_rename (index : Nat) (span : Span) :
    ((document.rename f).factor index (span.rename f)).map Spine.path =
      ((document.factor index span).map Spine.path).map (TypePath.rename f) := by
  have lines : (document.ancestors index).reverse.map (document.rename f).declarationsAt =
      ((document.ancestors index).reverse.map document.declarationsAt).map (List.map (Span.rename f)) := by
    rw [List.map_map]
    refine List.map_congr_left fun index _ => ?_
    simp only [declarationsAt, get?_rename, Function.comp_apply]
    cases document.get? index <;> rfl
  simp only [factor, ancestors_rename]
  rw [lines, ← map_choices]
  simp only [List.map_map]
  refine List.map_congr_left fun above _ => ?_
  refine TypePath.ext_names (by rfl) ?_
  simp [Spine.path, Spine.vertebrae, TypePath.rename, Span.rename]

theorem placements_rename (index : Nat) :
    (document.rename f).placements index = (document.placements index).map (Placement.rename f) := by
  have bySpine (document : Document) (statement : Statement) (span : Span) :
      (document.factor index span).map (fun spine => Placement.mk statement span spine.path) =
        ((document.factor index span).map Spine.path).map (Placement.mk statement span) := by
    rw [List.map_map]
    rfl
  unfold placements
  rw [get?_rename]
  cases document.get? index with
  | none => rfl
  | some line =>
    have noop : (line.rename f).noop = line.noop := rfl
    simp only [Option.map_some, noop]
    split
    · rfl
    · have declarations : (line.rename f).declarations = line.declarations.map (Span.rename f) := rfl
      rw [declarations, List.flatMap_map, List.map_flatMap]
      congr 1
      funext span
      rw [bySpine, factor_rename, bySpine, List.map_map, List.map_map, List.map_map, List.map_map]
      rfl

include injective in
theorem annotationsOf_rename (declarations : List SpanId) :
    (document.rename f).annotationsOf (declarations.map (SpanId.rename f)) =
      (document.annotationsOf declarations).map (Span.rename f) := by
  have statements : OrderedSet.ofList ((declarations.map (SpanId.rename f)).map SpanId.statement) =
      (OrderedSet.ofList (declarations.map SpanId.statement)).image _ (StatementId.rename_injective injective) := by
    rw [OrderedSet.image_ofList, List.map_map, List.map_map]
    rfl
  simp only [annotationsOf, statements, OrderedSet.toList_image, List.flatMap_map, List.map_flatMap,
    statement?_rename injective]
  congr 1
  funext id
  cases document.statement? id <;> rfl

end Document

end OutlineTypes
