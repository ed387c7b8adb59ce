import OutlineTypes.Identity
import OutlineTypes.Ordered
import OutlineTypes.Statement
import OutlineTypes.Text

/-! Documents: the statements of one outline in order. A document also counts the lines ever read for
it, so that a statement's identity is never used twice. -/
namespace OutlineTypes

structure Document where
  id : DocumentId
  tabSize : Nat
  statements : List Statement
  /-- The serial of the next line to be read. -/
  nextSerial : Nat
deriving DecidableEq

namespace Document

def empty (id : DocumentId) (tabSize : Nat) : Document := ⟨id, tabSize, [], 0⟩

/-- Reads a line as a new statement, which is not in the document yet. -/
def read (document : Document) (line : String) : Statement × Document :=
  (Statement.read ⟨document.id, document.nextSerial⟩ line document.tabSize,
    { document with nextSerial := document.nextSerial + 1 })

/-- Reads lines in order. -/
def readAll (document : Document) : List String → List Statement × Document
  | [] => ([], document)
  | line :: rest =>
    let (statement, document) := document.read line
    let (statements, document) := readAll document rest
    (statement :: statements, document)

def replace (document : Document) (statements : List Statement) : Document :=
  { document with statements }

/-- The document a text spells, one statement for each line. -/
def ofText (id : DocumentId) (tabSize : Nat) (text : String) : Document :=
  let (statements, document) := (empty id tabSize).readAll (Text.lines text)
  document.replace statements

def length (document : Document) : Nat := document.statements.length

def get? (document : Document) (index : Nat) : Option Statement := document.statements[index]?

/-- The current position of a statement. -/
def position? (document : Document) (id : StatementId) : Option Nat :=
  document.statements.findIdx? (·.id = id)

def statement? (document : Document) (id : StatementId) : Option Statement :=
  (document.position? id).bind document.get?

def text (document : Document) : String :=
  "\n".intercalate (document.statements.map Statement.text)

@[simp] theorem statements_replace (document : Document) (statements : List Statement) :
    (document.replace statements).statements = statements := rfl

@[simp] theorem id_replace (document : Document) (statements : List Statement) :
    (document.replace statements).id = document.id := rfl

@[simp] theorem replace_statements (document : Document) :
    document.replace document.statements = document := rfl

end Document

/-! Containment by indentation. A line lies in the nearest earlier line with a smaller indent; blank
lines and comments neither contain nor are contained. -/

namespace Outline

/-- Scans upward from the end of `above`, which lists lines bottom first: those that enclose a line with
`indent` there, nearest first. The index of a line is the number of lines above it. -/
def enclosing (indent : Nat) : List Statement → List Nat
  | [] => []
  | line :: above =>
    if !line.noop && line.indent < indent then above.length :: enclosing line.indent above
    else enclosing indent above

/-- The lines before `index`, bottom first. -/
def above (lines : List Statement) (index : Nat) : List Statement := (lines.take index).reverse

/-- The lines that contain the line at `index`, nearest first. -/
def ancestors (lines : List Statement) (index : Nat) : List Nat :=
  match lines[index]? with
  | none => []
  | some line => if line.noop then [] else enclosing line.indent (above lines index)

/-- The line that would contain a line with `indent` placed at `index`. -/
def container? (lines : List Statement) (index indent : Nat) : Option Nat :=
  (enclosing indent (above lines index)).head?

def parent? (lines : List Statement) (index : Nat) : Option Nat := (ancestors lines index).head?

/-- The lines nested under the line at `index`: scans down to the first line indented no deeper. -/
def descendants (lines : List Statement) (index : Nat) : List Nat :=
  match lines[index]? with
  | none => []
  | some line =>
    let below := (lines.zipIdx.drop (index + 1)).takeWhile fun (other, _) =>
      other.noop || line.indent < other.indent
    (below.filter fun (other, _) => !other.noop).map Prod.snd

theorem lt_of_mem_enclosing {indent i : Nat} {above : List Statement}
    (member : i ∈ enclosing indent above) : i < above.length := by
  induction above generalizing indent with
  | nil => simp [enclosing] at member
  | cons line above ih =>
    unfold enclosing at member
    split at member
    · rcases List.mem_cons.mp member with rfl | member
      · simp
      · exact Nat.lt_succ_of_lt (ih member)
    · exact Nat.lt_succ_of_lt (ih member)

/-- The scan goes on from the line it found, with that line's indent. -/
theorem enclosing_eq_cons {indent parent : Nat} {above : List Statement} {rest : List Nat}
    (h : enclosing indent above = parent :: rest) :
    ∃ line further, line :: further <:+ above ∧ further.length = parent ∧ line.noop = false ∧
      line.indent < indent ∧ rest = enclosing line.indent further := by
  induction above generalizing indent with
  | nil => simp [enclosing] at h
  | cons line above ih =>
    unfold enclosing at h
    split at h
    · rename_i encloses
      simp only [Bool.and_eq_true, Bool.not_eq_true', decide_eq_true_eq] at encloses
      obtain ⟨rfl, rfl⟩ := List.cons.inj h
      exact ⟨line, above, List.suffix_refl _, rfl, encloses.1, encloses.2, rfl⟩
    · obtain ⟨found, further, suffix, length, noop, less, rest⟩ := ih h
      exact ⟨found, further, suffix.trans (List.suffix_cons _ _), length, noop, less, rest⟩

/-- What stands above a line that stands above another. -/
theorem above_of_suffix {lines further : List Statement} {line : Statement} {index : Nat}
    (h : line :: further <:+ above lines index) :
    lines[further.length]? = some line ∧ above lines further.length = further := by
  obtain ⟨below, split⟩ := h
  have start : lines.take index = further.reverse ++ line :: below.reverse := by
    rw [above] at split
    have := congrArg List.reverse split
    simpa using this.symm
  have whole : lines = further.reverse ++ (line :: below.reverse ++ lines.drop index) := by
    rw [← List.append_assoc, ← start, List.take_append_drop]
  have length : further.reverse.length = further.length := List.length_reverse
  constructor
  · rw [whole, ← length, List.getElem?_append_right (Nat.le_refl _)]
    simp
  · rw [above, whole, ← length, List.take_left, List.reverse_reverse]

/-- The ancestors of a line are its parent and the parent's ancestors. -/
theorem ancestors_eq_cons {lines : List Statement} {index parent : Nat}
    (h : parent? lines index = some parent) :
    ancestors lines index = parent :: ancestors lines parent := by
  obtain ⟨rest, found⟩ := List.head?_eq_some_iff.mp h
  rw [found]
  unfold ancestors at found
  split at found
  · simp at found
  · split at found
    · simp at found
    · obtain ⟨line, further, suffix, rfl, noop, _, rfl⟩ := enclosing_eq_cons found
      obtain ⟨present, above⟩ := above_of_suffix suffix
      simp [ancestors, present, noop, above]

theorem parent?_lt {lines : List Statement} {index parent : Nat}
    (h : parent? lines index = some parent) : parent < index := by
  have member : parent ∈ ancestors lines index := by simp [ancestors_eq_cons h]
  unfold ancestors at member
  split at member
  · simp at member
  · split at member
    · simp at member
    · have := lt_of_mem_enclosing member
      simp only [above, List.length_reverse, List.length_take] at this
      omega

end Outline

namespace Document

def parent? (document : Document) (index : Nat) : Option Nat :=
  Outline.parent? document.statements index

def ancestors (document : Document) (index : Nat) : List Nat :=
  Outline.ancestors document.statements index

/-- Root statements have depth 0. -/
def depth (document : Document) (index : Nat) : Nat := (document.ancestors index).length

def descendants (document : Document) (index : Nat) : List Nat :=
  Outline.descendants document.statements index

/-! Regions: the lines a change concerns, named by the statements whose descendants change. Naming no
statement means the whole document. -/

/-- The position of a statement that must be in the document. -/
def positionOf (document : Document) (id : StatementId) : Except Fatal Nat :=
  match document.position? id with
  | some index => .ok index
  | none => .error (.absentStatement id document.id)

/-- The lines nested under any of `positions`, in document order. -/
def nestedUnder (document : Document) (positions : List Nat) : List Nat :=
  let nested := positions.map document.descendants
  (List.range document.length).filter fun index => nested.any (index ∈ ·)

def region (document : Document) (parents : List StatementId) : Except Fatal (List Nat) :=
  if parents.isEmpty then .ok (List.range document.length)
  else return document.nestedUnder (← parents.mapM document.positionOf)

end Document

/-! Spines: one reading of a declaration's place, as a choice of one declared name in each line that
contains it. A line that declares several names gives its descendants a spine for each. -/

structure Spine where
  document : DocumentId
  /-- The declarations of the containing lines, root first. -/
  above : List Span
  /-- The declaration whose place this is. -/
  tip : Span
deriving DecidableEq

namespace Spine

def vertebrae (spine : Spine) : List Span := spine.above ++ [spine.tip]

def path (spine : Spine) : TypePath where
  document := spine.document
  names := spine.vertebrae.map Span.subject
  names_ne := by simp [vertebrae]

end Spine

/-- Every choice of one element from each list; the first list varies slowest. -/
def choices : List (List α) → List (List α)
  | [] => [[]]
  | first :: rest => first.flatMap fun x => (choices rest).map (x :: ·)

namespace Document

def declarationsAt (document : Document) (index : Nat) : List Span :=
  match document.get? index with
  | none => []
  | some statement => statement.declarations

/-- The spines that end in `span`, placed at `index`. A containing line that declares nothing leaves
none. -/
def factor (document : Document) (index : Nat) (span : Span) : List Spine :=
  (choices ((document.ancestors index).reverse.map document.declarationsAt)).map
    fun above => ⟨document.id, above, span⟩

/-- A declaration of a statement together with one path it declares. -/
structure Placement where
  statement : Statement
  span : Span
  path : TypePath
deriving DecidableEq

/-- What the line at `index` declares; a blank line or comment declares nothing. -/
def placements (document : Document) (index : Nat) : List Placement :=
  match document.get? index with
  | none => []
  | some statement =>
    if statement.noop then []
    else statement.declarations.flatMap fun span =>
      (document.factor index span).map fun spine => ⟨statement, span, spine.path⟩

end Document

/-! Edits and their plans. A plan replays edits on a draft of the lines, checks each position against the
draft, and works out which statements have changing descendants. -/

inductive Edit where
  /-- Puts a line in front of `position`; at the length it appends. -/
  | insert (position : Nat) (line : String)
  | delete (position count : Nat)
  | update (position : Nat) (line : String)
deriving DecidableEq

/-- An edit addressed `index` in a draft of `length` lines. -/
structure OutOfRange where
  index : Nat
  length : Nat
deriving DecidableEq

/-- Positions are 64-bit words. -/
def Edit.lastPosition : Nat := 0xFFFFFFFFFFFFFFFF

/-- The statements whose descendants change. `whole` stands for the document root. -/
structure Touched where
  parents : OrderedSet StatementId
  whole : Bool
deriving DecidableEq

namespace Touched

def none : Touched := ⟨∅, false⟩

/-- Notes the line at `parent`, or the document root. -/
def note (touched : Touched) (lines : List Statement) (parent : Option Nat) : Touched :=
  match parent.bind fun index => lines[index]? with
  | some statement => { touched with parents := touched.parents.insert statement.id }
  | .none => { touched with whole := true }

/-- Notes where a line stands or would stand; a line outside the hierarchy touches nothing. -/
def noteLine (touched : Touched) (lines : List Statement) (position : Nat) (line : Statement) :
    Touched :=
  if line.noop then touched
  else touched.note lines (Outline.container? lines position line.indent)

/-- Notes where the lines at `position` and the `count - 1` next ones stand. -/
def noteRun (touched : Touched) (lines : List Statement) (position : Nat) : Nat → Touched
  | 0 => touched
  | count + 1 =>
    let touched := match lines[position]? with
      | some line => touched.noteLine lines position line
      | .none => touched
    noteRun touched lines (position + 1) count

end Touched

/-- The lines as the edits so far leave them. -/
structure Draft where
  lines : List Statement
  touched : Touched
  /-- Reads the next lines; only its count of lines read changes. -/
  reader : Document
deriving DecidableEq

namespace Draft

def ofDocument (document : Document) : Draft := ⟨document.statements, .none, document⟩

/-- Applies one edit, or says why the draft has no such position. -/
def apply (draft : Draft) : Edit → Except OutOfRange Draft
  | .insert position line =>
    if draft.lines.length < position then .error ⟨position, draft.lines.length⟩
    else
      let (statement, reader) := draft.reader.read line
      .ok ⟨draft.lines.insertIdx position statement,
        draft.touched.noteLine draft.lines position statement, reader⟩
  | .delete position count =>
    let stop := max position (min (position + count) Edit.lastPosition)
    if draft.lines.length < stop then .error ⟨stop - 1, draft.lines.length⟩
    else .ok { draft with
      lines := draft.lines.take position ++ draft.lines.drop stop
      touched := draft.touched.noteRun draft.lines position (stop - position) }
  | .update position line =>
    match draft.lines[position]? with
    | none => .error ⟨position, draft.lines.length⟩
    | some old =>
      let (statement, reader) := draft.reader.read line
      let touched := draft.touched.noteLine draft.lines position old
      .ok ⟨draft.lines.set position statement,
        touched.noteLine draft.lines position statement, reader⟩

/-- Applies edits in order up to the first that fails. -/
def applyAll (draft : Draft) : List Edit → Draft × Option OutOfRange
  | [] => (draft, none)
  | edit :: rest =>
    match draft.apply edit with
    | .ok next => applyAll next rest
    | .error reason => (draft, some reason)

/-- The statements to name in the announcements of this change. A statement that is not there both
before and after the change cannot be named, and then the whole document is. -/
def parents (draft : Draft) (document : Document) : List StatementId :=
  let gone := draft.touched.parents.toList.any fun id =>
    (document.position? id).isNone || !draft.lines.any (·.id = id)
  if draft.touched.whole || gone then [] else draft.touched.parents.toList

end Draft

/-- The lines after every edit, and the statements whose descendants change; none means the whole
document. -/
structure EditPlan where
  statements : List Statement
  parents : List StatementId
deriving DecidableEq

/-- Plans edits. Lines read before a failing edit stay counted. -/
def Document.plan (document : Document) (edits : List Edit) :
    Except OutOfRange EditPlan × Document :=
  let (draft, failure) := (Draft.ofDocument document).applyAll edits
  let document := { document with nextSerial := draft.reader.nextSerial }
  match failure with
  | some reason => (.error reason, document)
  | none => (.ok ⟨draft.lines, draft.parents document⟩, document)

/-! The documents that belong together, in the order in which they were added. -/

abbrev Documents := OrderedMap DocumentId Document

end OutlineTypes
