import OutlineTypes.Proofs.Document.Splicing
import OutlineTypes.Proofs.Workspace.Rest

/-! Readings. A workspace reads lines when a document is added and when edits are planned, and those of a plan that
fails are read, too. Over a whole history no two lines that were read have one identity. -/
namespace OutlineTypes.Workspace

variable {workspace next : Workspace} {id : DocumentId} {document : Document} {log : List Statement}

/-- The statements that a request reads. -/
def reads (workspace : Workspace) : Request → List Statement
  | .add text => (workspace.nextOfText text).statements
  | .edit id edits => (workspace.document? id).elim [] (·.reading edits)
  | _ => []

/-- The statements of all documents. -/
def standing (workspace : Workspace) : List Statement := workspace.documents.values.flatMap Document.statements

/-- The lines among these that were read for one document, in order. -/
def linesOf (lines : List Statement) (id : DocumentId) : List Statement := lines.filter (·.id.document = id)

/-- What holds of the lines read so far. Those of a document are numbered in the order in which they were read, and
the document knows how many they are. -/
structure Logged (log : List Statement) (workspace : Workspace) : Prop where
  serials : ∀ id, (linesOf log id).map (·.id.serial) = List.range (linesOf log id).length
  counted : ∀ id document, workspace.document? id = some document → document.nextSerial = (linesOf log id).length
  standing : ∀ id document, workspace.document? id = some document → ∀ line ∈ document.statements, line ∈ log
  numbered : ∀ line ∈ log, line.id.document.index < workspace.nextDocument

namespace Logged

theorem congr (logged : Logged log workspace) (documents : next.documents = workspace.documents)
    (count : next.nextDocument = workspace.nextDocument) : Logged log next where
  serials := logged.serials
  counted id document found := logged.counted id document (by rwa [document?, documents] at found)
  standing id document found := logged.standing id document (by rwa [document?, documents] at found)
  numbered line member := count ▸ logged.numbered line member

theorem remove (logged : Logged log workspace) (documents : next.documents = workspace.documents.erase id)
    (count : next.nextDocument = workspace.nextDocument) : Logged log next := by
  have before {other : DocumentId} {document : Document} (found : next.document? other = some document) :
      workspace.document? other = some document := by
    rw [document?, documents, OrderedMap.find?_erase] at found
    exact (Option.ite_none_left_eq_some.mp found).2
  exact ⟨logged.serials, fun other document found => logged.counted other document (before found),
    fun other document found => logged.standing other document (before found),
    fun line member => count ▸ logged.numbered line member⟩

/-- A document may have any lines that were read, as long as those read for it are numbered and counted. -/
theorem insert (logged : Logged log workspace) {fresh : List Statement} {changed : Document}
    (documents : next.documents = workspace.documents.insert id changed)
    (count : workspace.nextDocument ≤ next.nextDocument) (numbered : id.index < next.nextDocument)
    (lines : ∀ line ∈ changed.statements, line ∈ log ++ fresh)
    (ids : fresh.map Statement.id =
      (List.range' (linesOf log id).length fresh.length).map (StatementId.mk id))
    (counted : changed.nextSerial = (linesOf log id).length + fresh.length) : Logged (log ++ fresh) next := by
  have owned : ∀ line ∈ fresh, line.id.document = id := by
    intro line member
    have among := List.mem_map_of_mem (f := Statement.id) member
    rw [ids] at among
    obtain ⟨serial, _, same⟩ := List.mem_map.mp among
    rw [← same]
  have here : linesOf (log ++ fresh) id = linesOf log id ++ fresh := by
    rw [linesOf, List.filter_append, List.filter_eq_self.mpr fun line member => decide_eq_true (owned line member)]
    rfl
  have elsewhere {other : DocumentId} (differs : other ≠ id) : linesOf (log ++ fresh) other = linesOf log other := by
    have none : linesOf fresh other = [] :=
      List.filter_eq_nil_iff.mpr fun line member => by simpa [owned line member] using differs.symm
    rw [linesOf, List.filter_append]
    exact (congrArg (linesOf log other ++ ·) none).trans (List.append_nil _)
  refine ⟨fun other => ?_, fun other document found => ?_, fun other document found line member => ?_,
    fun line member => ?_⟩
  · by_cases same : other = id
    · have serials := congrArg (List.map StatementId.serial) ids
      simp only [List.map_map, Function.comp_def, List.map_id'] at serials
      rw [same, here, List.map_append, logged.serials, serials, List.length_append, List.range_eq_range',
        List.range_eq_range', ← List.range'_append_1, Nat.zero_add]
    · rw [elsewhere same]
      exact logged.serials other
  · rw [document?, documents, OrderedMap.find?_insert] at found
    split at found
    · rename_i same
      cases found
      rw [same, here, List.length_append, counted]
    · rename_i differs
      rw [elsewhere differs]
      exact logged.counted other document found
  · rw [document?, documents, OrderedMap.find?_insert] at found
    split at found
    · cases found
      exact lines line member
    · exact List.mem_append_left _ (logged.standing other document found line member)
  · rcases List.mem_append.mp member with before | new
    · exact Nat.lt_of_lt_of_le (logged.numbered line before) count
    · rwa [owned line new]

/-- The place of a line among those read for its document is its number. -/
theorem serial_of_getElem? (logged : Logged log workspace) {place : Nat} {line : Statement}
    (found : (linesOf log id)[place]? = some line) : line.id.serial = place := by
  have serials := congrArg (·[place]?) (logged.serials id)
  obtain ⟨inside, _⟩ := List.getElem?_eq_some_iff.mp found
  simp only [List.getElem?_map, found, Option.map_some, List.getElem?_range inside, Option.some.injEq] at serials
  exact serials

/-- Two lines with one identity are one. -/
theorem distinct (logged : Logged log workspace) : (log.map Statement.id).Nodup := by
  have within (id : DocumentId) : (linesOf log id).Pairwise fun line later => line.id.serial ≠ later.id.serial :=
    List.pairwise_map.mp (logged.serials id ▸ List.nodup_range)
  rw [List.Nodup, List.pairwise_map, List.pairwise_iff_getElem]
  intro first second low high before same
  have apart := List.pairwise_iff_getElem.mp (List.pairwise_filter.mp (within log[first].id.document))
    first second low high before
  exact apart (decide_eq_true rfl) (decide_eq_true (same ▸ rfl)) (congrArg StatementId.serial same)

theorem words {first second : Nat} {line later : Statement} (logged : Logged log workspace)
    (one : (linesOf log id)[first]? = some line) (two : (linesOf log id)[second]? = some later) :
    line.id.word = later.id.word ↔ first % UInt32.size = second % UInt32.size := by
  rw [StatementId.word, StatementId.word, word_eq_iff, logged.serial_of_getElem? one, logged.serial_of_getElem? two]

end Logged

namespace Synchronised

end Synchronised

end OutlineTypes.Workspace
