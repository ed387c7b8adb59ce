import OutlineTypes.Proofs.Document.Text

/-! Paths as texts. A text gives back the names that were joined with slashes into it, as far as a name is what is
left of it without the white space around it. So paths of plain names and the texts that display them are the same
thing twice. -/
namespace OutlineTypes

namespace Text

variable {p : α → Bool} {xs : List α}

theorem dropWhile_eq_self_iff : xs.dropWhile p = xs ↔ ∀ x ∈ xs.head?, ¬p x := by
  cases xs with
  | nil => simp
  | cons x xs =>
    by_cases gone : p x
    · have shorter : (xs.dropWhile p).length < (x :: xs).length :=
        Nat.lt_succ_of_le (List.dropWhile_sublist p).length_le
      have apart : xs.dropWhile p ≠ x :: xs := fun same => absurd (congrArg List.length same) (Nat.ne_of_lt shorter)
      simp [gone, apart]
    · simp [gone]

/-- Nothing is trimmed off a list with nothing to trim at either end. -/
theorem trim_eq_self_iff : trim p xs = xs ↔ (∀ x ∈ xs.head?, ¬p x) ∧ ∀ x ∈ xs.getLast?, ¬p x := by
  rw [← dropWhile_eq_self_iff, ← List.head?_reverse, ← dropWhile_eq_self_iff]
  constructor
  · intro same
    have start : xs.dropWhile p = xs := by
      have shorter : xs.length ≤ (xs.dropWhile p).reverse.length := by
        calc xs.length = (trimEnd p (xs.dropWhile p)).length := (congrArg List.length same).symm
          _ = ((xs.dropWhile p).reverse.dropWhile p).length := List.length_reverse
          _ ≤ (xs.dropWhile p).reverse.length := (List.dropWhile_sublist p).length_le
      exact (List.dropWhile_sublist p).eq_of_length_le (by rwa [List.length_reverse] at shorter)
    rw [trim, trimStart, start] at same
    have stop := congrArg List.reverse same
    rw [trimEnd, List.reverse_reverse] at stop
    exact ⟨start, stop⟩
  · rintro ⟨start, stop⟩
    rw [trim, trimStart, start, trimEnd, stop, List.reverse_reverse]

theorem trim_sublist : (trim p xs).Sublist xs := by
  have stop : (trimEnd p (trimStart p xs)).reverse.Sublist (trimStart p xs).reverse := by
    rw [trimEnd, List.reverse_reverse]
    exact List.dropWhile_sublist p
  exact (List.reverse_sublist.mp stop).trans (List.dropWhile_sublist p)

theorem not_of_mem_head?_dropWhile : ∀ x ∈ (xs.dropWhile p).head?, ¬p x := by
  intro x first
  have refused := List.head?_dropWhile_not p xs
  rw [Option.mem_def.mp first] at refused
  simp [refused]

/-- What is left by trimming is not trimmed any further. -/
theorem trim_trim : trim p (trim p xs) = trim p xs := by
  apply trim_eq_self_iff.mpr
  constructor
  · -- Trimming the end takes nothing off the start, unless nothing is left.
    intro x first
    obtain ⟨taken, kept⟩ : (trim p xs) <+: xs.dropWhile p :=
      List.reverse_suffix.mp (by simpa [trim, trimEnd, trimStart] using List.dropWhile_suffix p)
    have whole : x ∈ (xs.dropWhile p).head? := by
      rw [← kept, List.head?_append]
      simp [Option.mem_def.mp first]
    exact not_of_mem_head?_dropWhile x whole
  · intro x last
    rw [trim, trimEnd, List.getLast?_reverse] at last
    exact not_of_mem_head?_dropWhile x last

/-- The pieces are those that a list is split into. -/
theorem pieces_eq_splitOn [BEq α] (x : α) : pieces (· == x) xs = xs.splitOn x := by
  rw [List.splitOn_eq_splitOnP]
  induction xs with
  | nil => rfl
  | cons y xs ih =>
    rw [pieces, List.splitOnP_cons_eq_if_modifyHead, ← ih]
    split
    · rfl
    · cases run : pieces (· == x) xs with
      | nil => exact absurd run (pieces_ne_nil _ xs)
      | cons piece rest => rfl

end Text

namespace TypePath

/-- A name without the white space around it. -/
def trimmed (name : Name) : Name := String.ofList (Text.trim Text.isBlank name.toList)

/-- A name with white space at one of its ends. -/
def Padded (name : Name) : Prop :=
  (∃ c ∈ name.toList.head?, Text.isBlank c) ∨ ∃ c ∈ name.toList.getLast?, Text.isBlank c

theorem trimmed_eq_self_iff {name : Name} : trimmed name = name ↔ ¬Padded name := by
  have same : trimmed name = name ↔ Text.trim Text.isBlank name.toList = name.toList := by
    rw [trimmed, ← String.toList_inj, String.toList_ofList]
  rw [same, Text.trim_eq_self_iff, Padded]
  simp only [not_or, not_exists, not_and]

variable {path : TypePath} {document : DocumentId}

/-- Joined names come apart again, each trimmed. -/
theorem segments_text (whole : ∀ name ∈ path.names, '/' ∉ name.toList) :
    segments path.text = path.names.map trimmed := by
  have some : path.names.map String.toList ≠ [] := by simpa using path.names_ne
  have joined : path.text.toList = ['/'].intercalate (path.names.map String.toList) := by
    rw [text, String.toList_intercalate]
    rfl
  rw [segments, joined, Text.pieces_intercalate some (List.forall_mem_map.mpr whole), List.map_map]
  rfl

theorem parse?_eq_some_iff {text : String} : parse? document text = some path ↔
    path.document = document ∧ path.names = segments text ∧ "" ∉ path.names := by
  unfold parse? ofNames?
  constructor
  · intro parsed
    split at parsed
    · contradiction
    · split at parsed
      · contradiction
      · cases parsed
        exact ⟨rfl, rfl, ‹_›⟩
  · rintro ⟨rfl, names, filled⟩
    rw [← names, if_neg filled, dif_neg path.names_ne]

/-- A path is read back exactly if none of its names has white space at an end. -/
theorem parse?_text_iff (whole : ∀ name ∈ path.names, '/' ∉ name.toList) (filled : "" ∉ path.names) :
    parse? path.document path.text = some path ↔ ∀ name ∈ path.names, ¬Padded name := by
  have same : path.names = path.names.map trimmed ↔ ∀ name ∈ path.names, trimmed name = name := by
    rw [← List.map_inj_left, List.map_id', eq_comm]
  rw [parse?_eq_some_iff, segments_text whole, same]
  simp only [trimmed_eq_self_iff, true_and, filled, not_false_eq_true, and_true]

/-- A name that can be written in a path and comes back as it is. -/
structure PlainName (name : Name) : Prop where
  filled : name ≠ ""
  whole : '/' ∉ name.toList
  bare : ¬Padded name

/-- A path of such names. -/
def Plain (path : TypePath) : Prop := ∀ name ∈ path.names, PlainName name

/-- A segment that something is left of is a plain name. -/
theorem plainName_of_mem_segments {text : String} {name : Name} (member : name ∈ segments text)
    (filled : name ≠ "") : PlainName name := by
  obtain ⟨piece, listed, rfl⟩ := List.mem_map.mp member
  refine ⟨filled, fun slash => ?_, ?_⟩
  · rw [String.toList_ofList] at slash
    exact Text.not_separator_of_mem_pieces _ _ piece listed _ (Text.trim_sublist.subset slash) (beq_self_eq_true _)
  · rw [← trimmed_eq_self_iff, trimmed, String.toList_ofList, Text.trim_trim]

theorem plain_of_parse? {text : String} (parsed : parse? document text = some path) :
    path.document = document ∧ path.Plain := by
  obtain ⟨owner, names, filled⟩ := parse?_eq_some_iff.mp parsed
  refine ⟨owner, fun name member => plainName_of_mem_segments (names ▸ member) ?_⟩
  rintro rfl
  exact filled member

theorem Plain.parse?_text (plain : path.Plain) : parse? path.document path.text = some path := by
  apply (parse?_text_iff (fun name member => (plain name member).whole) ?_).mpr
  · exact fun name member => (plain name member).bare
  · exact fun member => (plain "" member).filled rfl

theorem parse?_eq_none_iff {text : String} : parse? document text = none ↔ "" ∈ segments text := by
  have some_ : segments text ≠ [] := by simp [segments, Text.pieces_ne_nil]
  unfold parse? ofNames?
  by_cases empty : "" ∈ segments text
  · simp [empty]
  · simp [empty, some_]

theorem empty_mem_segments_iff {text : String} :
    "" ∈ segments text ↔ ∃ segment ∈ text.toList.splitOn '/', ∀ c ∈ segment, Text.isBlank c := by
  have nothing (piece : List Char) :
      String.ofList (Text.trim Text.isBlank piece) = "" ↔ ∀ c ∈ piece, Text.isBlank c := by
    rw [← Text.trim_eq_nil_iff, ← String.toList_inj, String.toList_ofList, String.toList_empty]
  simp only [segments, List.mem_map, nothing, Text.pieces_eq_splitOn]

/-- Parsing gives the paths of plain names and no others, and the text of such a path gives it back. The texts of
these paths are those that are displayed as they were written, and a text is no path exactly if one of its segments is
all white space. -/
theorem parse?_inverts_text (document : DocumentId) :
    (∀ path, (∃ text, parse? document text = some path) ↔ path.document = document ∧ path.Plain) ∧
      (∀ path : TypePath, parse? document path.text = some path ↔ path.document = document ∧ path.Plain) ∧
      (∀ text, (parse? document text).map TypePath.text = some text ↔
        ∃ path : TypePath, path.document = document ∧ path.Plain ∧ path.text = text) ∧
      ∀ text, parse? document text = none ↔
        ∃ segment ∈ text.toList.splitOn '/', ∀ c ∈ segment, Text.isBlank c := by
  have back {path : TypePath} : path.document = document ∧ path.Plain → parse? document path.text = some path := by
    rintro ⟨rfl, plain⟩
    exact plain.parse?_text
  refine ⟨fun path => ⟨?_, fun plain => ⟨path.text, back plain⟩⟩, fun path => ⟨plain_of_parse?, back⟩, ?_, ?_⟩
  · rintro ⟨text, parsed⟩
    exact plain_of_parse? parsed
  · intro text
    rw [Option.map_eq_some_iff]
    constructor
    · rintro ⟨path, parsed, shown⟩
      obtain ⟨owner, plain⟩ := plain_of_parse? parsed
      exact ⟨path, owner, plain, shown⟩
    · rintro ⟨path, owner, plain, rfl⟩
      exact ⟨path, back ⟨owner, plain⟩, rfl⟩
  · exact fun text => parse?_eq_none_iff.trans empty_mem_segments_iff

example : parse? ⟨0⟩ "Dog / Sound" = some ⟨⟨0⟩, ["Dog", "Sound"], by decide⟩ := by decide +kernel

end TypePath
end OutlineTypes
