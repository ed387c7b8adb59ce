import OutlineTypes.Proofs.Document.Likeness
import Mathlib.Data.List.TakeWhile

/-! The text of a document, read again. Its lines come back but for a last empty one and the carriage returns
that end a line in front of a newline, and neither makes a difference to what a document says. -/
namespace OutlineTypes

namespace Text

section Pieces

variable {p : α → Bool} {x : α} {xs : List α}

/-- Runs that were joined come back. -/
theorem pieces_intercalate [BEq α] [LawfulBEq α] {runs : List (List α)} (some : runs ≠ [])
    (whole : ∀ run ∈ runs, x ∉ run) : pieces (· == x) ([x].intercalate runs) = runs := by
  have apart {run : List α} (member : run ∈ runs) : ∀ y ∈ run, ¬(y == x) := by
    intro y listed same
    exact whole run member (eq_of_beq same ▸ listed)
  induction runs with
  | nil => contradiction
  | cons run runs ih =>
    cases runs with
    | nil => simpa [List.intercalate] using pieces_eq_singleton (apart List.mem_cons_self)
    | cons next runs =>
      rw [List.intercalate_cons_cons, List.append_assoc, List.singleton_append,
        pieces_append_cons (apart List.mem_cons_self) (beq_self_eq_true x)]
      congr 1
      exact ih (by simp) (fun other member => whole other (List.mem_cons_of_mem _ member))
        fun member => apart (List.mem_cons_of_mem _ member)

/-- What follows without a separator goes to the last piece. -/
theorem exists_pieces_append {tail : List α} (xs : List α) (whole : ∀ x ∈ tail, ¬p x) :
    ∃ front last, pieces p xs = front ++ [last] ∧ pieces p (xs ++ tail) = front ++ [last ++ tail] := by
  induction xs with
  | nil => exact ⟨[], [], rfl, by rw [List.nil_append, pieces_eq_singleton whole]; rfl⟩
  | cons x xs ih =>
    obtain ⟨front, last, here, there⟩ := ih
    rw [List.cons_append, pieces, pieces]
    split
    · exact ⟨[] :: front, last, by rw [here]; rfl, by rw [there]; rfl⟩
    · rw [here, there]
      cases front with
      | nil => exact ⟨[], x :: last, rfl, rfl⟩
      | cons piece front => exact ⟨(x :: piece) :: front, last, rfl, rfl⟩

end Pieces

/-- The line is the same, or it lost its carriage return. -/
def Shed (run line : List Char) : Prop := line = run ∨ run = line ++ ['\r']

theorem shed_withoutReturn (run : List Char) : Shed run (withoutReturn run) := by
  unfold withoutReturn
  split
  · rename_i ends
    exact .inr (List.dropLast_append_getLast? _ ends).symm
  · exact .inl rfl

theorem exists_shed_lineRuns (runs : List (List Char)) : ∃ front rest, runs = front ++ rest ∧
    (∀ run ∈ rest, run = []) ∧ List.Forall₂ Shed front (lineRuns runs) := by
  induction runs with
  | nil => exact ⟨[], [], rfl, by simp, .nil⟩
  | cons run runs ih =>
    cases runs with
    | nil =>
      rw [lineRuns]
      split
      · rename_i blank
        exact ⟨[], [run], rfl, by simpa using blank, .nil⟩
      · exact ⟨[run], [], rfl, by simp, .cons (.inl rfl) .nil⟩
    | cons next runs =>
      obtain ⟨front, rest, split, blank, lines⟩ := ih
      exact ⟨run :: front, rest, congrArg (run :: ·) split, blank, .cons (shed_withoutReturn run) lines⟩

end Text

/-- The tokens differ in white space at the end. -/
def Token.Trails (tokens others : List Token) : Prop :=
  ∃ front tail tail', tokens = front ++ tail ∧ others = front ++ tail' ∧
    (∀ token ∈ tail, token.isBlank) ∧ ∀ token ∈ tail', token.isBlank

namespace Token

section Trails

variable {tokens others : List Token}

/-- One more character in front of lexemes. -/
def attach (c : Char) : List (TokenKind × List Char) → List (TokenKind × List Char)
  | [] => [(.ofChar c, [c])]
  | (kind, lexeme) :: rest =>
    if kind = .ofChar c ∧ kind.extends? then (kind, c :: lexeme) :: rest
    else (.ofChar c, [c]) :: (kind, lexeme) :: rest

theorem lexemes_cons (c : Char) (text : List Char) : lexemes (c :: text) = attach c (lexemes text) := by
  rw [lexemes]
  cases lexemes text <;> rfl

theorem attach_append (c : Char) (first : TokenKind × List Char) (front tail : List (TokenKind × List Char)) :
    attach c (first :: front ++ tail) = attach c (first :: front) ++ tail := by
  simp only [List.cons_append, attach]
  split <;> rfl

theorem attach_blank (c : Char) {tail : List (TokenKind × List Char)} (blank : ∀ lexeme ∈ tail, lexeme.1 = .blank) :
    if TokenKind.ofChar c = .blank then ∀ lexeme ∈ attach c tail, lexeme.1 = .blank
    else attach c tail = (.ofChar c, [c]) :: tail := by
  cases tail with
  | nil => split <;> simp_all [attach]
  | cons first rest =>
    obtain ⟨kind, lexeme⟩ := first
    obtain rfl : kind = .blank := blank _ List.mem_cons_self
    split
    · rename_i same
      simpa [attach, same, TokenKind.extends?] using blank
    · rename_i different
      simp [attach, Ne.symm different]

/-- A carriage return at the end is white space, or adds to some. -/
theorem exists_lexemes_return (text : List Char) : ∃ front tail tail', lexemes text = front ++ tail ∧
    lexemes (text ++ ['\r']) = front ++ tail' ∧ (∀ lexeme ∈ tail, lexeme.1 = .blank) ∧
      ∀ lexeme ∈ tail', lexeme.1 = .blank := by
  induction text with
  | nil => exact ⟨[], [], [(.blank, ['\r'])], rfl, rfl, by simp, by simp⟩
  | cons c text ih =>
    obtain ⟨front, tail, tail', here, there, blank, blank'⟩ := ih
    rw [List.cons_append, lexemes_cons, lexemes_cons, here, there]
    cases front with
    | cons first front => exact ⟨_, tail, tail', attach_append .., attach_append .., blank, blank'⟩
    | nil =>
      have one := attach_blank c blank
      have other := attach_blank c blank'
      split at one
      · rename_i same
        rw [if_pos same] at other
        exact ⟨[], _, _, rfl, rfl, one, other⟩
      · rename_i different
        rw [if_neg different] at other
        exact ⟨[_], tail, tail', one, other, blank, blank'⟩

theorem place_append (start : Nat) (front tail : List (TokenKind × List Char)) :
    place start (front ++ tail) =
      place start front ++ place (start + Text.byteLength (front.flatMap Prod.snd)) tail := by
  induction front generalizing start with
  | nil => rfl
  | cons first front ih =>
    simp only [List.cons_append, place, ih, List.flatMap_cons, Text.byteLength_append, Nat.add_assoc]

theorem isBlank_of_mem_place {start : Nat} {lexemes : List (TokenKind × List Char)}
    (blank : ∀ lexeme ∈ lexemes, lexeme.1 = .blank) : ∀ token ∈ place start lexemes, token.isBlank := by
  induction lexemes generalizing start with
  | nil => simp [place]
  | cons first rest ih =>
    intro token member
    rcases List.mem_cons.mp member with rfl | later
    · simpa [isBlank] using blank first List.mem_cons_self
    · exact ih (fun lexeme among => blank lexeme (List.mem_cons_of_mem _ among)) token later

theorem trails_scan_return (start : Nat) (text : List Char) : Trails (scan start text) (scan start (text ++ ['\r'])) := by
  obtain ⟨front, tail, tail', here, there, blank, blank'⟩ := exists_lexemes_return text
  exact ⟨_, _, _, by rw [scan, here, place_append], by rw [scan, there, place_append], isBlank_of_mem_place blank,
    isBlank_of_mem_place blank'⟩

theorem not_joint {token : Token} (blank : token.isBlank) : decide (token.kind ≠ .joint) = true := by
  simp_all [isBlank]

theorem Trails.beforeJoint (trails : Trails tokens others) :
    Trails (Statement.beforeJoint tokens) (Statement.beforeJoint others) := by
  obtain ⟨front, tail, tail', rfl, rfl, blank, blank'⟩ := trails
  have keep {tail : List Token} (blank : ∀ token ∈ tail, token.isBlank) :
      tail.takeWhile (·.kind ≠ .joint) = tail :=
    List.takeWhile_eq_self_iff.mpr fun token member => not_joint (blank token member)
  simp only [Statement.beforeJoint, List.takeWhile_append, keep blank, keep blank']
  split
  · exact ⟨front, tail, tail', rfl, rfl, blank, blank'⟩
  · exact ⟨_, [], [], (List.append_nil _).symm, (List.append_nil _).symm, by simp, by simp⟩

theorem Trails.afterJoint (trails : Trails tokens others) :
    Trails (Statement.afterJoint tokens) (Statement.afterJoint others) := by
  obtain ⟨front, tail, tail', rfl, rfl, blank, blank'⟩ := trails
  have gone {tail : List Token} (blank : ∀ token ∈ tail, token.isBlank) :
      tail.dropWhile (·.kind ≠ .joint) = [] :=
    (Text.dropWhile_eq_nil _ _).mpr fun token member => not_joint (blank token member)
  simp only [Statement.afterJoint, List.dropWhile_append, gone blank, gone blank']
  split
  · exact ⟨[], [], [], rfl, rfl, by simp, by simp⟩
  · rename_i some
    have full : 1 ≤ (front.dropWhile fun token => decide (token.kind ≠ .joint)).length := by
      rw [Nat.succ_le_iff, List.length_pos_iff]
      simpa using some
    exact ⟨_, tail, tail', List.drop_append_of_le_length full, List.drop_append_of_le_length full, blank, blank'⟩

theorem Trails.between_eq (trails : Trails tokens others) : Term.between others = Term.between tokens := by
  obtain ⟨front, tail, tail', rfl, rfl, blank, blank'⟩ := trails
  have same {tail : List Token} (blank : ∀ token ∈ tail, token.isBlank) :
      Term.between (front ++ tail) = Term.between front := by
    have whole : ∀ token ∈ tail, ¬token.separates := by
      intro token member
      have kind : token.kind = .blank := of_decide_eq_true (blank token member)
      simp [separates, kind, TokenKind.separates]
    obtain ⟨pieces, last, here, there⟩ := Text.exists_pieces_append front whole
    simp only [Term.between, here, there, List.filterMap_append, List.filterMap_cons, List.filterMap_nil,
      Term.ofTokens?, Text.trim_append last blank]
  rw [same blank, same blank']

end Trails

end Token

namespace Statement

theorem isNoop_return (content : List Char) : isNoop (content ++ ['\r']) = isNoop content := by
  have blank : Text.isBlank '\r' = true := by decide
  have mark : commentMark.isPrefixOf (content ++ ['\r']) = commentMark.isPrefixOf content := by
    rcases content with _ | ⟨first, _ | ⟨second, rest⟩⟩ <;> simp [commentMark, List.isPrefixOf]
  simp [isNoop, blank, mark]

/-- A line that loses its carriage return is read as before. -/
theorem like_read_of_shed {text line : String} (shed : Text.Shed text.toList line.toList)
    (id again : StatementId) (tabSize : Nat) : (read id text tabSize).Like (read again line tabSize) := by
  rcases shed with same | ends
  · cases String.toList_inj.mp same
    exact like_read _ _ _ _
  have apart : ('\r' : Char) ∉ ([' ', '\t'] : List Char) := by decide
  have indent : text.toList.takeWhile Indent.isIndent = line.toList.takeWhile Indent.isIndent := by
    rw [ends, List.takeWhile_append]
    split
    · rename_i whole
      rw [(List.takeWhile_prefix _).eq_of_length whole]
      exact List.append_nil _
    · rfl
  have content : text.toList.dropWhile Indent.isIndent = line.toList.dropWhile Indent.isIndent ++ ['\r'] := by
    rw [ends, List.dropWhile_append]
    split
    · rename_i none
      rw [List.isEmpty_iff.mp none]
      rfl
    · rfl
  have trails := Token.trails_scan_return (Text.byteLength (line.toList.takeWhile Indent.isIndent))
    (line.toList.dropWhile Indent.isIndent)
  constructor
  · simp only [read_eq_split, split, blank, indent]
  · simp only [read_eq_split, split, blank, indent]
  · simp only [read_eq_split, split, blank, content, isNoop_return]
  · intro side
    cases side <;> simp only [Statement.side, read_eq_split, split, subjects_spansOn, indent, content, isNoop_return] <;>
      split
    · rfl
    · rw [trails.beforeJoint.between_eq]
    · rfl
    · rw [trails.afterJoint.between_eq]

end Statement

namespace Document

/-- Without newlines inside its lines, a document is like what its text spells. -/
theorem likewise_ofText {document : Document} (sound : document.Sound)
    (unbroken : ∀ line ∈ document.statements, '\n' ∉ line.text.toList) (id : DocumentId) :
    Likewise document (ofText id document.tabSize document.text) := by
  let runs := document.statements.map fun line => line.text.toList
  have lines : Text.lines document.text = (Text.lineRuns runs).map String.ofList := by
    by_cases none : document.statements = []
    · simp [runs, text, none, Text.lineRuns]
    · have joined : document.text.toList = ['\n'].intercalate runs := by
        simp [runs, text, String.toList_intercalate, Function.comp_def]
      rw [Text.lines, joined, Text.pieces_intercalate (by simpa [runs] using none) (by simpa [runs] using unbroken)]
  obtain ⟨front, rest, split, blank, shed⟩ := Text.exists_shed_lineRuns runs
  obtain ⟨kept, silent, statements, rfl, rfl⟩ := List.map_eq_append_iff.mp split
  refine ⟨kept, silent, statements, fun line member => ?_, ?_⟩
  · have among : line ∈ document.statements := statements ▸ List.mem_append_right _ member
    have nothing : line.text.toList = [] := blank _ (List.mem_map_of_mem member)
    rw [sound.read line among]
    simp [Statement.read_eq_split, Statement.split, Statement.blank, nothing, Statement.isNoop]
  · have texts : List.Forall₂ (fun (line : Statement) again => Text.Shed line.text.toList again.toList)
        kept (Text.lines document.text) := by
      rw [lines, List.forall₂_map_right_iff]
      simpa only [List.forall₂_map_left_iff, String.toList_ofList] using shed
    rw [← List.zipIdx_map_fst 0 (Text.lines document.text), List.forall₂_map_right_iff] at texts
    rw [ofText_eq, List.forall₂_map_right_iff]
    have reads : ∀ line ∈ kept, line = Statement.read line.id line.text document.tabSize := fun line member =>
      sound.read line (statements ▸ List.mem_append_left _ member)
    refine ((List.forall₂_and_left _ _).mpr ⟨reads, texts⟩).imp fun line entry h => ?_
    rw [h.1]
    exact Statement.like_read_of_shed h.2 _ _ _

end Document

end OutlineTypes
