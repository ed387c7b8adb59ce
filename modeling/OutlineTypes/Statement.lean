import OutlineTypes.Identity
import OutlineTypes.Text

/-! Statements: one line of an outline, the names it declares and the names it annotates them with. -/
namespace OutlineTypes

structure Span where
  id : SpanId
  subject : Name
  /-- The bytes of the line that spell the subject. -/
  range : Text.ByteRange
deriving DecidableEq

structure Statement where
  id : StatementId
  text : String
  /-- The width of the indent in columns. -/
  indent : Nat
  /-- The indent holds both tabs and spaces. -/
  mixed : Bool
  /-- A blank line or a comment, which takes no part in the hierarchy. -/
  noop : Bool
  declarations : List Span
  annotations : List Span
deriving DecidableEq

namespace Statement

def side (statement : Statement) : Side → List Span
  | .declared => statement.declarations
  | .annotated => statement.annotations

/-- The declarations, then the annotations. -/
def spans (statement : Statement) : List Span := statement.declarations ++ statement.annotations

/-- The span with this identity, if it is one of this statement's. -/
def span? (statement : Statement) (id : SpanId) : Option Span :=
  if id.statement = statement.id then (statement.side id.side)[id.position]? else none

/-- The bytes of the line without the white space around it. A blank line has an empty range at its
end. -/
def contentRange (statement : Statement) : Text.ByteRange :=
  let text := statement.text.toList
  let before := text.takeWhile Text.isBlank
  .covering (Text.byteLength before) (Text.trim Text.isBlank text)

end Statement

/-! Tokens of a line. White space and words are maximal runs of their characters; every separator and
every stray newline is a token of its own. Nothing of the text is lost. -/

inductive TokenKind where
  | blank
  | comma
  | joint
  | word
  /-- A newline, which no line of a document holds. -/
  | stray
deriving DecidableEq

namespace TokenKind

def ofChar : Char → TokenKind
  | ' ' | '\t' | '\r' => blank
  | ',' => comma
  | ':' => joint
  | '\n' => stray
  | _ => word

/-- Adjacent characters of this kind belong to one token. -/
def extends? : TokenKind → Bool
  | blank | word => true
  | comma | joint | stray => false

def separates : TokenKind → Bool
  | comma | joint => true
  | blank | word | stray => false

end TokenKind

structure Token where
  kind : TokenKind
  lexeme : List Char
  /-- The byte offset of the first character. -/
  start : Nat
deriving DecidableEq

namespace Token

def range (token : Token) : Text.ByteRange := .covering token.start token.lexeme

def separates (token : Token) : Bool := token.kind.separates

def isBlank (token : Token) : Bool := token.kind = .blank

/-- The text cut into lexemes, each with its kind. -/
def lexemes : List Char → List (TokenKind × List Char)
  | [] => []
  | c :: text =>
    match lexemes text with
    | [] => [(.ofChar c, [c])]
    | (kind, lexeme) :: rest =>
      if kind = .ofChar c ∧ kind.extends? then (kind, c :: lexeme) :: rest
      else (.ofChar c, [c]) :: (kind, lexeme) :: rest

/-- Lays lexemes out one after the other from a byte offset. -/
def place : Nat → List (TokenKind × List Char) → List Token
  | _, [] => []
  | start, (kind, lexeme) :: rest => ⟨kind, lexeme, start⟩ :: place (start + Text.byteLength lexeme) rest

/-- The tokens of a text that begins at byte offset `start`. -/
def scan (start : Nat) (text : List Char) : List Token := place start (lexemes text)

/-- The tokens as a reader meets them: the kind of each and the bytes it covers. The offset goes on by the
length of each lexeme and is kept by `keep`. -/
def lex (keep : Nat → Nat) : Nat → List (TokenKind × List Char) → List (TokenKind × Text.ByteRange)
  | _, [] => []
  | start, (kind, lexeme) :: rest =>
    let stop := keep (start + Text.byteLength lexeme)
    (kind, ⟨start, stop⟩) :: lex keep stop rest

@[simp] theorem scan_nil (start : Nat) : scan start [] = [] := rfl

/-- The lexemes together are the text. -/
theorem flatMap_lexemes (text : List Char) : (lexemes text).flatMap Prod.snd = text := by
  induction text with
  | nil => rfl
  | cons c text ih =>
    unfold lexemes
    split
    · rename_i none
      rw [none] at ih
      simp [← ih]
    · rename_i kind lexeme rest eq
      rw [eq] at ih
      split <;> simp [← ih]

theorem flatMap_place (start : Nat) (lexemes : List (TokenKind × List Char)) :
    (place start lexemes).flatMap lexeme = lexemes.flatMap Prod.snd := by
  induction lexemes generalizing start with
  | nil => rfl
  | cons first rest ih => simp [place, ih]

theorem flatMap_scan (start : Nat) (text : List Char) :
    (scan start text).flatMap lexeme = text := by
  rw [scan, flatMap_place, flatMap_lexemes]

end Token

/-! Reading a line. The first colon is the joint: terms before it are declarations and terms after it
are annotations. A term is what stands between two separators, without the white space around it. The reader
goes through the tokens once and holds the term that is open; a line can also be split at its separators. -/

namespace Indent

/-- Spaces and tabs at the start of a line are its indent. -/
def isIndent (c : Char) : Bool := c == ' ' || c == '\t'

/-- A tab counts as many columns as the low 32 bits of the tab size say. -/
def columns (tabSize : Nat) (c : Char) : UInt32 := if c = '\t' then .ofNat tabSize else 1

/-- Columns are counted in 32 bits. -/
def width (tabSize : Nat) (indent : List Char) : UInt32 :=
  indent.foldl (fun width c => width + columns tabSize c) 0

def isMixed (indent : List Char) : Bool := indent.contains ' ' && indent.contains '\t'

end Indent

/-- A name with the byte offset at which it begins. -/
structure Term where
  lexeme : List Char
  start : Nat
deriving DecidableEq

namespace Term

/-- The term that consecutive tokens spell: all from the first to the last that is not white space. -/
def ofTokens? (tokens : List Token) : Option Term :=
  match Text.trim Token.isBlank tokens with
  | [] => none
  | first :: rest => some ⟨(first :: rest).flatMap Token.lexeme, first.start⟩

/-- The terms between separators; an empty one is dropped. -/
def between (tokens : List Token) : List Term :=
  (Text.pieces Token.separates tokens).filterMap ofTokens?

def toSpan (statement : StatementId) (side : Side) (term : Term) (position : Nat) : Span where
  id := ⟨statement, side, position⟩
  subject := String.ofList term.lexeme
  range := .covering term.start term.lexeme

end Term

namespace Statement

def commentMark : List Char := ['/', '/']

/-- Nothing but white space, or a comment. -/
def isNoop (content : List Char) : Bool :=
  content.all Text.isBlank || commentMark.isPrefixOf content

def beforeJoint (tokens : List Token) : List Token := tokens.takeWhile (·.kind ≠ .joint)

def afterJoint (tokens : List Token) : List Token := (tokens.dropWhile (·.kind ≠ .joint)).drop 1

/-- The spans of one side, numbered in order. -/
def spansOn (id : StatementId) (side : Side) (tokens : List Token) : List Span :=
  (Term.between tokens).zipIdx.map fun (term, position) => term.toSpan id side position

/-- The line without its spans. -/
def blank (id : StatementId) (text : String) (tabSize : Nat) : Statement :=
  let indent := text.toList.takeWhile Indent.isIndent
  { id, text
    indent := (Indent.width tabSize indent).toNat
    mixed := Indent.isMixed indent
    noop := isNoop (text.toList.dropWhile Indent.isIndent)
    declarations := []
    annotations := [] }

/-- The line split at its separators. -/
def split (id : StatementId) (text : String) (tabSize : Nat) : Statement :=
  let content := text.toList.dropWhile Indent.isIndent
  let start := Text.byteLength (text.toList.takeWhile Indent.isIndent)
  let tokens := if isNoop content then [] else Token.scan start content
  { blank id text tabSize with
    declarations := spansOn id .declared (beforeJoint tokens)
    annotations := spansOn id .annotated (afterJoint tokens) }

/-- Adds spans to a side. -/
def append (line : Statement) (spans : List Span) : Side → Statement
  | .declared => { line with declarations := line.declarations ++ spans }
  | .annotated => { line with annotations := line.annotations ++ spans }

/-- Ends a term: what its bytes spell is the next name of a side. No term begins or ends inside a
character. -/
def pushTerm (keep : Nat → Nat) (line : Statement) (side : Side) : Option Text.ByteRange → Statement
  | none => line
  | some range =>
    let subject := String.ofList ((Text.slice? line.text.toList range).getD [])
    line.append [⟨⟨line.id, side, keep (line.side side).length⟩, subject, range⟩] side

end Statement

/-- A line whose tokens are gone through. -/
structure Reading where
  line : Statement
  side : Side
  /-- The bytes of the term that is open. -/
  term : Option Text.ByteRange

namespace Reading

/-- Ends the term that is open, if there is one. -/
def close (keep : Nat → Nat) (reading : Reading) : Statement :=
  reading.line.pushTerm keep reading.side reading.term

/-- Goes on by one token. -/
def step (keep : Nat → Nat) (reading : Reading) : TokenKind × Text.ByteRange → Reading
  | (.blank, _) => reading
  | (.word, range) | (.stray, range) =>
    { reading with term := some ((reading.term.map (·.cover range)).getD range) }
  | (.comma, _) => ⟨reading.close keep, reading.side, none⟩
  | (.joint, _) => ⟨reading.close keep, .annotated, none⟩

end Reading

namespace Statement

/-- Reads one line. Offsets and positions are kept by `keep`. -/
def readKeeping (keep : Nat → Nat) (id : StatementId) (text : String) (tabSize : Nat) : Statement :=
  let line := blank id text tabSize
  if line.noop then line
  else
    let start := keep (Text.byteLength (text.toList.takeWhile Indent.isIndent))
    let tokens := Token.lex keep start (Token.lexemes (text.toList.dropWhile Indent.isIndent))
    (tokens.foldl (Reading.step keep) ⟨line, .declared, none⟩).close keep

/-- Reads one line. -/
def read : StatementId → String → Nat → Statement := readKeeping fun count => count

/-- Reads one line, with offsets and positions in 32 bits. -/
def readWords : StatementId → String → Nat → Statement := readKeeping fun count => (UInt32.ofNat count).toNat

end Statement
end OutlineTypes
