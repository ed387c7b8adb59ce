import OutlineTypes.Statement
import OutlineTypes.Proofs.Lists
import Mathlib.Data.List.TakeWhile

/-! Reading by tokens. The reader goes through the tokens of a line once, and the term that it holds open covers the
tokens since the last separator, but for white space around them; so it reads what the line is when it is split at its
separators. Offsets and positions fit into 32 bits as long as the text is shorter than that. -/
namespace OutlineTypes

namespace Text

variable {text piece : List Char} {start : Nat}

/-- The piece is in the text, from this byte offset on. -/
def Shows (text : List Char) (start : Nat) (piece : List Char) : Prop :=
  ∃ before after, text = before ++ piece ++ after ∧ start = byteLength before

theorem dropBytes?_append (before text : List Char) : dropBytes? (before ++ text) (byteLength before) = some text := by
  induction before with
  | nil => cases text <;> rfl
  | cons c before ih =>
    have width := c.utf8Size_pos
    obtain ⟨more, count⟩ : ∃ more, byteLength (c :: before) = more + 1 :=
      ⟨byteLength (c :: before) - 1, by rw [byteLength_cons]; omega⟩
    have rest : more + 1 - c.utf8Size = byteLength before := by
      rw [← count, byteLength_cons, Nat.add_sub_cancel_left]
    rw [count, List.cons_append, dropBytes?, if_pos (by rw [← count, byteLength_cons]; omega), rest, ih]

theorem takeBytes?_append (text after : List Char) : takeBytes? (text ++ after) (byteLength text) = some text := by
  induction text with
  | nil => cases after <;> rfl
  | cons c text ih =>
    have width := c.utf8Size_pos
    obtain ⟨more, count⟩ : ∃ more, byteLength (c :: text) = more + 1 :=
      ⟨byteLength (c :: text) - 1, by rw [byteLength_cons]; omega⟩
    have rest : more + 1 - c.utf8Size = byteLength text := by
      rw [← count, byteLength_cons, Nat.add_sub_cancel_left]
    rw [count, List.cons_append, takeBytes?, if_pos (by rw [← count, byteLength_cons]; omega), rest, ih]
    rfl

theorem Shows.slice? (shows : Shows text start piece) : Text.slice? text (.covering start piece) = some piece := by
  obtain ⟨before, after, rfl, rfl⟩ := shows
  simp only [Text.slice?, ByteRange.covering, List.append_assoc, dropBytes?_append, Option.bind_some,
    Nat.add_sub_cancel_left, takeBytes?_append]

/-- What trimming leaves out stands around it. -/
theorem exists_append_trim (p : α → Bool) (xs : List α) : ∃ after, xs = xs.takeWhile p ++ trim p xs ++ after := by
  refine ⟨((xs.dropWhile p).reverse.takeWhile p).reverse, ?_⟩
  rw [List.append_assoc, trim, trimEnd, trimStart, ← List.reverse_append, List.takeWhile_append_dropWhile,
    List.reverse_reverse, List.takeWhile_append_dropWhile]

/-- The first piece begins the list, and the others are in it. -/
theorem exists_pieces_eq_cons (p : α → Bool) (xs : List α) : ∃ first rest, pieces p xs = first :: rest ∧
    first <+: xs ∧ ∀ piece ∈ rest, piece <:+: xs := by
  induction xs with
  | nil => exact ⟨[], [], rfl, List.prefix_refl _, by simp⟩
  | cons x xs ih =>
    obtain ⟨first, rest, eq, front, inside⟩ := ih
    have later : ∀ piece ∈ rest, piece <:+: x :: xs := fun piece member => List.infix_cons (inside piece member)
    rw [pieces, eq]
    split
    · exact ⟨[], first :: rest, rfl, List.nil_prefix, List.forall_mem_cons.mpr ⟨List.infix_cons front.isInfix, later⟩⟩
    · exact ⟨x :: first, rest, rfl, List.cons_prefix_cons.mpr ⟨rfl, front⟩, later⟩

theorem isInfix_of_mem_pieces {p : α → Bool} {xs piece : List α} (member : piece ∈ pieces p xs) : piece <:+: xs := by
  obtain ⟨first, rest, eq, front, inside⟩ := exists_pieces_eq_cons p xs
  rw [eq] at member
  rcases List.mem_cons.mp member with rfl | later
  · exact front.isInfix
  · exact inside piece later

section Pieces

variable {p : α → Bool} {x : α} {xs : List α}

theorem pieces_eq_singleton (whole : ∀ x ∈ xs, ¬p x) : pieces p xs = [xs] := by
  induction xs with
  | nil => rfl
  | cons x xs ih =>
    rw [pieces, if_neg (whole x List.mem_cons_self), ih fun y member => whole y (List.mem_cons_of_mem _ member)]

theorem pieces_append_cons (whole : ∀ x ∈ xs, ¬p x) (cut : p x) (rest : List α) :
    pieces p (xs ++ x :: rest) = xs :: pieces p rest := by
  induction xs with
  | nil => rw [List.nil_append, pieces, if_pos cut]
  | cons y xs ih =>
    rw [List.cons_append, pieces, if_neg (whole y List.mem_cons_self),
      ih fun z member => whole z (List.mem_cons_of_mem _ member)]

theorem trim_append {tail : List α} (xs : List α) (blank : ∀ x ∈ tail, p x) :
    trim p (xs ++ tail) = trim p xs := by
  have gone : tail.dropWhile p = [] := (dropWhile_eq_nil p tail).mpr blank
  simp only [trim, trimStart, trimEnd, List.dropWhile_append, gone]
  split
  · rename_i none
    rw [List.isEmpty_iff.mp none]
  · rw [List.reverse_append, List.dropWhile_append_of_pos fun x member => blank x (List.mem_reverse.mp member)]

/-- An element at the end that is not trimmed keeps all before it from the end. -/
theorem trim_append_singleton (xs : List α) (stays : ¬p x) : trim p (xs ++ [x]) = xs.dropWhile p ++ [x] := by
  have front : (xs ++ [x]).dropWhile p = xs.dropWhile p ++ [x] := by
    rw [List.dropWhile_append]
    split
    · rename_i none
      rw [List.isEmpty_iff.mp none, List.dropWhile_cons_of_neg stays, List.nil_append]
    · rfl
  rw [trim, trimStart, front, trimEnd, List.reverse_append, List.reverse_singleton, List.singleton_append,
    List.dropWhile_cons_of_neg stays, List.reverse_cons, List.reverse_reverse]

/-- What is trimmed at the end comes after what stays. -/
theorem exists_dropWhile_eq_trim_append (p : α → Bool) (xs : List α) :
    ∃ after, xs.dropWhile p = trim p xs ++ after := by
  obtain ⟨after, split⟩ := exists_append_trim p xs
  have joined : xs.takeWhile p ++ xs.dropWhile p = xs.takeWhile p ++ (trim p xs ++ after) := by
    rw [List.takeWhile_append_dropWhile, ← List.append_assoc]
    exact split
  exact ⟨after, List.append_cancel_left joined⟩

end Pieces

end Text

namespace Token

/-- Each token begins where those before it end. -/
theorem start_of_place {start : Nat} {lexemes : List (TokenKind × List Char)} {before after : List Token}
    {token : Token} (placed : place start lexemes = before ++ token :: after) :
    token.start = start + Text.byteLength (before.flatMap lexeme) := by
  induction lexemes generalizing start before with
  | nil => simp [place] at placed
  | cons first lexemes ih =>
    cases before with
    | nil =>
      obtain ⟨rfl, _⟩ := List.cons.inj placed
      rfl
    | cons earlier before =>
      obtain ⟨rfl, rest⟩ := List.cons.inj placed
      rw [ih rest, List.flatMap_cons, Text.byteLength_append, Nat.add_assoc]

end Token

open Text (Shows)

namespace Term

variable {start : Nat} {content : List Char} {tokens : List Token} {term : Term}

/-- A term stands where its first token does. -/
theorem shows_of_ofTokens? (among : tokens <:+: Token.scan start content) (spells : ofTokens? tokens = some term) :
    ∃ before after, content = before ++ term.lexeme ++ after ∧ term.start = start + Text.byteLength before := by
  obtain ⟨front, back, scanned⟩ := among
  obtain ⟨after, trimmed⟩ := Text.exists_append_trim Token.isBlank tokens
  unfold ofTokens? at spells
  split at spells
  · contradiction
  rename_i first rest kept
  cases spells
  let blanks := tokens.takeWhile Token.isBlank
  have placed : Token.scan start content = (front ++ blanks) ++ first :: (rest ++ after ++ back) := by
    rw [← scanned, trimmed, kept]
    simp [blanks]
  refine ⟨(front ++ blanks).flatMap Token.lexeme, (after ++ back).flatMap Token.lexeme, ?_,
    Token.start_of_place placed⟩
  rw [← Token.flatMap_scan start content, placed]
  simp

theorem shows_of_between (among : tokens <:+: Token.scan start content) (member : term ∈ between tokens) :
    ∃ before after, content = before ++ term.lexeme ++ after ∧ term.start = start + Text.byteLength before := by
  obtain ⟨piece, listed, spells⟩ := List.mem_filterMap.mp member
  exact shows_of_ofTokens? ((Text.isInfix_of_mem_pieces listed).trans among) spells

end Term

namespace Term

variable {start : Nat} {content : List Char} {pending rest : List Token} {token : Token}

def range (term : Term) : Text.ByteRange := .covering term.start term.lexeme

theorem between_of_plain (plain : ∀ token ∈ pending, ¬token.separates) :
    between pending = (ofTokens? pending).toList := by
  rw [between, Text.pieces_eq_singleton plain, List.filterMap_cons, List.filterMap_nil]
  cases ofTokens? pending <;> rfl

theorem between_append_separator (plain : ∀ token ∈ pending, ¬token.separates) (cut : token.separates)
    (rest : List Token) : between (pending ++ token :: rest) = (ofTokens? pending).toList ++ between rest := by
  rw [between, Text.pieces_append_cons plain cut, List.filterMap_cons]
  cases ofTokens? pending <;> rfl

/-- White space at the end of a term is left out. -/
theorem ofTokens?_append_blank (pending : List Token) (blank : token.isBlank) :
    ofTokens? (pending ++ [token]) = ofTokens? pending := by
  rw [ofTokens?, Text.trim_append pending (by simpa using blank), ofTokens?]

/-- Any other token makes the term reach to its own end. -/
theorem range_ofTokens?_append (among : pending ++ [token] <:+: Token.scan start content) (solid : ¬token.isBlank) :
    (ofTokens? (pending ++ [token])).map range =
      some ((((ofTokens? pending).map range).map (·.cover token.range)).getD token.range) := by
  obtain ⟨front, back, scanned⟩ := among
  obtain ⟨after, kept⟩ := Text.exists_dropWhile_eq_trim_append Token.isBlank pending
  have whole := Text.trim_append_singleton pending solid
  cases trimmed : Text.trim Token.isBlank pending with
  | nil =>
    have none : pending.dropWhile Token.isBlank = [] :=
      (Text.dropWhile_eq_nil _ _).mpr ((Text.trim_eq_nil_iff _ _).mp trimmed)
    rw [none, List.nil_append] at whole
    simp [ofTokens?, whole, trimmed, range, Token.range]
  | cons first rest =>
    let blanks := pending.takeWhile Token.isBlank
    have split : pending = blanks ++ (first :: rest ++ after) := by
      rw [← trimmed, ← kept, List.takeWhile_append_dropWhile]
    have early : Token.scan start content = (front ++ blanks) ++ first :: (rest ++ after ++ token :: back) := by
      rw [← scanned, split]
      simp
    have late : Token.scan start content = (front ++ pending) ++ token :: back := by
      rw [← scanned]
      simp
    have begins := Token.start_of_place early
    have ends := Token.start_of_place late
    rw [split] at ends
    rw [kept, trimmed] at whole
    simp only [List.flatMap_append, Text.byteLength_append] at begins ends
    simp only [ofTokens?, whole, trimmed, List.cons_append, Option.map_some, Option.getD_some, range, Token.range,
      Text.ByteRange.covering, Text.ByteRange.cover, Option.some.injEq, Text.ByteRange.mk.injEq,
      List.flatMap_cons, List.flatMap_append, Text.byteLength_append] at ends ⊢
    simp only [List.flatMap_nil, Text.byteLength_nil]
    omega

end Term

namespace Statement

variable {line : Statement} {side : Side} {spans more : List Span} {terms : List Term}

@[simp] theorem id_append : (line.append spans side).id = line.id := by cases side <;> rfl

@[simp] theorem text_append : (line.append spans side).text = line.text := by cases side <;> rfl

@[simp] theorem side_append : (line.append spans side).side side = line.side side ++ spans := by cases side <;> rfl

@[simp] theorem append_append : (line.append spans side).append more side = line.append (spans ++ more) side := by
  cases side <;> simp [append]

@[simp] theorem append_nil : line.append [] side = line := by cases side <;> simp [append]

/-- Pushes terms one after the other. -/
def pushAll (line : Statement) (side : Side) (terms : List Term) : Statement :=
  terms.foldl (fun line term => line.pushTerm (fun count => count) side (some term.range)) line

/-- Terms that stand in the text become spans of their own names. -/
theorem pushAll_eq (shown : ∀ term ∈ terms, Text.Shows line.text.toList term.start term.lexeme) :
    line.pushAll side terms = line.append ((terms.zipIdx (line.side side).length).map fun (term, position) =>
      term.toSpan line.id side position) side := by
  induction terms generalizing line with
  | nil => simp [pushAll]
  | cons term terms ih =>
    rw [List.forall_mem_cons] at shown
    have first : line.pushTerm (fun count => count) side (some term.range) =
        line.append [term.toSpan line.id side (line.side side).length] side := by
      simp only [pushTerm, Term.range, shown.1.slice?, Option.getD_some, Term.toSpan]
    rw [pushAll, List.foldl_cons, first]
    refine (ih (by simpa using shown.2)).trans ?_
    simp

end Statement

/-- A token as the reader meets it. -/
def Token.met (token : Token) : TokenKind × Text.ByteRange := (token.kind, token.range)

theorem Token.lex_eq (start : Nat) (lexemes : List (TokenKind × List Char)) :
    lex (fun count => count) start lexemes = (place start lexemes).map met := by
  induction lexemes generalizing start with
  | nil => rfl
  | cons first lexemes ih => simp [lex, place, ih, met, Token.range, Text.ByteRange.covering]

namespace Reading

variable {start : Nat} {content : List Char} {line : Statement} {side : Side} {pending rest : List Token} {token : Token}

/-- The reading of a line with these tokens since the last separator. -/
def holding (line : Statement) (side : Side) (pending : List Token) : Reading :=
  ⟨line, side, (Term.ofTokens? pending).map Term.range⟩

theorem close_holding : (holding line side pending).close (fun count => count) =
    line.pushAll side (Term.ofTokens? pending).toList := by
  rw [close, holding]
  cases Term.ofTokens? pending <;> rfl

theorem step_within (among : pending ++ [token] <:+: Token.scan start content) (plain : ¬token.separates) :
    (holding line side pending).step (fun count => count) token.met = holding line side (pending ++ [token]) := by
  cases kind : token.kind with
  | blank =>
    have blank : token.isBlank := decide_eq_true kind
    simp only [Token.met, kind, step, holding, Term.ofTokens?_append_blank pending blank]
  | comma => simp [Token.separates, kind, TokenKind.separates] at plain
  | joint => simp [Token.separates, kind, TokenKind.separates] at plain
  | word | stray =>
    have solid : ¬token.isBlank := by simp [Token.isBlank, kind]
    simp only [Token.met, kind, step, holding, Term.range_ofTokens?_append among solid]

theorem step_comma (comma : token.kind = .comma) : (holding line side pending).step (fun count => count) token.met =
    holding (line.pushAll side (Term.ofTokens? pending).toList) side [] := by
  rw [← close_holding]
  simp only [Token.met, comma, step]
  rfl

theorem step_joint (joint : token.kind = .joint) : (holding line side pending).step (fun count => count) token.met =
    holding (line.pushAll side (Term.ofTokens? pending).toList) .annotated [] := by
  rw [← close_holding]
  simp only [Token.met, joint, step]
  rfl

/-- The next token follows those of the open term. -/
theorem among_within (among : pending ++ token :: rest <:+: Token.scan start content) :
    pending ++ [token] <:+: Token.scan start content := by
  rw [List.append_cons] at among
  exact (List.prefix_append _ _).isInfix.trans among

theorem among_rest (among : pending ++ token :: rest <:+: Token.scan start content) :
    [] ++ rest <:+: Token.scan start content := by
  rw [List.append_cons] at among
  exact (List.suffix_append _ _).isInfix.trans among

theorem plain_append (plain : ∀ token ∈ pending, ¬token.separates) (within : ¬token.separates) :
    ∀ other ∈ pending ++ [token], ¬other.separates := fun other member =>
  (List.mem_append.mp member).elim (plain other) fun last => List.mem_singleton.mp last ▸ within

/-- After the joint every term is an annotation. -/
theorem close_annotated (among : pending ++ rest <:+: Token.scan start content)
    (plain : ∀ token ∈ pending, ¬token.separates) :
    ((rest.map Token.met).foldl (step fun count => count) (holding line .annotated pending)).close (fun count => count) =
      line.pushAll .annotated (Term.between (pending ++ rest)) := by
  induction rest generalizing line pending with
  | nil => rw [List.map_nil, List.foldl_nil, close_holding, List.append_nil, Term.between_of_plain plain]
  | cons token rest ih =>
    rw [List.map_cons, List.foldl_cons]
    by_cases cut : token.separates
    · have cuts : (holding line .annotated pending).step (fun count => count) token.met =
          holding (line.pushAll .annotated (Term.ofTokens? pending).toList) .annotated [] := by
        cases kind : token.kind with
        | comma => exact step_comma kind
        | joint => exact step_joint kind
        | blank | word | stray => simp [Token.separates, kind, TokenKind.separates] at cut
      rw [cuts, ih (among_rest among) (by simp), List.nil_append,
        Term.between_append_separator plain cut, Statement.pushAll, Statement.pushAll, ← List.foldl_append]
      rfl
    · rw [step_within (among_within among) cut, ih (List.append_cons pending token rest ▸ among)
        (plain_append plain cut), ← List.append_cons]

/-- Before the joint every term is a declaration. -/
theorem close_declared (among : pending ++ rest <:+: Token.scan start content)
    (plain : ∀ token ∈ pending, ¬token.separates) :
    ((rest.map Token.met).foldl (step fun count => count) (holding line .declared pending)).close (fun count => count) =
      (line.pushAll .declared (Term.between (pending ++ Statement.beforeJoint rest))).pushAll .annotated
        (Term.between (Statement.afterJoint rest)) := by
  induction rest generalizing line pending with
  | nil =>
    rw [List.map_nil, List.foldl_nil, close_holding, Statement.beforeJoint, List.takeWhile_nil, List.append_nil,
      Term.between_of_plain plain]
    rfl
  | cons token rest ih =>
    rw [List.map_cons, List.foldl_cons]
    by_cases joint : token.kind = .joint
    · rw [step_joint joint, close_annotated (among_rest among) (by simp)]
      simp [Statement.beforeJoint, Statement.afterJoint, joint, Term.between_of_plain plain]
    · have before : Statement.beforeJoint (token :: rest) = token :: Statement.beforeJoint rest := by
        simp [Statement.beforeJoint, joint]
      have after : Statement.afterJoint (token :: rest) = Statement.afterJoint rest := by
        simp [Statement.afterJoint, joint]
      rw [before, after]
      by_cases cut : token.separates
      · have comma : token.kind = .comma := by
          cases kind : token.kind <;> simp_all [Token.separates, TokenKind.separates]
        rw [step_comma comma, ih (among_rest among) (by simp), List.nil_append,
          Term.between_append_separator plain cut, Statement.pushAll, Statement.pushAll, Statement.pushAll,
          ← List.foldl_append]
        rfl
      · rw [step_within (among_within among) cut, ih (List.append_cons pending token rest ▸ among)
          (plain_append plain cut), ← List.append_cons]

end Reading

namespace Statement

variable {id : StatementId} {text : String} {tabSize : Nat}

theorem isInfix_beforeJoint (tokens : List Token) : beforeJoint tokens <:+: tokens :=
  (List.takeWhile_prefix _).isInfix

theorem isInfix_afterJoint (tokens : List Token) : afterJoint tokens <:+: tokens :=
  ((List.drop_suffix _ _).trans (List.dropWhile_suffix _)).isInfix

/-- The terms of a line stand in its text. -/
theorem shows_of_term {tokens : List Token} {term : Term}
    (among : tokens <:+: Token.scan (Text.byteLength (text.toList.takeWhile Indent.isIndent))
      (text.toList.dropWhile Indent.isIndent)) (member : term ∈ Term.between tokens) :
    Shows text.toList term.start term.lexeme := by
  obtain ⟨before, after, split, begins⟩ := Term.shows_of_between among member
  refine ⟨text.toList.takeWhile Indent.isIndent ++ before, after, ?_, by rw [begins, Text.byteLength_append]⟩
  rw [List.append_assoc, List.append_assoc, ← List.append_assoc before, ← split, List.takeWhile_append_dropWhile]

/-- Going through the tokens of a line comes to the same as splitting it. -/
theorem read_eq_split (id : StatementId) (text : String) (tabSize : Nat) : read id text tabSize = split id text tabSize := by
  by_cases noop : isNoop (text.toList.dropWhile Indent.isIndent)
  · have silent : (blank id text tabSize).noop := noop
    rw [read, readKeeping, if_pos silent, split, if_pos noop]
    rfl
  · have speaks : ¬(blank id text tabSize).noop := noop
    let start := Text.byteLength (text.toList.takeWhile Indent.isIndent)
    let content := text.toList.dropWhile Indent.isIndent
    have declared : ∀ term ∈ Term.between (beforeJoint (Token.scan start content)),
        Shows (blank id text tabSize).text.toList term.start term.lexeme :=
      fun _ => shows_of_term (isInfix_beforeJoint _)
    have annotated : ∀ term ∈ Term.between (afterJoint (Token.scan start content)),
        Shows (blank id text tabSize).text.toList term.start term.lexeme :=
      fun _ => shows_of_term (isInfix_afterJoint _)
    have closed := @Reading.close_declared start content (blank id text tabSize) [] (Token.scan start content)
      (List.infix_refl _) (by simp)
    rw [List.nil_append, pushAll_eq declared, pushAll_eq (by simpa using annotated)] at closed
    simp only [read, readKeeping, if_neg speaks, Token.lex_eq, split, if_neg noop]
    exact closed

@[simp] theorem id_read (id : StatementId) (text : String) (tabSize : Nat) : (read id text tabSize).id = id := by
  rw [read_eq_split]
  rfl

@[simp] theorem text_read (id : StatementId) (text : String) (tabSize : Nat) :
    (read id text tabSize).text = text := by
  rw [read_eq_split]
  rfl

end Statement

section Words

variable {keep : Nat → Nat}

/-- Offsets are kept as they are where the whole text is short enough. -/
theorem Token.lex_congr {start : Nat} {lexemes : List (TokenKind × List Char)}
    (keeps : ∀ count ≤ start + Text.byteLength (lexemes.flatMap Prod.snd), keep count = count) :
    lex keep start lexemes = lex (fun count => count) start lexemes := by
  induction lexemes generalizing start with
  | nil => rfl
  | cons first lexemes ih =>
    rw [List.flatMap_cons, Text.byteLength_append] at keeps
    rw [lex, lex, keeps _ (by omega), ih fun count short => keeps count (by omega)]

theorem Token.length_place (start : Nat) (lexemes : List (TokenKind × List Char)) :
    (place start lexemes).length = lexemes.length := by
  induction lexemes generalizing start with
  | nil => rfl
  | cons first lexemes ih => rw [place, List.length_cons, List.length_cons, ih]

/-- There are no more tokens than bytes. -/
theorem Token.length_lexemes_le (text : List Char) : (lexemes text).length ≤ Text.byteLength text := by
  induction text with
  | nil => exact Nat.le_refl 0
  | cons c text ih =>
    have width := c.utf8Size_pos
    rw [Text.byteLength_cons]
    unfold lexemes
    split
    · exact Nat.le_add_right_of_le width
    · rename_i eq
      rw [eq, List.length_cons] at ih
      split <;> simp only [List.length_cons] <;> omega

theorem Statement.length_side_le (line : Statement) (side : Side) : (line.side side).length ≤ line.spans.length := by
  rw [spans, List.length_append]
  cases side
  · exact Nat.le_add_right _ _
  · exact Nat.le_add_left _ _

theorem Statement.length_spans_append (line : Statement) (more : List Span) (side : Side) :
    (line.append more side).spans.length = line.spans.length + more.length := by
  cases side <;> simp only [append, spans, List.length_append] <;> omega

namespace Reading

variable (reading : Reading)

/-- A position is kept as it is if there are few spans so far, and no more than one span comes to them. -/
theorem close_congr (keeps : ∀ count ≤ reading.line.spans.length, keep count = count) :
    reading.close keep = reading.close (fun count => count) ∧
      (reading.close fun count => count).spans.length ≤ reading.line.spans.length + 1 := by
  rw [close, close]
  cases reading.term with
  | none => exact ⟨rfl, Nat.le_succ _⟩
  | some range =>
    rw [Statement.pushTerm, Statement.pushTerm, keeps _ (reading.line.length_side_le reading.side),
      Statement.length_spans_append]
    exact ⟨rfl, Nat.le_refl _⟩

theorem step_congr (keeps : ∀ count ≤ reading.line.spans.length, keep count = count)
    (token : TokenKind × Text.ByteRange) : reading.step keep token = reading.step (fun count => count) token ∧
      (reading.step (fun count => count) token).line.spans.length ≤ reading.line.spans.length + 1 := by
  obtain ⟨closes, length⟩ := close_congr reading keeps
  obtain ⟨kind, range⟩ := token
  cases kind with
  | blank | word | stray => exact ⟨rfl, Nat.le_succ _⟩
  | comma | joint => exact ⟨by rw [step, step, closes], length⟩

theorem foldl_congr (tokens : List (TokenKind × Text.ByteRange))
    (keeps : ∀ count ≤ reading.line.spans.length + tokens.length, keep count = count) :
    tokens.foldl (step keep) reading = tokens.foldl (step fun count => count) reading ∧
      (tokens.foldl (step fun count => count) reading).line.spans.length ≤ reading.line.spans.length + tokens.length := by
  induction tokens generalizing reading with
  | nil => exact ⟨rfl, Nat.le_refl _⟩
  | cons token tokens ih =>
    rw [List.length_cons] at keeps
    obtain ⟨same, length⟩ := step_congr reading (fun count few => keeps count (by omega)) token
    obtain ⟨onward, bound⟩ := ih (reading.step (fun count => count) token)
      fun count few => keeps count (by omega)
    rw [List.foldl_cons, List.foldl_cons, same, List.length_cons]
    exact ⟨onward, by omega⟩

end Reading

/-- If counts up to the length of the text are kept as they are, the line is read all the same. -/
theorem Statement.readKeeping_eq_read {text : String}
    (keeps : ∀ count ≤ Text.byteLength text.toList, keep count = count) (id : StatementId) (tabSize : Nat) :
    readKeeping keep id text tabSize = read id text tabSize := by
  have width : Text.byteLength text.toList = Text.byteLength (text.toList.takeWhile Indent.isIndent) +
      Text.byteLength (text.toList.dropWhile Indent.isIndent) := by
    rw [← Text.byteLength_append, List.takeWhile_append_dropWhile]
  rw [width] at keeps
  rw [read, readKeeping, readKeeping]
  split
  · rfl
  · generalize Text.byteLength (text.toList.takeWhile Indent.isIndent) = start at keeps
    generalize text.toList.dropWhile Indent.isIndent = content at keeps
    let line := blank id text tabSize
    have few : (Token.lex (fun count => count) start (Token.lexemes content)).length ≤ Text.byteLength content := by
      rw [Token.lex_eq, List.length_map, Token.length_place]
      exact Token.length_lexemes_le content
    simp only [keeps start (Nat.le_add_right _ _), Token.lex_congr (by rwa [Token.flatMap_lexemes])]
    generalize Token.lex (fun count => count) start (Token.lexemes content) = tokens at few
    have none : line.spans.length = 0 := rfl
    obtain ⟨same, length⟩ := Reading.foldl_congr ⟨line, .declared, Option.none⟩ tokens
      fun count inside => keeps count (by simp only [none] at inside; omega)
    simp only [none] at length
    rw [same]
    exact (Reading.close_congr _ fun count inside => keeps count (by omega)).1

/-- In a text of fewer bytes than 32 bits can count, nothing is lost by counting in 32 bits. -/
theorem Statement.readWords_eq_read {text : String} (short : Text.byteLength text.toList < UInt32.size) (id : StatementId)
    (tabSize : Nat) : readWords id text tabSize = read id text tabSize := by
  refine readKeeping_eq_read (fun count inside => ?_) id tabSize
  rw [UInt32.toNat_ofNat']
  exact Nat.mod_eq_of_lt (Nat.lt_of_le_of_lt inside short)

end Words

end OutlineTypes
