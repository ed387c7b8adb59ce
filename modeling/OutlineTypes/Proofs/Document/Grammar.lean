import OutlineTypes.Proofs.Document.Ranges
import OutlineTypes.Proofs.Document.Text

/-! The grammar of a line, said of its characters. Reading goes by tokens; as no token reaches over a separator and
the white space between words is a token of its own, it comes to the same names. -/
namespace OutlineTypes

namespace Statement

/-- White space around a name. -/
def isPadding (c : Char) : Bool := c == ' ' || c == '\t' || c == '\r'

/-- The names between separators, without their padding; where nothing is left there is no name. -/
def namesBetween (separates : Char → Bool) (text : List Char) : List (List Char) :=
  ((Text.pieces separates text).map (Text.trim isPadding)).filter (· ≠ [])

/-- The names that a line declares and those that it annotates them with; none for a blank line or a comment. -/
def grammar? (text : List Char) : Option (List (List Char) × List (List Char)) :=
  let content := text.dropWhile fun c => c == ' ' || c == '\t'
  if content.all Text.isBlank || ['/', '/'].isPrefixOf content then none
  else some (namesBetween (· == ',') (content.takeWhile (· ≠ ':')),
    namesBetween (fun c => c == ',' || c == ':') ((content.dropWhile (· ≠ ':')).drop 1))

/-- The statement is what the grammar makes of the text, and its spans lie in it one after the other. -/
structure Grammatical (id : StatementId) (text : String) (tabSize : Nat) (line : Statement) : Prop where
  own : line.id = id
  whole : line.text = text
  noop : line.noop = (grammar? text.toList).isNone
  silent : grammar? text.toList = none → line.spans = []
  names : ∀ declared annotated, grammar? text.toList = some (declared, annotated) →
    line.declarations.map (·.subject.toList) = declared ∧ line.annotations.map (·.subject.toList) = annotated
  spelled : ∀ span ∈ line.spans, Text.slice? text.toList span.range = some span.subject.toList
  filled : ∀ span ∈ line.spans, span.range.start < span.range.stop
  apart : line.spans.Pairwise fun span next => span.range.stop ≤ next.range.start
  numbered : ∀ side, (line.side side).map Span.id =
    (List.range (line.side side).length).map fun position => ⟨id, side, position⟩
  found : ∀ id span, line.span? id = some span ↔ span ∈ line.spans ∧ span.id = id
  /-- The text is not too long for offsets and positions of 32 bits. -/
  words : Text.byteLength text.toList < UInt32.size → readWords id text tabSize = line

end Statement

namespace Text

/-- A list is cut at its first separator, if it has one. -/
theorem pieces_induction {p : α → Bool} {motive : List α → Prop} (whole : ∀ xs, (∀ x ∈ xs, ¬p x) → motive xs)
    (cut : ∀ xs x rest, (∀ x ∈ xs, ¬p x) → p x → motive rest → motive (xs ++ x :: rest)) (xs : List α) :
    motive xs := by
  have split : xs = xs.takeWhile (!p ·) ++ xs.dropWhile (!p ·) := List.takeWhile_append_dropWhile.symm
  have front : ∀ x ∈ xs.takeWhile (!p ·), ¬p x := fun x member => by simpa using List.mem_takeWhile_imp member
  cases back : xs.dropWhile (!p ·) with
  | nil =>
    rw [back, List.append_nil] at split
    exact whole xs (split ▸ front)
  | cons x rest =>
    have separates : p x := by simpa [back] using List.head?_dropWhile_not (!p ·) xs
    rw [back] at split
    have shorter : rest.length < xs.length := by
      have := congrArg List.length split
      simp only [List.length_append, List.length_cons] at this
      omega
    rw [split]
    exact cut _ x rest front separates (pieces_induction whole cut rest)
termination_by xs.length

theorem pieces_congr {p q : α → Bool} {xs : List α} (same : ∀ x ∈ xs, p x = q x) : pieces p xs = pieces q xs := by
  induction xs with
  | nil => rfl
  | cons x xs ih =>
    rw [List.forall_mem_cons] at same
    rw [pieces, pieces, same.1, ih same.2]

section Flattening

variable {p : α → Bool} {q : β → Bool} {f : α → List β} {xs : List α}

/-- What is dropped is the same, as every element stands for some of its own kind. -/
theorem dropWhile_flatMap (uniform : ∀ x ∈ xs, f x ≠ [] ∧ ∀ y ∈ f x, q y = p x) :
    (xs.flatMap f).dropWhile q = (xs.dropWhile p).flatMap f := by
  induction xs with
  | nil => rfl
  | cons x xs ih =>
    rw [List.forall_mem_cons] at uniform
    obtain ⟨⟨some, kind⟩, rest⟩ := uniform
    rw [List.flatMap_cons]
    by_cases drops : p x
    · rw [List.dropWhile_cons_of_pos drops, List.dropWhile_append_of_pos fun y member => (kind y member).trans drops,
        ih rest]
    · rw [List.dropWhile_cons_of_neg drops, List.flatMap_cons]
      obtain ⟨y, ys, eq⟩ := List.exists_cons_of_ne_nil some
      have stays : ¬q y := by rwa [kind y (by simp [eq])]
      rw [eq, List.cons_append, List.dropWhile_cons_of_neg stays]

theorem trim_flatMap (uniform : ∀ x ∈ xs, f x ≠ [] ∧ ∀ y ∈ f x, q y = p x) :
    trim q (xs.flatMap f) = (trim p xs).flatMap f := by
  have back : ∀ x ∈ (xs.dropWhile p).reverse, (f x).reverse ≠ [] ∧ ∀ y ∈ (f x).reverse, q y = p x := by
    intro x member
    obtain ⟨some, kind⟩ := uniform x ((List.dropWhile_sublist p).subset (List.mem_reverse.mp member))
    exact ⟨by simpa using some, fun y among => kind y (List.mem_reverse.mp among)⟩
  have turned (ys : List α) : (ys.flatMap f).reverse = ys.reverse.flatMap fun x => (f x).reverse := by
    rw [List.reverse_flatMap]
    rfl
  rw [trim, trim, trimStart, trimStart, trimEnd, trimEnd, dropWhile_flatMap uniform, turned, dropWhile_flatMap back,
    List.reverse_flatMap]
  simp [Function.comp_def]

end Flattening

end Text

namespace Token

variable {start : Nat} {c : Char} {text : List Char}

/-- A token is made of characters of its kind. -/
theorem uniform_lexemes (text : List Char) :
    ∀ token ∈ lexemes text, token.2 ≠ [] ∧ ∀ c ∈ token.2, TokenKind.ofChar c = token.1 := by
  induction text with
  | nil => simp [lexemes]
  | cons c text ih =>
    unfold lexemes
    split
    · simp
    · rename_i kind lexeme rest eq
      rw [eq, List.forall_mem_cons] at ih
      split
      · rename_i joins
        rw [List.forall_mem_cons]
        exact ⟨⟨by simp, List.forall_mem_cons.mpr ⟨joins.1.symm, ih.1.2⟩⟩, ih.2⟩
      · rw [List.forall_mem_cons]
        exact ⟨by simp, List.forall_mem_cons.mpr ih⟩

theorem uniform_place (start : Nat) (text : List Char) :
    ∀ token ∈ scan start text, token.lexeme ≠ [] ∧ ∀ c ∈ token.lexeme, TokenKind.ofChar c = token.kind := by
  have placed (lexemes : List (TokenKind × List Char)) :
      ∀ start, ∀ token ∈ place start lexemes, (token.kind, token.lexeme) ∈ lexemes := by
    induction lexemes with
    | nil => simp [place]
    | cons first rest ih =>
      intro start token member
      rcases List.mem_cons.mp member with rfl | later
      · exact List.mem_cons_self
      · exact List.mem_cons_of_mem _ (ih _ token later)
  exact fun token member => uniform_lexemes text _ (placed _ start token member)

/-- A token has the kind of some character of the text. -/
theorem exists_char_of_mem {token : Token} (member : token ∈ scan start text) :
    ∃ c ∈ text, TokenKind.ofChar c = token.kind := by
  obtain ⟨some, kind⟩ := uniform_place start text token member
  obtain ⟨c, among⟩ := List.exists_mem_of_ne_nil _ some
  refine ⟨c, ?_, kind c among⟩
  rw [← flatMap_scan start text]
  exact List.mem_flatMap.mpr ⟨token, member, among⟩

/-- A token ends before a character that makes one of its own. -/
theorem lexemes_append_cons (alone : (TokenKind.ofChar c).extends? = false) (front back : List Char) :
    lexemes (front ++ c :: back) = lexemes front ++ (.ofChar c, [c]) :: lexemes back := by
  have apart {d : Char} (rest : List (TokenKind × List Char)) :
      attach d ((.ofChar c, [c]) :: rest) = (.ofChar d, [d]) :: (.ofChar c, [c]) :: rest := by
    simp [attach, alone]
  induction front with
  | nil =>
    rw [List.nil_append, lexemes_cons]
    cases lexemes back with
    | nil => rfl
    | cons first rest =>
      have different : ¬(first.1 = .ofChar c ∧ first.1.extends?) := by
        rintro ⟨same, joins⟩
        simp [same, alone] at joins
      simp [attach, different, lexemes]
  | cons d front ih =>
    rw [List.cons_append, lexemes_cons, lexemes_cons, ih]
    cases lexemes front with
    | nil => exact apart _
    | cons first rest => exact attach_append d first rest _

theorem scan_append_cons (alone : (TokenKind.ofChar c).extends? = false) (start : Nat) (front back : List Char) :
    scan start (front ++ c :: back) = scan start front ++ ⟨.ofChar c, [c], start + Text.byteLength front⟩ ::
      scan (start + Text.byteLength front + c.utf8Size) back := by
  rw [scan, lexemes_append_cons alone, place_append, flatMap_lexemes]
  rfl

end Token

namespace Text

/-- Ranges that lie one after the other between two offsets, and none is empty. -/
structure Laid (start : Nat) (ranges : List ByteRange) (stop : Nat) : Prop where
  filled : ∀ range ∈ ranges, range.start < range.stop
  after : ∀ range ∈ ranges, start ≤ range.start
  before : ∀ range ∈ ranges, range.stop ≤ stop
  apart : ranges.Pairwise fun range next => range.stop ≤ next.start

theorem laid_nil (start stop : Nat) : Laid start [] stop := by constructor <;> simp

theorem Laid.mono {start stop first last : Nat} {ranges : List ByteRange} (laid : Laid start ranges stop)
    (first_le : first ≤ start) (le_last : stop ≤ last) : Laid first ranges last where
  filled := laid.filled
  after range member := Nat.le_trans first_le (laid.after range member)
  before range member := Nat.le_trans (laid.before range member) le_last
  apart := laid.apart

theorem Laid.append {start middle again stop : Nat} {ranges others : List ByteRange} (laid : Laid start ranges middle)
    (onward : middle ≤ again) (further : Laid again others stop) (inside : start ≤ middle) (last : again ≤ stop) :
    Laid start (ranges ++ others) stop where
  filled range member := (List.mem_append.mp member).elim (laid.filled range) (further.filled range)
  after range member := (List.mem_append.mp member).elim (laid.after range) fun later => by
    have := further.after range later
    omega
  before range member := (List.mem_append.mp member).elim (fun sooner => by
    have := laid.before range sooner
    omega) (further.before range)
  apart := List.pairwise_append.mpr ⟨laid.apart, further.apart, fun range sooner next later => by
    have := laid.before range sooner
    have := further.after next later
    omega⟩

end Text

open Text (Laid)

namespace Term

variable {start : Nat} {c : Char} {front back text : List Char}

theorem isPadding_eq (c : Char) : Statement.isPadding c = decide (TokenKind.ofChar c = .blank) := by
  unfold TokenKind.ofChar Statement.isPadding
  split <;> simp_all

theorem separates_ofChar (c : Char) : (TokenKind.ofChar c).separates = (c == ',' || c == ':') := by
  unfold TokenKind.ofChar
  split <;> simp_all [TokenKind.separates]

/-- Tokens spell what is left of their text when it is trimmed. -/
theorem lexeme_ofTokens? (start : Nat) (text : List Char) : (ofTokens? (Token.scan start text)).map lexeme =
    if Text.trim Statement.isPadding text = [] then none else some (Text.trim Statement.isPadding text) := by
  have uniform := Token.uniform_place start text
  have trimmed : Text.trim Statement.isPadding text =
      (Text.trim Token.isBlank (Token.scan start text)).flatMap Token.lexeme := by
    conv_lhs => rw [← Token.flatMap_scan start text]
    refine Text.trim_flatMap fun token member => ⟨(uniform token member).1, fun c among => ?_⟩
    rw [isPadding_eq, (uniform token member).2 c among]
    rfl
  rw [trimmed]
  unfold ofTokens?
  cases kept : Text.trim Token.isBlank (Token.scan start text) with
  | nil => rfl
  | cons first rest =>
    have member : first ∈ Token.scan start text := by
      obtain ⟨after, split⟩ := Text.exists_append_trim Token.isBlank (Token.scan start text)
      rw [split, kept]
      simp
    simp [(uniform first member).1]

theorem not_separates {token : Token} (whole : ∀ c ∈ text, ¬(TokenKind.ofChar c).separates)
    (member : token ∈ Token.scan start text) : ¬token.separates := by
  obtain ⟨c, inside, kind⟩ := Token.exists_char_of_mem member
  rw [Token.separates, ← kind]
  exact whole c inside

theorem between_of_whole (start : Nat) (whole : ∀ c ∈ text, ¬(TokenKind.ofChar c).separates) :
    between (Token.scan start text) = (ofTokens? (Token.scan start text)).toList :=
  between_of_plain fun _ => not_separates whole

theorem between_append_cons (start : Nat) (whole : ∀ d ∈ front, ¬(TokenKind.ofChar d).separates)
    (cut : (TokenKind.ofChar c).separates) (back : List Char) :
    between (Token.scan start (front ++ c :: back)) = (ofTokens? (Token.scan start front)).toList ++
      between (Token.scan (start + Text.byteLength front + c.utf8Size) back) := by
  have alone : (TokenKind.ofChar c).extends? = false := by
    cases kind : TokenKind.ofChar c <;> simp_all [TokenKind.separates, TokenKind.extends?]
  have separates : Token.separates ⟨.ofChar c, [c], start + Text.byteLength front⟩ := cut
  rw [Token.scan_append_cons alone, between_append_separator (fun _ => not_separates whole) separates]

/-- Terms are the names between the separators. -/
theorem lexemes_between (start : Nat) (text : List Char) : (between (Token.scan start text)).map lexeme =
    Statement.namesBetween (fun c => (TokenKind.ofChar c).separates) text := by
  have one (start : Nat) (text : List Char) : (ofTokens? (Token.scan start text)).toList.map lexeme =
      [Text.trim Statement.isPadding text].filter (· ≠ []) := by
    rw [← Option.toList_map, lexeme_ofTokens?]
    split <;> simp_all
  induction text using Text.pieces_induction (p := fun c => (TokenKind.ofChar c).separates) generalizing start with
  | whole text whole =>
    rw [between_of_whole start whole, one, Statement.namesBetween, Text.pieces_eq_singleton whole]
    rfl
  | cut front c back whole cut ih =>
    rw [between_append_cons start whole cut, List.map_append, one, ih, Statement.namesBetween, Statement.namesBetween,
      Text.pieces_append_cons whole cut, List.map_cons, ← List.filter_append]
    rfl

theorem laid_ofTokens? (start : Nat) (text : List Char) :
    Laid start ((ofTokens? (Token.scan start text)).toList.map range) (start + Text.byteLength text) := by
  cases spelled : ofTokens? (Token.scan start text) with
  | none => exact Text.laid_nil _ _
  | some term =>
    obtain ⟨before, after, rfl, begins⟩ := shows_of_ofTokens? (List.infix_refl _) spelled
    have some : term.lexeme ≠ [] := by
      intro none
      have trimmed := lexeme_ofTokens? start (before ++ term.lexeme ++ after)
      rw [spelled, Option.map_some, none] at trimmed
      split at trimmed <;> simp_all
    have width : 0 < Text.byteLength term.lexeme := by
      obtain ⟨c, rest, eq⟩ := List.exists_cons_of_ne_nil some
      have := c.utf8Size_pos
      rw [eq, Text.byteLength_cons]
      omega
    constructor <;> simp [range, Text.ByteRange.covering, begins] <;> omega

/-- Terms lie in the text one after the other. -/
theorem laid_between (start : Nat) (text : List Char) :
    Laid start ((between (Token.scan start text)).map range) (start + Text.byteLength text) := by
  induction text using Text.pieces_induction (p := fun c => (TokenKind.ofChar c).separates) generalizing start with
  | whole text whole =>
    rw [between_of_whole start whole]
    exact laid_ofTokens? start text
  | cut front c back whole cut ih =>
    rw [between_append_cons start whole cut, List.map_append, Text.byteLength_append, Text.byteLength_cons]
    have further := ih (start + Text.byteLength front + c.utf8Size)
    rw [show start + Text.byteLength front + c.utf8Size + Text.byteLength back =
      start + (Text.byteLength front + (c.utf8Size + Text.byteLength back)) by omega] at further
    exact (laid_ofTokens? start front).append (by omega) further (by omega) (by omega)

end Term

namespace Statement

variable {id : StatementId} {side : Side} {start : Nat} {content : List Char} {text : String} {tabSize : Nat}

section Sides

theorem joint_iff (c : Char) : TokenKind.ofChar c = .joint ↔ c = ':' := by
  unfold TokenKind.ofChar
  split <;> simp_all

theorem not_joint_of_mem {token : Token} (whole : ∀ c ∈ content, c ≠ ':')
    (member : token ∈ Token.scan start content) :
    token.kind ≠ .joint := by
  obtain ⟨c, inside, kind⟩ := Token.exists_char_of_mem member
  rw [← kind, Ne, joint_iff]
  exact whole c inside

/-- The joint is the first colon of the text. -/
theorem joint_splits (start : Nat) (content : List Char) :
    beforeJoint (Token.scan start content) = Token.scan start (content.takeWhile (· ≠ ':')) ∧
      ∃ stop, start + Text.byteLength (content.takeWhile (· ≠ ':')) ≤ stop ∧
        stop + Text.byteLength ((content.dropWhile (· ≠ ':')).drop 1) ≤ start + Text.byteLength content ∧
          afterJoint (Token.scan start content) = Token.scan stop ((content.dropWhile (· ≠ ':')).drop 1) := by
  have split : content = content.takeWhile (· ≠ ':') ++ content.dropWhile (· ≠ ':') :=
    List.takeWhile_append_dropWhile.symm
  have whole : ∀ c ∈ content.takeWhile (· ≠ ':'), c ≠ ':' := fun c member => by
    simpa using List.mem_takeWhile_imp member
  have passes {front : List Char} (whole : ∀ c ∈ front, c ≠ ':') :
      ∀ token ∈ Token.scan start front, decide (token.kind ≠ .joint) = true := fun token member =>
    decide_eq_true (not_joint_of_mem whole member)
  generalize content.takeWhile (· ≠ ':') = front at split whole ⊢
  have first := List.head?_dropWhile_not (fun c : Char => decide (c ≠ ':')) content
  generalize content.dropWhile (· ≠ ':') = back at split first ⊢
  cases back with
  | nil =>
    rw [List.append_nil] at split
    subst split
    refine ⟨List.takeWhile_eq_self_iff.mpr (passes whole), start + Text.byteLength content, Nat.le_refl _,
      by simp, ?_⟩
    rw [afterJoint, (Text.dropWhile_eq_nil _ _).mpr (passes whole)]
    rfl
  | cons c back =>
    obtain rfl : c = ':' := by simpa using first
    have scanned := Token.scan_append_cons (c := ':') rfl start front back
    have joint : TokenKind.ofChar ':' = .joint := rfl
    rw [split, scanned]
    refine ⟨?_, start + Text.byteLength front + ':'.utf8Size, Nat.le_add_right _ _, ?_, ?_⟩
    · rw [beforeJoint, List.takeWhile_append_of_pos (passes whole), List.takeWhile_cons_of_neg (by simp [joint]),
        List.append_nil]
    · simp only [List.drop_one, List.tail_cons, Text.byteLength_append, Text.byteLength_cons]
      omega
    · rw [afterJoint, List.dropWhile_append_of_pos (passes whole), List.dropWhile_cons_of_neg (by simp [joint])]
      rfl

theorem subjects_scan (id : StatementId) (side : Side) (start : Nat) (content : List Char) :
    (spansOn id side (Token.scan start content)).map (·.subject.toList) =
      namesBetween (fun c => c == ',' || c == ':') content := by
  have same := congrArg (List.map String.toList) (subjects_spansOn id side (Token.scan start content))
  rw [List.map_map, List.map_map] at same
  rw [← funext Term.separates_ofChar, ← Term.lexemes_between start content]
  simpa [Function.comp_def] using same

theorem ranges_scan (id : StatementId) (side : Side) (start : Nat) (content : List Char) :
    (spansOn id side (Token.scan start content)).map Span.range =
      (Term.between (Token.scan start content)).map Term.range := by
  conv_rhs => rw [← List.zipIdx_map_fst 0 (Term.between (Token.scan start content)), List.map_map]
  rw [spansOn, List.map_map]
  rfl

end Sides

section Spans

theorem mem_spans_iff {line : Statement} {span : Span} : span ∈ line.spans ↔ ∃ side, span ∈ line.side side := by
  rw [spans, List.mem_append]
  constructor
  · rintro (declared | annotated)
    · exact ⟨.declared, declared⟩
    · exact ⟨.annotated, annotated⟩
  · rintro ⟨side, member⟩
    cases side with
    | declared => exact .inl member
    | annotated => exact .inr member

theorem isNoop_iff (text : List Char) :
    isNoop (text.dropWhile Indent.isIndent) = true ↔ grammar? text = none := by
  have same : (fun c => c == ' ' || c == '\t') = Indent.isIndent := rfl
  simp only [grammar?, same, isNoop, commentMark, ite_eq_left_iff, reduceCtorEq, imp_false, not_not]

theorem grammar?_of_not_isNoop {text : List Char} (reads : ¬isNoop (text.dropWhile Indent.isIndent)) :
    grammar? text = some
      (namesBetween (· == ',') ((text.dropWhile Indent.isIndent).takeWhile (· ≠ ':')),
        namesBetween (fun c => c == ',' || c == ':')
          (((text.dropWhile Indent.isIndent).dropWhile (· ≠ ':')).drop 1)) := by
  rw [isNoop_iff] at reads
  unfold grammar? at reads ⊢
  simp only at reads ⊢
  split at reads
  · exact absurd rfl reads
  · rename_i spelled
    exact if_neg spelled

/-- A line that is no blank one and no comment. -/
theorem read_of_not_isNoop (id : StatementId) (tabSize : Nat)
    (reads : ¬isNoop (text.toList.dropWhile Indent.isIndent)) :
    let tokens := Token.scan (Text.byteLength (text.toList.takeWhile Indent.isIndent))
      (text.toList.dropWhile Indent.isIndent)
    (read id text tabSize).declarations = spansOn id .declared (beforeJoint tokens) ∧
      (read id text tabSize).annotations = spansOn id .annotated (afterJoint tokens) := by
  simp only [read_eq_split, split, if_neg reads, and_self]

theorem spans_read_of_isNoop (id : StatementId) (tabSize : Nat)
    (noop : isNoop (text.toList.dropWhile Indent.isIndent)) : (read id text tabSize).spans = [] := by
  simp only [read_eq_split, split, spans, if_pos noop]
  rfl

theorem laid_read (id : StatementId) (text : String) (tabSize : Nat) :
    Laid 0 ((read id text tabSize).spans.map Span.range) (Text.byteLength text.toList) := by
  by_cases noop : isNoop (text.toList.dropWhile Indent.isIndent)
  · rw [spans_read_of_isNoop id tabSize noop]
    exact Text.laid_nil _ _
  · obtain ⟨declared, annotated⟩ := read_of_not_isNoop id tabSize noop
    have width : Text.byteLength text.toList = Text.byteLength (text.toList.takeWhile Indent.isIndent) +
        Text.byteLength (text.toList.dropWhile Indent.isIndent) := by
      rw [← Text.byteLength_append, List.takeWhile_append_dropWhile]
    generalize Text.byteLength (text.toList.takeWhile Indent.isIndent) = start at declared annotated width
    generalize text.toList.dropWhile Indent.isIndent = content at declared annotated width
    obtain ⟨before, stop, onward, inside, after⟩ := joint_splits start content
    rw [spans, declared, annotated, before, after, List.map_append, ranges_scan, ranges_scan]
    exact ((Term.laid_between start _).append onward (Term.laid_between stop _) (Nat.le_add_right _ _)
      (Nat.le_add_right _ _)).mono (Nat.zero_le start) (by omega)

theorem mem_spans_read {span : Span} : span ∈ (read id text tabSize).spans ↔
    ∃ side position, ((read id text tabSize).side side)[position]? = some span ∧ span.id = ⟨id, side, position⟩ := by
  rw [mem_spans_iff]
  refine exists_congr fun side => ⟨fun member => ?_, fun ⟨position, found, _⟩ => List.mem_of_getElem? found⟩
  obtain ⟨position, found⟩ := List.mem_iff_getElem?.mp member
  exact ⟨position, found, id_of_side_read found⟩

/-- A span is found by its identity and by no other. -/
theorem span?_read {named : SpanId} {span : Span} : (read id text tabSize).span? named = some span ↔
    span ∈ (read id text tabSize).spans ∧ span.id = named := by
  rw [mem_spans_read, span?, id_read]
  constructor
  · intro found
    split at found
    · rename_i own
      have same := id_of_side_read found
      refine ⟨⟨named.side, named.position, found, same⟩, ?_⟩
      rw [same, ← own]
    · contradiction
  · rintro ⟨⟨side, position, found, same⟩, rfl⟩
    simpa only [same, ↓reduceIte] using found

theorem names_read (id : StatementId) (tabSize : Nat) {declared annotated : List (List Char)}
    (spelled : grammar? text.toList = some (declared, annotated)) :
    (read id text tabSize).declarations.map (·.subject.toList) = declared ∧
      (read id text tabSize).annotations.map (·.subject.toList) = annotated := by
  have reads : ¬isNoop (text.toList.dropWhile Indent.isIndent) := by
    rw [isNoop_iff, spelled]
    simp
  rw [grammar?_of_not_isNoop reads] at spelled
  cases spelled
  obtain ⟨declared, annotated⟩ := read_of_not_isNoop id tabSize reads
  obtain ⟨before, stop, _, _, after⟩ := joint_splits (Text.byteLength (text.toList.takeWhile Indent.isIndent))
    (text.toList.dropWhile Indent.isIndent)
  refine ⟨?_, by rw [annotated, after, subjects_scan]⟩
  -- No colon is left in front of the joint, so it makes no difference that it would separate there.
  rw [declared, before, subjects_scan, namesBetween, namesBetween]
  refine congrArg (fun pieces => (pieces.map (Text.trim isPadding)).filter (· ≠ []))
    (Text.pieces_congr fun c member => ?_)
  have plain : c ≠ ':' := by simpa using List.mem_takeWhile_imp member
  simp [plain]

/-- No line declares an empty name. -/
theorem ne_empty_of_declared {span : Span} (declared : span ∈ (read id text tabSize).declarations) :
    span.subject ≠ "" := by
  intro blank
  by_cases noop : isNoop (text.toList.dropWhile Indent.isIndent)
  · have none := spans_read_of_isNoop id tabSize noop
    rw [spans, List.append_eq_nil_iff] at none
    rw [none.1] at declared
    contradiction
  · have among := List.mem_map_of_mem (f := fun span : Span => span.subject.toList) declared
    rw [(names_read id tabSize (grammar?_of_not_isNoop noop)).1, blank, namesBetween, List.mem_filter] at among
    exact absurd among.2 (by simp)

/-- Every line is read as its grammar says, and every span covers its name. -/
theorem read_grammatical (id : StatementId) (text : String) (tabSize : Nat) :
    (read id text tabSize).Grammatical id text tabSize where
  own := id_read id text tabSize
  whole := text_read id text tabSize
  noop := by
    rw [Bool.eq_iff_iff, Option.isNone_iff_eq_none, read_eq_split]
    exact isNoop_iff text.toList
  silent none := spans_read_of_isNoop id tabSize ((isNoop_iff text.toList).mpr none)
  names _ _ := names_read id tabSize
  spelled span member := by
    obtain ⟨side, among⟩ := mem_spans_iff.mp member
    simpa using (covers_read among).slice?
  filled := List.forall_mem_map.mp (laid_read id text tabSize).filled
  apart := List.pairwise_map.mp (laid_read id text tabSize).apart
  numbered side := ids_side_read id text tabSize side
  found _ _ := span?_read
  words short := readWords_eq_read short id tabSize

end Spans

end Statement
end OutlineTypes
