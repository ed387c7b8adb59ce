import OutlineTypes.Proofs.Document.Reading
import Mathlib.Data.List.TakeWhile

/-! Ranges of bytes. The tokens of a line lie one after the other, so the range of a span covers the
characters that spell its subject, and the range of a line's content begins and ends with characters. -/
namespace OutlineTypes

open Text (Shows)

namespace Statement

variable {id : StatementId} {text : String} {tabSize : Nat} {side : Side} {span : Span}

/-- A span covers its subject and nothing else. -/
def Covers (line : Statement) (span : Span) : Prop :=
  span.range = .covering span.range.start span.subject.toList ∧
    Shows line.text.toList span.range.start span.subject.toList

theorem covers_of_spansOn {tokens : List Token}
    (among : tokens <:+: Token.scan (Text.byteLength (text.toList.takeWhile Indent.isIndent))
      (text.toList.dropWhile Indent.isIndent)) (member : span ∈ spansOn id side tokens) :
    span.range = .covering span.range.start span.subject.toList ∧
      Shows text.toList span.range.start span.subject.toList := by
  obtain ⟨⟨term, position⟩, listed, rfl⟩ := List.mem_map.mp member
  have shown := shows_of_term among (List.fst_mem_of_mem_zipIdx listed)
  simpa [Term.toSpan, Text.ByteRange.covering] using shown

theorem covers_read (member : span ∈ (read id text tabSize).side side) : (read id text tabSize).Covers span := by
  let indent := text.toList.takeWhile Indent.isIndent
  let content := text.toList.dropWhile Indent.isIndent
  let tokens := if isNoop content then [] else Token.scan (Text.byteLength indent) content
  have among : tokens <:+: Token.scan (Text.byteLength indent) content := by
    by_cases noop : isNoop content
    · simp [tokens, noop]
    · simp [tokens, noop]
  rw [Covers, text_read]
  rw [read_eq_split] at member
  cases side with
  | declared => exact covers_of_spansOn ((isInfix_beforeJoint tokens).trans among) member
  | annotated => exact covers_of_spansOn ((isInfix_afterJoint tokens).trans among) member

theorem Covers.slice? {line : Statement} (covers : line.Covers span) :
    Text.slice? line.text.toList span.range = some span.subject.toList := by
  rw [covers.1]
  exact covers.2.slice?

/-- The content is what is left of the line when it is trimmed. -/
theorem slice?_contentRange (line : Statement) :
    Text.slice? line.text.toList line.contentRange = some (Text.trim Text.isBlank line.text.toList) := by
  obtain ⟨after, trimmed⟩ := Text.exists_append_trim Text.isBlank line.text.toList
  exact Shows.slice? ⟨_, after, trimmed, rfl⟩

end Statement
end OutlineTypes
