import OutlineTypes.Proofs.Document.Reading

/-! Splicing. A plan makes its edits one after the other, each in the lines that those before it left, up to the
first that has no place there. Lines that no edit takes out keep their statement and their order, and those that
are read are numbered in the order of the edits. -/
namespace OutlineTypes

namespace Edit

/-- Where a deletion ends. Positions are 64-bit words, and so the sum does not go past the last of them. -/
def stop (position count : Nat) : Nat := max position (min (position + count) lastPosition)

/-- The edit has a place among `length` lines. -/
def Fits (length : Nat) : Edit → Prop
  | insert position _ => position ≤ length
  | delete position count => stop position count ≤ length
  | update position _ => position < length

/-- The line that an edit reads, and the place it puts it at. -/
def puts? : Edit → Option (Nat × String)
  | insert position line | update position line => some (position, line)
  | delete _ _ => none

/-- One edit made in a list, with `read` for the line it puts there. -/
def splice (read : String → α) (lines : List α) : Edit → List α
  | insert position line => lines.take position ++ read line :: lines.drop position
  | delete position count => lines.take position ++ lines.drop (stop position count)
  | update position line => lines.take position ++ read line :: lines.drop (position + 1)

/-- Where an edit leaves what is at `place`; none if it deletes or replaces it. -/
def moves? (place : Nat) : Edit → Option Nat
  | insert position _ => some (if place < position then place else place + 1)
  | delete position count =>
    if place < position then some place
    else if place < stop position count then none
    else some (place - (stop position count - position))
  | update position _ => if place = position then none else some place

/-- Where the edits leave what is at `place`, if none of them takes it out. -/
def movesAll? (place : Nat) (edits : List Edit) : Option Nat := edits.foldlM moves? place

/-- The lines that edits read, in order. -/
def readings (edits : List Edit) : List String := edits.filterMap fun edit => edit.puts?.map Prod.snd

variable {edit : Edit} {front edits : List Edit} {texts : List String}

instance (length : Nat) (edit : Edit) : Decidable (edit.Fits length) := by
  cases edit <;> (unfold Fits; infer_instance)

/-- The edits in front of the first that has no place. -/
def fitting (texts : List String) : List Edit → List Edit
  | [] => []
  | edit :: edits => if edit.Fits texts.length then edit :: fitting (edit.splice id texts) edits else []

section Step

variable {α β : Type*} {lines : List α} {read : String → α}

end Step

@[simp] theorem movesAll?_nil (place : Nat) : movesAll? place [] = some place := rfl

end Edit

/-- The document when the lines of these edits are read. -/
def Document.counting (document : Document) (edits : List Edit) : Document :=
  { document with nextSerial := document.nextSerial + (Edit.readings edits).length }

namespace Draft

variable {draft mid next : Draft} {edit : Edit} {edits : List Edit}

end Draft

namespace Document

def texts (document : Document) : List String := document.statements.map Statement.text

variable {document : Document} {front edits : List Edit}

/-- The statements that planning reads, whether it succeeds or not. -/
def reading (document : Document) (edits : List Edit) : List Statement :=
  (document.readAll (Edit.readings (Edit.fitting document.texts edits))).1

end Document
end OutlineTypes
