import OutlineTypes.Document
import OutlineTypes.Proofs.Document.Nesting

/-! What edits leave alone. A line that comes or goes matters to the lines below it only if it would be in
their chain, and then the line around it is there too, with and without it. So the lines noted around
every line that came or went are in the chain of all that stands differently. -/
namespace OutlineTypes

open Outline

/-- The same lines stand in the same places, up to places inside a line that was touched. -/
def Agrees (touched : StatementId → Prop) (old new : List Statement) : Prop :=
  ∀ line around, (∀ outer ∈ around, ¬touched outer.id) →
    (Located old line around ↔ Located new line around)

namespace Agrees

variable {touched : StatementId → Prop} {first second third : List Statement}

theorem refl (touched : StatementId → Prop) (lines : List Statement) : Agrees touched lines lines :=
  fun _ _ _ => .rfl

theorem symm (h : Agrees touched first second) : Agrees touched second first :=
  fun line around clear => (h line around clear).symm

theorem trans (h : Agrees touched first second) (k : Agrees touched second third) :
    Agrees touched first third :=
  fun line around clear => (h line around clear).trans (k line around clear)

theorem mono {more : StatementId → Prop} (h : Agrees touched first second)
    (grows : ∀ id, touched id → more id) : Agrees more first second :=
  fun line around clear => h line around fun outer member noted => clear outer member (grows _ noted)

end Agrees

section Splice

/-- A line inside a touched one. -/
def NotedUnder (touched : StatementId → Prop) (above : List Statement) (line : Statement) : Prop :=
  line.noop = false → ∃ outer ∈ enclosers line.indent above, touched outer.id

variable {touched : StatementId → Prop} {before after : List Statement} {line : Statement}

/-- Below a line that comes or goes, a chain without touched lines is the same with it and without it. -/
theorem enclosers_eq_of_clear {indent : Nat} {above : List Statement}
    (noted : NotedUnder touched above line)
    (clear : (∀ outer ∈ enclosers indent (line :: above), ¬touched outer.id) ∨
      ∀ outer ∈ enclosers indent above, ¬touched outer.id) :
    enclosers indent (line :: above) = enclosers indent above := by
  rw [enclosers]
  split
  · rename_i encloses
    have takesPart : line.noop = false ∧ line.indent < indent := by simpa using encloses
    obtain ⟨outer, member, marked⟩ := noted takesPart.1
    rcases clear with clear | clear
    · refine absurd marked (clear outer ?_)
      rw [enclosers, if_pos encloses]
      exact List.mem_cons_of_mem _ member
    · exact absurd marked
        (clear outer ((enclosers_suffix (Nat.le_of_lt takesPart.2) above).subset member))
  · rfl

theorem enclosers_append_eq_of_clear {indent : Nat} (below : List Statement) {above : List Statement}
    (noted : NotedUnder touched above line)
    (clear : (∀ outer ∈ enclosers indent (below ++ line :: above), ¬touched outer.id) ∨
      ∀ outer ∈ enclosers indent (below ++ above), ¬touched outer.id) :
    enclosers indent (below ++ line :: above) = enclosers indent (below ++ above) := by
  rw [enclosers_append, enclosers_append] at clear ⊢
  congr 1
  exact enclosers_eq_of_clear noted (clear.imp
    (fun clear outer member => clear outer (List.mem_append_right _ member))
    fun clear outer member => clear outer (List.mem_append_right _ member))

theorem locatedUnder_splice {above : List Statement} (below : List Statement)
    (noted : NotedUnder touched above line) {other : Statement} {around : List Statement}
    (clear : ∀ outer ∈ around, ¬touched outer.id) :
    LocatedUnder (below ++ line :: above) after other around ↔
      LocatedUnder (below ++ above) after other around := by
  induction after generalizing below with
  | nil => rfl
  | cons first after ih =>
    simp only [LocatedUnder]
    refine or_congr ?_ (ih (first :: below))
    refine and_congr_right fun _ => and_congr_right fun _ => ?_
    constructor
    · rintro rfl
      exact enclosers_append_eq_of_clear below noted (.inl clear)
    · rintro rfl
      exact (enclosers_append_eq_of_clear below noted (.inr clear)).symm

theorem agrees_splice (after : List Statement) (noted : NotedUnder touched before.reverse line) :
    Agrees touched (before ++ line :: after) (before ++ after) := by
  intro other around clear
  rw [Located, Located, locatedUnder_append, locatedUnder_append, List.append_nil]
  refine or_congr_right ?_
  rw [LocatedUnder]
  have absent : ¬(other = line ∧ other.noop = false ∧ around = enclosers other.indent before.reverse) := by
    rintro ⟨rfl, noop, rfl⟩
    obtain ⟨outer, member, marked⟩ := noted noop
    exact clear outer member marked
  rw [or_iff_right absent]
  exact locatedUnder_splice [] noted clear

/-- A run of lines goes bottom up, so that each goes from under the lines it stood under. -/
theorem agrees_splice_run {run : List Statement}
    (noted : ∀ front line back, run = front ++ line :: back →
      NotedUnder touched (before ++ front).reverse line) :
    Agrees touched (before ++ (run ++ after)) (before ++ after) := by
  induction run generalizing before with
  | nil => exact .refl touched _
  | cons first run ih =>
    have rest : Agrees touched ((before ++ [first]) ++ (run ++ after)) ((before ++ [first]) ++ after) := by
      refine ih fun front line back split => ?_
      have := noted (first :: front) line back (by rw [split]; rfl)
      simpa using this
    have single := agrees_splice after (by simpa using noted [] first run rfl)
    simpa using rest.trans (by simpa using single)

end Splice

end OutlineTypes
