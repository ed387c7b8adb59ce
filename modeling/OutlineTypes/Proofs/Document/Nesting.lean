import OutlineTypes.Document
import Mathlib.Data.List.Infix

/-! Nesting. The lines that contain a line are the same whether one looks upward from it or downward from
each of them, and of the lines above it only those count that are indented less than all between. -/
namespace OutlineTypes.Outline

/-- The lines that enclose a line with `indent` under `above`, nearest first. -/
def enclosers (indent : Nat) : List Statement → List Statement
  | [] => []
  | line :: above =>
    if !line.noop && line.indent < indent then line :: enclosers line.indent above
    else enclosers indent above

/-- What a line must be indented less than to enclose, above `below`, a line with `indent`. -/
def floor (indent : Nat) : List Statement → Nat
  | [] => indent
  | line :: above =>
    if !line.noop && line.indent < indent then floor line.indent above else floor indent above

theorem enclosers_append (indent : Nat) (below above : List Statement) :
    enclosers indent (below ++ above) =
      enclosers indent below ++ enclosers (floor indent below) above := by
  induction below generalizing indent with
  | nil => rfl
  | cons line below ih =>
    simp only [List.cons_append, enclosers, floor]
    split
    · rw [ih, List.cons_append]
    · rw [ih]

theorem noop_of_mem_enclosers {indent : Nat} {above : List Statement} {line : Statement}
    (member : line ∈ enclosers indent above) : line ∈ above ∧ line.noop = false := by
  induction above generalizing indent with
  | nil => simp [enclosers] at member
  | cons other above ih =>
    unfold enclosers at member
    split at member
    · rename_i encloses
      rcases List.mem_cons.mp member with rfl | member
      · exact ⟨List.mem_cons_self, by simp_all⟩
      · exact ⟨List.mem_cons_of_mem _ (ih member).1, (ih member).2⟩
    · exact ⟨List.mem_cons_of_mem _ (ih member).1, (ih member).2⟩

/-- A line indented less has fewer lines around it, and those are the outermost. -/
theorem enclosers_suffix {outer inner : Nat} (le : outer ≤ inner) (above : List Statement) :
    enclosers outer above <:+ enclosers inner above := by
  induction above generalizing outer inner with
  | nil => exact List.suffix_refl _
  | cons line above ih =>
    unfold enclosers
    by_cases noop : line.noop = true
    · simp only [noop, Bool.not_true, Bool.false_and, Bool.false_eq_true, ↓reduceIte]
      exact ih le
    · simp only [noop, Bool.not_false, Bool.true_and, decide_eq_true_eq]
      by_cases low : line.indent < outer
      · simp only [low, ↓reduceIte, Nat.lt_of_lt_of_le low le]
        exact List.suffix_refl _
      · by_cases between : line.indent < inner
        · simp only [low, ↓reduceIte, between]
          exact (ih (by omega)).trans (List.suffix_cons _ _)
        · simp only [low, ↓reduceIte, between]
          exact ih le

/-- The positions found are those of the lines found. -/
theorem map_get_enclosing (indent : Nat) {lines below : List Statement} {above : List Statement}
    (split : lines = above.reverse ++ below) :
    (enclosing indent above).map (fun index => lines[index]?) = (enclosers indent above).map some := by
  induction above generalizing indent below with
  | nil => rfl
  | cons line above ih =>
    have rest : lines = above.reverse ++ line :: below := by simpa using split
    unfold enclosing enclosers
    split
    · rw [List.map_cons, List.map_cons, ih line.indent rest]
      congr 1
      rw [rest, ← List.length_reverse, List.getElem?_append_right (Nat.le_refl _)]
      simp
    · exact ih indent rest

/-- The lines that contain the line at `index`, nearest first. -/
def chain (lines : List Statement) (index : Nat) : List Statement :=
  match lines[index]? with
  | none => []
  | some line => if line.noop then [] else enclosers line.indent (above lines index)

theorem noop_of_mem_chain {lines : List Statement} {index : Nat} {line : Statement}
    (member : line ∈ chain lines index) : line ∈ lines ∧ line.noop = false := by
  unfold chain at member
  split at member
  · simp at member
  · split at member
    · simp at member
    · obtain ⟨among, noop⟩ := noop_of_mem_enclosers member
      rw [above, List.mem_reverse] at among
      exact ⟨List.mem_of_mem_take among, noop⟩

theorem map_get_ancestors (lines : List Statement) (index : Nat) :
    (ancestors lines index).map (fun index => lines[index]?) = (chain lines index).map some := by
  unfold ancestors chain
  cases lines[index]? with
  | none => rfl
  | some line =>
    by_cases noop : line.noop = true
    · simp [noop]
    · simp only [noop, Bool.false_eq_true, ↓reduceIte]
      have split : lines = (above lines index).reverse ++ lines.drop index := by
        rw [above, List.reverse_reverse, List.take_append_drop]
      exact map_get_enclosing _ split

theorem length_ancestors (lines : List Statement) (index : Nat) :
    (ancestors lines index).length = (chain lines index).length := by
  have := congrArg List.length (map_get_ancestors lines index)
  simpa using this

/-- The chain of a line is its parent and the parent's chain. -/
theorem exists_parent_of_chain {lines : List Statement} {index : Nat} {line : Statement}
    {around : List Statement} (h : chain lines index = line :: around) :
    ∃ parent, parent? lines index = some parent ∧ lines[parent]? = some line ∧
      chain lines parent = around := by
  have positions := map_get_ancestors lines index
  rw [h, List.map_cons] at positions
  obtain ⟨parent, rest, split, _, _⟩ := List.map_eq_cons_iff.mp positions
  have found : parent? lines index = some parent := by rw [parent?, split, List.head?_cons]
  rw [ancestors_eq_cons found, List.map_cons, map_get_ancestors] at positions
  obtain ⟨here, above⟩ := List.cons.inj positions
  exact ⟨parent, found, here, (List.map_inj_right fun _ _ => Option.some.inj).mp above⟩

/-- Some line of the chain of a line stands at each of its ancestors. -/
theorem mem_chain_iff {lines : List Statement} {index : Nat} {line : Statement} :
    line ∈ chain lines index ↔ ∃ outer ∈ ancestors lines index, lines[outer]? = some line := by
  have same : some line ∈ (chain lines index).map some ↔
      some line ∈ (ancestors lines index).map fun index => lines[index]? := by
    rw [map_get_ancestors]
  simpa using same

theorem exists_split {lines : List Statement} {index : Nat} {line : Statement}
    (found : lines[index]? = some line) :
    ∃ before after, lines = before ++ line :: after ∧ before.length = index := by
  obtain ⟨inside, rfl⟩ := List.getElem?_eq_some_iff.mp found
  refine ⟨lines.take index, lines.drop (index + 1), ?_, ?_⟩
  · rw [List.getElem_cons_drop, List.take_append_drop]
  · rw [List.length_take]
    omega

/-- The line stands in `lines`, which stand under `above`, inside exactly the lines of `around`. All but
`lines` list the nearest line first. -/
def LocatedUnder (above : List Statement) : List Statement → Statement → List Statement → Prop
  | [], _, _ => False
  | first :: rest, line, around =>
    (line = first ∧ line.noop = false ∧ around = enclosers line.indent above) ∨
      LocatedUnder (first :: above) rest line around

def Located (lines : List Statement) (line : Statement) (around : List Statement) : Prop :=
  LocatedUnder [] lines line around

theorem locatedUnder_append {above front back around : List Statement} {line : Statement} :
    LocatedUnder above (front ++ back) line around ↔
      LocatedUnder above front line around ∨ LocatedUnder (front.reverse ++ above) back line around := by
  induction front generalizing above with
  | nil => simp [LocatedUnder]
  | cons first front ih => simp [LocatedUnder, ih, or_assoc]

theorem locatedUnder_iff {above lines around : List Statement} {line : Statement} :
    LocatedUnder above lines line around ↔ ∃ before after, lines = before ++ line :: after ∧
      line.noop = false ∧ around = enclosers line.indent (before.reverse ++ above) := by
  constructor
  · intro located
    induction lines generalizing above with
    | nil => exact located.elim
    | cons first rest ih =>
      rcases located with ⟨rfl, noop, rfl⟩ | located
      · exact ⟨[], rest, rfl, noop, rfl⟩
      · obtain ⟨before, after, rfl, noop, rfl⟩ := ih located
        exact ⟨first :: before, after, rfl, noop, by simp⟩
  · rintro ⟨before, after, rfl, noop, rfl⟩
    exact locatedUnder_append.mpr (.inr (.inl ⟨rfl, noop, rfl⟩))

theorem located_iff_chain {lines : List Statement} {line : Statement} {around : List Statement} :
    Located lines line around ↔
      ∃ index, lines[index]? = some line ∧ line.noop = false ∧ chain lines index = around := by
  rw [Located, locatedUnder_iff]
  constructor
  · rintro ⟨before, after, rfl, noop, rfl⟩
    refine ⟨before.length, by simp, noop, ?_⟩
    simp [chain, noop, above]
  · rintro ⟨index, found, noop, rfl⟩
    obtain ⟨before, after, rfl, rfl⟩ := exists_split found
    refine ⟨before, after, rfl, noop, ?_⟩
    simp [chain, noop, above]

section Duality

theorem exists_line_of_mem_ancestors {lines : List Statement} {index outer : Nat}
    (member : outer ∈ ancestors lines index) : ∃ line, lines[index]? = some line := by
  unfold ancestors at member
  cases found : lines[index]? with
  | none => simp [found] at member
  | some line => exact ⟨line, rfl⟩

theorem lt_of_mem_ancestors {lines : List Statement} {index outer : Nat}
    (member : outer ∈ ancestors lines index) : outer < index := by
  obtain ⟨line, found⟩ := exists_line_of_mem_ancestors member
  simp only [ancestors, found] at member
  split at member
  · simp at member
  · have := lt_of_mem_enclosing member
    simp only [above, List.length_reverse, List.length_take] at this
    omega

/-- Looking upward, a line is met as an ancestor if all lines below it are indented more. -/
theorem length_mem_enclosing {indent : Nat} {below above : List Statement} {line : Statement} :
    above.length ∈ enclosing indent (below ++ line :: above) ↔
      line.noop = false ∧ line.indent < indent ∧
        ∀ other ∈ below, other.noop ∨ line.indent < other.indent := by
  induction below generalizing indent with
  | nil =>
    simp only [List.nil_append, List.not_mem_nil, false_implies, implies_true, and_true]
    unfold enclosing
    split
    · rename_i encloses
      simpa using encloses
    · rename_i apart
      constructor
      · intro member
        exact absurd (lt_of_mem_enclosing member) (Nat.lt_irrefl _)
      · rintro ⟨noop, low⟩
        simp [noop, low] at apart
  | cons other below ih =>
    have longer : above.length ≠ (below ++ line :: above).length := by
      simp only [List.length_append, List.length_cons]
      omega
    simp only [List.cons_append, enclosing]
    split
    · rename_i encloses
      simp only [Bool.and_eq_true, Bool.not_eq_true', decide_eq_true_eq] at encloses
      rw [List.mem_cons, or_iff_right longer, ih]
      refine and_congr_right fun _ => ?_
      simp only [List.mem_cons, forall_eq_or_imp, encloses.1, Bool.false_eq_true, false_or]
      exact ⟨fun h => ⟨h.1.trans encloses.2, h.1, h.2⟩, fun h => h.2⟩
    · rename_i apart
      rw [ih]
      refine and_congr_right fun _ => and_congr_right fun low => ?_
      simp only [List.mem_cons, forall_eq_or_imp]
      refine ⟨fun h => ⟨?_, h⟩, And.right⟩
      by_cases noop : other.noop = true
      · exact .inl noop
      · simp only [noop, Bool.not_false, Bool.true_and, decide_eq_true_eq] at apart
        omega

/-- Looking downward, a line is met as a descendant under the same condition. -/
theorem mem_nested_iff {limit start index : Nat} {lines : List Statement} :
    index ∈ (((lines.zipIdx start).takeWhile fun (other, _) => other.noop || limit < other.indent).filter
        fun (other, _) => !other.noop).map Prod.snd ↔
      ∃ between line after, lines = between ++ line :: after ∧ index = start + between.length ∧
        line.noop = false ∧ limit < line.indent ∧
        ∀ other ∈ between, other.noop ∨ limit < other.indent := by
  induction lines generalizing start with
  | nil => simp
  | cons first lines ih =>
    rw [List.zipIdx_cons, List.takeWhile_cons]
    by_cases inside : (first.noop || decide (limit < first.indent)) = true
    · simp only [inside, ↓reduceIte]
      have deeper : first.noop ∨ limit < first.indent := by simpa using inside
      have here : index ∈ (((first, start) :: (lines.zipIdx (start + 1)).takeWhile fun (other, _) =>
            other.noop || limit < other.indent).filter fun (other, _) => !other.noop).map Prod.snd ↔
          (first.noop = false ∧ index = start) ∨
            index ∈ (((lines.zipIdx (start + 1)).takeWhile fun (other, _) =>
              other.noop || limit < other.indent).filter fun (other, _) => !other.noop).map
                Prod.snd := by
        by_cases noop : first.noop = true <;> simp [noop]
      rw [here, ih]
      constructor
      · rintro (⟨noop, rfl⟩ | ⟨between, line, after, rfl, rfl, noop, low, all⟩)
        · exact ⟨[], first, lines, rfl, rfl, noop, by simpa [noop] using deeper, by simp⟩
        · exact ⟨first :: between, line, after, rfl, by simp; omega, noop, low, by simpa [deeper] using all⟩
      · rintro ⟨between, line, after, split, rfl, noop, low, all⟩
        cases between with
        | nil =>
          cases (List.cons.inj split).1
          exact .inl ⟨noop, rfl⟩
        | cons other between =>
          obtain ⟨rfl, rest⟩ := List.cons.inj split
          refine .inr ⟨between, line, after, rest, by simp; omega, noop, low, ?_⟩
          exact fun other member => all other (List.mem_cons_of_mem _ member)
    · simp only [inside, Bool.false_eq_true, ↓reduceIte, List.filter_nil, List.map_nil, List.not_mem_nil,
        false_iff]
      rintro ⟨between, line, after, split, _, noop, low, all⟩
      cases between with
      | nil =>
        cases (List.cons.inj split).1
        simp [low] at inside
      | cons other between =>
        cases (List.cons.inj split).1
        exact inside (by simpa using all first (by simp))

theorem mem_descendants_split {before rest : List Statement} {line : Statement} {index : Nat} :
    index ∈ descendants (before ++ line :: rest) before.length ↔
      ∃ between other after, rest = between ++ other :: after ∧
        index = before.length + 1 + between.length ∧ other.noop = false ∧
        line.indent < other.indent ∧ ∀ mid ∈ between, mid.noop ∨ line.indent < mid.indent := by
  have here : (before ++ line :: rest)[before.length]? = some line := by simp
  have below : (before ++ line :: rest).zipIdx.drop (before.length + 1) =
      rest.zipIdx (before.length + 1) := by
    rw [List.zipIdx_append, List.zipIdx_cons, ← List.drop_drop, List.drop_left' (by simp),
      List.drop_one, List.tail_cons, Nat.zero_add]
  simp only [descendants, here, below]
  exact mem_nested_iff

theorem mem_ancestors_split {before between after : List Statement} {line other : Statement} :
    before.length ∈ ancestors (before ++ line :: (between ++ other :: after))
        (before.length + 1 + between.length) ↔
      other.noop = false ∧ line.noop = false ∧ line.indent < other.indent ∧
        ∀ mid ∈ between, mid.noop ∨ line.indent < mid.indent := by
  have whole : before ++ line :: (between ++ other :: after) =
      (before ++ line :: between) ++ other :: after := by simp
  have length : (before ++ line :: between).length = before.length + 1 + between.length := by
    simp
    omega
  have here : (before ++ line :: (between ++ other :: after))[before.length + 1 + between.length]? =
      some other := by
    rw [whole, ← length]
    simp
  have upward : above (before ++ line :: (between ++ other :: after))
      (before.length + 1 + between.length) = between.reverse ++ line :: before.reverse := by
    rw [above, whole, ← length, List.take_left]
    simp
  simp only [ancestors, here, upward]
  by_cases noop : other.noop = true
  · simp [noop]
  · simp only [noop, Bool.false_eq_true, ↓reduceIte, true_and]
    rw [← List.length_reverse, length_mem_enclosing]
    simp

/-- A line that takes part in the hierarchy contains what is nested under it. -/
theorem mem_descendants_iff {lines : List Statement} {outer index : Nat}
    (takesPart : ∀ line, lines[outer]? = some line → line.noop = false) :
    index ∈ descendants lines outer ↔ outer ∈ ancestors lines index := by
  constructor
  · intro member
    cases found : lines[outer]? with
    | none => simp [descendants, found] at member
    | some line =>
      obtain ⟨before, rest, rfl, rfl⟩ := exists_split found
      obtain ⟨between, other, after, rfl, rfl, noop, low, all⟩ := mem_descendants_split.mp member
      exact mem_ancestors_split.mpr ⟨noop, takesPart line found, low, all⟩
  · intro member
    have inside : outer < index := lt_of_mem_ancestors member
    obtain ⟨line, found⟩ : ∃ line, lines[outer]? = some line := by
      obtain ⟨line, _, found⟩ := List.mem_map.mp
        ((map_get_ancestors lines index) ▸ List.mem_map_of_mem (f := fun i => lines[i]?) member)
      exact ⟨line, found.symm⟩
    obtain ⟨other, present⟩ := exists_line_of_mem_ancestors member
    obtain ⟨before, rest, rfl, rfl⟩ := exists_split found
    rw [List.getElem?_append_right (by omega), List.getElem?_cons] at present
    obtain ⟨between, after, rfl, length⟩ := exists_split (by simpa [Nat.sub_eq_zero_iff_le, Nat.not_le.mpr inside] using present)
    obtain rfl : index = before.length + 1 + between.length := by omega
    obtain ⟨noop, _, low, all⟩ := mem_ancestors_split.mp member
    exact mem_descendants_split.mpr ⟨between, other, after, rfl, rfl, noop, low, all⟩

end Duality

end OutlineTypes.Outline
