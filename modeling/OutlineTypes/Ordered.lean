/-! Sets that remember insertion order. Inserting a member again leaves it where it is. -/
namespace OutlineTypes

structure OrderedSet (α : Type u) where
  toList : List α
  nodup : toList.Nodup
deriving DecidableEq

namespace OrderedSet

@[ext] theorem ext_toList {s t : OrderedSet α} (h : s.toList = t.toList) : s = t := by
  cases s; cases t; cases h; rfl

def empty : OrderedSet α := ⟨[], List.nodup_nil⟩

instance : EmptyCollection (OrderedSet α) := ⟨empty⟩
instance : Inhabited (OrderedSet α) := ⟨empty⟩
instance : Membership α (OrderedSet α) := ⟨fun s x => x ∈ s.toList⟩

theorem mem_def {s : OrderedSet α} {x : α} : x ∈ s ↔ x ∈ s.toList := .rfl

def size (s : OrderedSet α) : Nat := s.toList.length

def isEmpty (s : OrderedSet α) : Bool := s.toList.isEmpty

def filter (p : α → Bool) (s : OrderedSet α) : OrderedSet α :=
  ⟨s.toList.filter p, s.nodup.filter p⟩

@[simp] theorem toList_empty : (∅ : OrderedSet α).toList = [] := rfl

@[simp] theorem toList_filter (p : α → Bool) (s : OrderedSet α) :
    (s.filter p).toList = s.toList.filter p := rfl

@[simp] theorem not_mem_empty (x : α) : x ∉ (∅ : OrderedSet α) := by simp [mem_def]

@[simp] theorem mem_filter {p : α → Bool} {s : OrderedSet α} {y : α} :
    y ∈ s.filter p ↔ y ∈ s ∧ p y := by
  simp [mem_def]

theorem isEmpty_iff {s : OrderedSet α} : s.isEmpty ↔ ∀ x, x ∉ s := by
  simp [isEmpty, mem_def, List.eq_nil_iff_forall_not_mem]

variable [DecidableEq α]

instance (s : OrderedSet α) (x : α) : Decidable (x ∈ s) := inferInstanceAs (Decidable (x ∈ s.toList))

/-- Adds a new member at the end. -/
def insert (s : OrderedSet α) (x : α) : OrderedSet α :=
  if h : x ∈ s.toList then s
  else ⟨s.toList ++ [x], by
    refine List.nodup_append.mpr ⟨s.nodup, by simp, ?_⟩
    rintro y hy z hz rfl
    exact h (List.mem_singleton.mp hz ▸ hy)⟩

def insertAll (s : OrderedSet α) (xs : List α) : OrderedSet α := xs.foldl insert s

def ofList (xs : List α) : OrderedSet α := insertAll ∅ xs

/-- Removes a member; the others keep their order. -/
def erase (s : OrderedSet α) (x : α) : OrderedSet α := ⟨s.toList.erase x, s.nodup.erase x⟩

theorem toList_insert (s : OrderedSet α) (x : α) :
    (s.insert x).toList = if x ∈ s then s.toList else s.toList ++ [x] := by
  unfold insert
  by_cases h : x ∈ s.toList <;> simp [h, mem_def]

@[simp] theorem toList_erase (s : OrderedSet α) (x : α) :
    (s.erase x).toList = s.toList.erase x := rfl

@[simp] theorem mem_insert {s : OrderedSet α} {x y : α} : y ∈ s.insert x ↔ y ∈ s ∨ y = x := by
  rw [mem_def, toList_insert]
  by_cases h : x ∈ s
  · simp only [h, ↓reduceIte, ← mem_def]
    exact ⟨.inl, fun m => m.elim id fun e => e ▸ h⟩
  · simp [h, mem_def]

@[simp] theorem mem_insertAll {s : OrderedSet α} {xs : List α} {y : α} :
    y ∈ s.insertAll xs ↔ y ∈ s ∨ y ∈ xs := by
  induction xs generalizing s with
  | nil => simp [insertAll]
  | cons x xs ih =>
    simp only [insertAll, List.foldl_cons, List.mem_cons] at ih ⊢
    rw [ih, mem_insert, or_assoc]

@[simp] theorem mem_ofList {xs : List α} {y : α} : y ∈ ofList xs ↔ y ∈ xs := by
  simp [ofList]

@[simp] theorem mem_erase {s : OrderedSet α} {x y : α} : y ∈ s.erase x ↔ y ≠ x ∧ y ∈ s := by
  simp only [mem_def, toList_erase]
  exact s.nodup.mem_erase_iff

end OrderedSet

/-! Maps that remember insertion order. A key that is bound again keeps its position. -/

structure OrderedMap (κ : Type u) (α : Type v) where
  entries : List (κ × α)
  nodup : (entries.map Prod.fst).Nodup
deriving DecidableEq

namespace OrderedMap

@[ext] theorem ext_entries {m n : OrderedMap κ α} (h : m.entries = n.entries) : m = n := by
  cases m; cases n; cases h; rfl

def empty : OrderedMap κ α := ⟨[], by simp⟩

instance : EmptyCollection (OrderedMap κ α) := ⟨empty⟩
instance : Inhabited (OrderedMap κ α) := ⟨empty⟩

def size (m : OrderedMap κ α) : Nat := m.entries.length

def isEmpty (m : OrderedMap κ α) : Bool := m.entries.isEmpty

def keys (m : OrderedMap κ α) : List κ := m.entries.map Prod.fst

def values (m : OrderedMap κ α) : List α := m.entries.map Prod.snd

variable [DecidableEq κ]

def find? (m : OrderedMap κ α) (key : κ) : Option α :=
  (m.entries.find? (·.1 = key)).map Prod.snd

def contains (m : OrderedMap κ α) (key : κ) : Bool := m.entries.any (·.1 = key)

/-- The entries with `value` at `key`. -/
def put (entries : List (κ × α)) (key : κ) (value : α) : List (κ × α) :=
  match entries with
  | [] => [(key, value)]
  | entry :: rest =>
    if entry.1 = key then (key, value) :: rest else entry :: put rest key value

theorem mem_keys_put (entries : List (κ × α)) (key : κ) (value : α) (k : κ) :
    k ∈ (put entries key value).map Prod.fst ↔ k = key ∨ k ∈ entries.map Prod.fst := by
  induction entries with
  | nil => simp [put]
  | cons entry rest ih =>
    unfold put
    split
    · rename_i h
      simp [← h]
    · simp only [List.map_cons, List.mem_cons, ih]
      exact or_left_comm

theorem nodup_put (entries : List (κ × α)) (key : κ) (value : α)
    (h : (entries.map Prod.fst).Nodup) : ((put entries key value).map Prod.fst).Nodup := by
  induction entries with
  | nil => simp [put]
  | cons entry rest ih =>
    rw [List.map_cons, List.nodup_cons] at h
    unfold put
    split
    · rename_i same
      rw [List.map_cons, List.nodup_cons]
      exact ⟨same ▸ h.1, h.2⟩
    · rename_i other
      rw [List.map_cons, List.nodup_cons, mem_keys_put]
      exact ⟨fun m => m.elim other h.1, ih h.2⟩

/-- Binds `key`, in place if it was bound and at the end if not. -/
def insert (m : OrderedMap κ α) (key : κ) (value : α) : OrderedMap κ α :=
  ⟨put m.entries key value, nodup_put m.entries key value m.nodup⟩

/-- Keeps the entries that `p` accepts. -/
def filter (p : κ → α → Bool) (m : OrderedMap κ α) : OrderedMap κ α :=
  ⟨m.entries.filter fun entry => p entry.1 entry.2,
    m.nodup.sublist (List.filter_sublist.map Prod.fst)⟩

def erase (m : OrderedMap κ α) (key : κ) : OrderedMap κ α := m.filter fun k _ => k ≠ key

/-- Changes the value at `key`, which starts as the default one. -/
def alter [Inhabited α] (m : OrderedMap κ α) (key : κ) (change : α → α) : OrderedMap κ α :=
  m.insert key (change ((m.find? key).getD default))

/-- Changes the value at `key` if there is one, and unbinds the key if this leaves nothing. -/
def prune (vacant : α → Bool) (m : OrderedMap κ α) (key : κ) (change : α → α) : OrderedMap κ α :=
  match m.find? key with
  | none => m
  | some value =>
    let rest := change value
    if vacant rest then m.erase key else m.insert key rest

@[simp] theorem find?_empty (key : κ) : (∅ : OrderedMap κ α).find? key = none := rfl

@[simp] theorem contains_eq_isSome_find? (m : OrderedMap κ α) (key : κ) :
    m.contains key = (m.find? key).isSome := by
  simp only [contains, find?, Option.isSome_map]
  rw [Bool.eq_iff_iff, List.any_eq_true, List.find?_isSome]

theorem find?_insert (m : OrderedMap κ α) (key : κ) (value : α) (k : κ) :
    (m.insert key value).find? k = if k = key then some value else m.find? k := by
  simp only [insert, find?]
  induction m.entries with
  | nil => by_cases h : k = key <;> simp [put, h, eq_comm]
  | cons entry rest ih =>
    unfold put
    by_cases same : entry.1 = key
    · by_cases h : k = key
      · simp [same, h]
      · have hk : ¬ key = k := fun e => h e.symm
        simp [same, h, hk]
    · by_cases h : entry.1 = k
      · have hk : ¬ k = key := fun e => same (h.trans e)
        simp [h, hk]
      · simp only [same, ↓reduceIte, List.find?_cons, h, decide_false, ih]

theorem find?_erase (m : OrderedMap κ α) (key k : κ) :
    (m.erase key).find? k = if k = key then none else m.find? k := by
  simp only [erase, filter, find?, List.find?_filter]
  by_cases same : k = key
  · simp only [same, ↓reduceIte, Option.map_eq_none_iff, List.find?_eq_none]
    simp
  · simp only [same, ↓reduceIte]
    congr 2
    funext entry
    by_cases here : entry.1 = k
    · simp [here, same]
    · simp [here]

end OrderedMap

/-! Stable sorting by insertion: elements that the order does not separate keep their positions. -/

/-- Puts `x` in front of the first element it is at most as large as. -/
def insertSorted (le : α → α → Bool) (x : α) : List α → List α
  | [] => [x]
  | y :: ys => if le x y then x :: y :: ys else y :: insertSorted le x ys

def stableSort (le : α → α → Bool) (xs : List α) : List α := xs.foldr (insertSorted le) []

theorem insertSorted_perm (le : α → α → Bool) (x : α) (xs : List α) :
    (insertSorted le x xs).Perm (x :: xs) := by
  induction xs with
  | nil => exact .refl _
  | cons y ys ih =>
    unfold insertSorted
    split
    · exact .refl _
    · exact (ih.cons y).trans (.swap x y ys)

theorem stableSort_perm (le : α → α → Bool) (xs : List α) : (stableSort le xs).Perm xs := by
  induction xs with
  | nil => exact .refl _
  | cons x xs ih => exact (insertSorted_perm le x _).trans (ih.cons x)

@[simp] theorem mem_stableSort (le : α → α → Bool) (xs : List α) (x : α) :
    x ∈ stableSort le xs ↔ x ∈ xs := (stableSort_perm le xs).mem_iff

/-! Sets of small numbers, kept as the bits of one number. -/

structure Marks where
  bits : Nat
deriving DecidableEq

namespace Marks

def empty : Marks := ⟨0⟩

instance : EmptyCollection Marks := ⟨empty⟩

def contains (marks : Marks) (n : Nat) : Bool := marks.bits.testBit n

def insert (marks : Marks) (n : Nat) : Marks := ⟨marks.bits ||| 1 <<< n⟩

def insertAll (marks : Marks) (ns : List Nat) : Marks := ns.foldl insert marks

@[simp] theorem contains_empty (n : Nat) : (∅ : Marks).contains n = false := Nat.zero_testBit n

@[simp] theorem contains_insert (marks : Marks) (n m : Nat) :
    (marks.insert n).contains m = (marks.contains m || decide (n = m)) := by
  simp [contains, insert, Nat.testBit_or, Nat.one_shiftLeft, Nat.testBit_two_pow]

@[simp] theorem contains_insertAll (marks : Marks) (ns : List Nat) (m : Nat) :
    (marks.insertAll ns).contains m = (marks.contains m || decide (m ∈ ns)) := by
  induction ns generalizing marks with
  | nil => simp [insertAll]
  | cons n ns ih =>
    rw [insertAll, List.foldl_cons, ← insertAll, ih, contains_insert, Bool.or_assoc]
    simp [eq_comm]

end Marks

/-! What a successor function reaches, listed in the order in which it is first met. Elements carry
numbers, and marks tell which were met. Both searches are bounded by a count of elements: any bound on
those that can be met is enough. -/

variable (number : α → Nat) (next : α → List α)

/-- The elements that are not marked, each once, and the marks with theirs. -/
def unmarked (marks : Marks) : List α → List α × Marks
  | [] => ([], marks)
  | x :: xs =>
    if marks.contains (number x) then unmarked marks xs
    else
      let (rest, marks) := unmarked (marks.insert (number x)) xs
      (x :: rest, marks)

/-- The elements in order of first occurrence. -/
def distinct (xs : List α) : List α := (unmarked number ∅ xs).1

/-- Breadth first, layer by layer; `layer` and all before it are marked. -/
def layersFrom : Nat → Marks → List α → List α
  | 0, _, layer => layer
  | _, _, [] => []
  | bound + 1, marks, layer =>
    let (further, marks) := unmarked number marks (layer.flatMap next)
    layer ++ layersFrom bound marks further

/-- The elements of `start` and all that they reach, breadth first. -/
def breadthFirst (bound : Nat) (start : List α) : List α :=
  let (layer, marks) := unmarked number ∅ start
  layersFrom number next bound marks layer

/-- Depth first, with the most recently met element on top of `stack`: an element is listed when it is
taken off the stack unmarked, and its successors go on top, the last one uppermost. -/
def depthFirst : Nat → Marks → List α → List α
  | 0, _, _ => []
  | bound + 1, marks, stack =>
    match stack.dropWhile fun x => marks.contains (number x) with
    | [] => []
    | x :: rest => x :: depthFirst bound (marks.insert (number x)) ((next x).reverse ++ rest)

theorem contains_unmarked (marks : Marks) (xs : List α) (n : Nat) :
    (unmarked number marks xs).2.contains n = (marks.contains n || xs.any (number · = n)) := by
  induction xs generalizing marks with
  | nil => simp [unmarked]
  | cons x xs ih =>
    unfold unmarked
    split
    · rename_i marked
      rw [ih]
      by_cases same : number x = n
      · simp [← same, marked]
      · simp [same]
    · simp [ih, Bool.or_assoc]

theorem mem_of_mem_unmarked {marks : Marks} {xs : List α} {x : α}
    (member : x ∈ (unmarked number marks xs).1) : x ∈ xs ∧ marks.contains (number x) = false := by
  induction xs generalizing marks with
  | nil => simp [unmarked] at member
  | cons y xs ih =>
    unfold unmarked at member
    split at member
    · exact ⟨List.mem_cons_of_mem _ (ih member).1, (ih member).2⟩
    · rename_i fresh
      rcases List.mem_cons.mp member with rfl | member
      · exact ⟨List.mem_cons_self, by simpa using fresh⟩
      · have rest := ih member
        simp only [Marks.contains_insert, Bool.or_eq_false_iff] at rest
        exact ⟨List.mem_cons_of_mem _ rest.1, rest.2.1⟩

end OutlineTypes
