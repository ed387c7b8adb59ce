import OutlineTypes.Text

/-! Identities. Every kind of object is numbered by its owner in creation order. The numbers are counted
without end here; a program keeps them in 32 bits, in words that begin again after 2 ^ 32 of them. -/
namespace OutlineTypes

/-- A declared or annotated name. -/
abbrev Name := String

structure DocumentId where
  index : Nat
deriving DecidableEq

/-- One line of a document; `serial` counts every line ever read for it. -/
structure StatementId where
  document : DocumentId
  serial : Nat
deriving DecidableEq

/-- The side of the joint on which a name stands. -/
inductive Side where
  | declared
  | annotated
deriving DecidableEq

/-- A name within a statement, by its side and its position on that side. -/
structure SpanId where
  statement : StatementId
  side : Side
  position : Nat
deriving DecidableEq

structure NodeId where
  index : Nat
deriving DecidableEq

structure EdgeId where
  index : Nat
deriving DecidableEq

structure ParallelId where
  index : Nat
deriving DecidableEq

def DocumentId.word (id : DocumentId) : UInt32 := .ofNat id.index

/-- The number of a line within its document, as it is kept. -/
def StatementId.word (id : StatementId) : UInt32 := .ofNat id.serial

def NodeId.word (id : NodeId) : UInt32 := .ofNat id.index

def EdgeId.word (id : EdgeId) : UInt32 := .ofNat id.index

theorem word_eq_iff {count other : Nat} :
    UInt32.ofNat count = UInt32.ofNat other ↔ count % UInt32.size = other % UInt32.size := by
  rw [← UInt32.toNat_inj, UInt32.toNat_ofNat', UInt32.toNat_ofNat']

/-- Numbers that 32 bits hold have words of their own. -/
theorem eq_of_word_eq {count other : Nat} (small : count < UInt32.size) (bound : other < UInt32.size)
    (same : UInt32.ofNat count = UInt32.ofNat other) : count = other := by
  rwa [word_eq_iff, Nat.mod_eq_of_lt small, Nat.mod_eq_of_lt bound] at same

theorem ParallelId.eq_of_index (first second : ParallelId) (same : first.index = second.index) : first = second := by
  cases first; cases second; cases same; rfl

theorem ParallelId.mem_map_index {ids : List ParallelId} {id : ParallelId} : id.index ∈ ids.map index ↔ id ∈ ids := by
  rw [List.mem_map]
  refine ⟨?_, fun member => ⟨id, member, rfl⟩⟩
  rintro ⟨other, member, same⟩
  exact eq_of_index other id same ▸ member

theorem NodeId.eq_of_word_eq {node other : NodeId} (small : node.index < UInt32.size)
    (bound : other.index < UInt32.size) (same : node.word = other.word) : node = other := by
  cases node; cases other
  exact congrArg NodeId.mk (OutlineTypes.eq_of_word_eq small bound same)

theorem EdgeId.eq_of_word_eq {edge other : EdgeId} (small : edge.index < UInt32.size)
    (bound : other.index < UInt32.size) (same : edge.word = other.word) : edge = other := by
  cases edge; cases other
  exact congrArg EdgeId.mk (OutlineTypes.eq_of_word_eq small bound same)

instance : ToString DocumentId := ⟨fun id => "doc#" ++ toString id.index⟩
instance : ToString StatementId := ⟨fun id => toString id.document ++ ":s" ++ toString id.serial⟩
instance : ToString ParallelId := ⟨fun id => "p" ++ toString id.index⟩

namespace SpanId

/-- The order by document, then statement, then side with declarations first, then position. -/
def compare (a b : SpanId) : Ordering :=
  (Ord.compare a.statement.document.index b.statement.document.index).then
    ((Ord.compare a.statement.serial b.statement.serial).then
      ((Ord.compare (rank a.side) (rank b.side)).then (Ord.compare a.position b.position)))
where
  rank : Side → Nat
    | .declared => 0
    | .annotated => 1

end SpanId

/-! Type paths: the names from a document root down to a declaration. A path is the identity of a node
and of a parallel, so it has at least one name. -/

structure TypePath where
  document : DocumentId
  names : List Name
  names_ne : names ≠ []
deriving DecidableEq

namespace TypePath

@[ext] theorem ext_names {p q : TypePath} (document : p.document = q.document)
    (names : p.names = q.names) : p = q := by
  cases p; cases q; cases document; cases names; rfl

def ofNames? (document : DocumentId) (names : List Name) : Option TypePath :=
  if h : names = [] then none else some ⟨document, names, h⟩

/-- The segments of a written path, each without the white space around it. -/
def segments (text : String) : List Name :=
  (Text.pieces (· == '/') text.toList).map fun piece =>
    String.ofList (Text.trim Text.isBlank piece)

/-- Reads `A/B/C`. A segment with nothing in it makes the whole text no path. -/
def parse? (document : DocumentId) (text : String) : Option TypePath :=
  if "" ∈ segments text then none else ofNames? document (segments text)

/-- The names with a slash between each two. -/
def text (path : TypePath) : String := "/".intercalate path.names

instance : ToString TypePath := ⟨text⟩

def length (path : TypePath) : Nat := path.names.length

/-- The name at the document root. -/
def surface (path : TypePath) : Name := path.names.head path.names_ne

def tip (path : TypePath) : Name := path.names.getLast path.names_ne

def isRoot (path : TypePath) : Bool := path.length = 1

/-- The first `count` names, but at least one. -/
def upTo (path : TypePath) (count : Nat) : TypePath where
  document := path.document
  names := path.names.take (max 1 count)
  names_ne := by
    have := path.names_ne
    simp [List.take_eq_nil_iff, this]

/-- The path without its tip; a root path lies in no other. -/
def container? (path : TypePath) : Option TypePath :=
  if path.isRoot then none else some (path.upTo (path.length - 1))

def child (path : TypePath) (name : Name) : TypePath where
  document := path.document
  names := path.names ++ [name]
  names_ne := by simp

/-- `path` is `outer` or lies inside it. -/
def isWithin (path outer : TypePath) : Bool :=
  path.document = outer.document && outer.names.isPrefixOf path.names

/-- How far out `path` finds `target` in the scopes around it: 0 in its own container, and one more for
each scope further out, up to the document root. -/
def longitude? (path target : TypePath) : Option Nat :=
  if path.document = target.document && target.length ≤ path.length &&
      target.names.dropLast.isPrefixOf path.names then
    some (path.length - target.length)
  else none

@[simp] theorem document_upTo (path : TypePath) (count : Nat) :
    (path.upTo count).document = path.document := rfl

@[simp] theorem document_child (path : TypePath) (name : Name) :
    (path.child name).document = path.document := rfl

@[simp] theorem names_child (path : TypePath) (name : Name) :
    (path.child name).names = path.names ++ [name] := rfl

@[simp] theorem tip_child (path : TypePath) (name : Name) : (path.child name).tip = name := by
  simp [tip]

theorem length_pos (path : TypePath) : 0 < path.length :=
  List.length_pos_iff.mpr path.names_ne

theorem container?_child (path : TypePath) (name : Name) :
    (path.child name).container? = some path := by
  have positive := path.length_pos
  have two : path.length + 1 ≠ 1 := by omega
  simp only [container?, isRoot, length, names_child, List.length_append, List.length_singleton]
  simp only [length] at two
  simp only [two, decide_false, Bool.false_eq_true, ↓reduceIte, Nat.add_sub_cancel]
  have whole : max 1 path.names.length = path.names.length := by
    simp only [length] at positive
    omega
  have names : ((path.child name).upTo path.names.length).names = path.names := by
    simp [upTo, whole]
  exact congrArg some (ext_names rfl names)

/-- Two paths with one container and one tip are the same path. -/
theorem eq_child_of_container? {path outer : TypePath} (h : path.container? = some outer) :
    path = outer.child path.tip := by
  unfold container? at h
  split at h
  · contradiction
  · rename_i nested
    cases Option.some.inj h
    have positive := path.length_pos
    have two : 1 ≤ path.length - 1 := by
      simp only [isRoot, decide_eq_true_eq] at nested
      omega
    have shorter : max 1 (path.length - 1) = path.names.length - 1 := by
      simp only [length] at two ⊢
      omega
    have names : path.names = ((path.upTo (path.length - 1)).child path.tip).names := by
      simp only [names_child, upTo, shorter, tip, ← List.dropLast_eq_take]
      exact (List.dropLast_concat_getLast path.names_ne).symm
    exact ext_names rfl names

end TypePath

/-! Broken invariants. They are no faults of the input: each stands for a call that the library's own
callers must never make, and ends everything. -/

inductive Fatal where
  /-- A change of `document` was announced while one of `pending` was still under way. -/
  | overlapping (document pending : DocumentId)
  /-- The end of a change of `document` was announced, but the change under way is `pending`. -/
  | unpaired (document : DocumentId) (pending : Option DocumentId)
  /-- A region was named by a statement that the document does not hold. -/
  | absentStatement (statement : StatementId) (document : DocumentId)
  /-- A path was to be declared before the path it lies in. -/
  | missingContainer (container path : TypePath)
  /-- A node was to go while others still lie in it. -/
  | occupiedNode (path : TypePath) (contents : Nat)
  /-- A node was looked up that the graph does not hold. -/
  | missingNode (node : NodeId)
  /-- A path was to get a second parallel. -/
  | duplicateParallel (path : TypePath)
  /-- A parallel was looked up that the session does not hold. -/
  | foreignParallel (parallel : ParallelId)
  /-- The node behind a parallel is not in the graph. -/
  | lostNode (path : TypePath) (node : NodeId)
  /-- Resolution went deeper than there are nodes and parallels to go through. -/
  | bottomless
deriving DecidableEq

namespace Fatal

def nodeName (node : NodeId) : String := "NodeId(" ++ toString node.index ++ ")"

def pendingName : Option DocumentId → String
  | none => "None"
  | some document => "Some(DocumentId(" ++ toString document.index ++ "))"

def message : Fatal → String
  | overlapping document pending =>
    "invalidate for " ++ toString document ++ " while the transaction on " ++ toString pending ++
      " has not been revalidated"
  | unpaired document pending =>
    "revalidate for " ++ toString document ++ " does not pair with the open invalidate (" ++
      pendingName pending ++ ")"
  | absentStatement statement document =>
    "notification names statement " ++ toString statement ++ " which is not in " ++ toString document
  | missingContainer container path =>
    "container " ++ container.text ++ " of " ++ path.text ++
      " has not been included; declarations must be included breadth-first"
  | occupiedNode path contents =>
    "node " ++ path.text ++ " lost its last declaration while still containing " ++
      toString contents ++ " node(s)"
  | missingNode node => "node " ++ nodeName node ++ " is not in the graph"
  | duplicateParallel path => "parallel for " ++ path.text ++ " already exists in this session"
  | foreignParallel parallel =>
    "parallel " ++ toString parallel ++ " does not belong to this session"
  | lostNode path node =>
    "parallel " ++ path.text ++ " refers to node " ++ nodeName node ++ " which left the graph"
  | bottomless => "resolution did not end"

end Fatal
end OutlineTypes
