import OutlineTypes.Proofs.Cruft
import OutlineTypes.Proofs.Graph.Scope
import OutlineTypes.Proofs.Resolution.Reachability

/-! Orderly sessions. Around every parallel stand containers that are raked to the end with all below them,
a layer that was begun is complete, and every parallel that is raked to the end has a base for each
annotation that is no cruft. All of this holds between any two steps of raking, whatever rakings are
under way. -/
namespace OutlineTypes

namespace TypePath

theorem upTo_length (path : TypePath) : path.upTo path.length = path := by
  have positive := path.length_pos
  refine ext_names rfl ?_
  simp only [upTo, length] at positive ⊢
  exact List.take_of_length_le (by omega)

theorem names_upTo (path : TypePath) {count : Nat} (positive : 1 ≤ count) :
    (path.upTo count).names = path.names.take count := by
  simp only [upTo, Nat.max_eq_right positive]

theorem length_upTo {path : TypePath} {count : Nat} (positive : 1 ≤ count) (bound : count ≤ path.length) :
    (path.upTo count).length = count := by
  simp only [length, upTo, List.length_take] at bound ⊢
  omega

theorem upTo_eq_child {path outer : TypePath} {name : Name} {more : List Name}
    (document : path.document = outer.document) (names : path.names = outer.names ++ name :: more) :
    path.upTo (outer.length + 1) = outer.child name := by
  refine ext_names document ?_
  rw [names_upTo path (by omega), names, names_child, length, List.take_append]
  simp

theorem container?_upTo_succ {path : TypePath} {count : Nat} (positive : 1 ≤ count)
    (bound : count < path.length) : (path.upTo (count + 1)).container? = some (path.upTo count) := by
  have length : (path.upTo (count + 1)).length = count + 1 := length_upTo (by omega) bound
  have nested : (path.upTo (count + 1)).isRoot = false := by
    simp only [isRoot, length, decide_eq_false_iff_not]
    omega
  simp only [container?, nested, Bool.false_eq_true, ↓reduceIte, length, Option.some.injEq]
  refine ext_names rfl ?_
  simp only [upTo, List.take_take, Nat.add_sub_cancel]
  congr 1
  omega

theorem container?_inScope {path outer : TypePath} {longitude : Nat} {subject : Name}
    (h : (path.inScope longitude subject).container? = some outer) :
    1 ≤ path.length - longitude - 1 ∧ outer = path.upTo (path.length - longitude - 1) := by
  obtain ⟨document, names, length⟩ := of_container? h
  have scope : outer.names = path.names.take (path.length - longitude - 1) := by
    rw [names, inScope, List.dropLast_concat]
  have positive := outer.length_pos
  have inside : 1 ≤ path.length - longitude - 1 := by
    simp only [TypePath.length, scope, List.length_take] at positive ⊢
    omega
  refine ⟨inside, ext_names document ?_⟩
  simp only [scope, upTo, Nat.max_eq_right inside]

theorem length_inScope {path : TypePath} {longitude : Nat} {subject : Name}
    (bound : longitude < path.length) : (path.inScope longitude subject).length + longitude = path.length := by
  simp only [length, inScope, List.length_append, List.length_take, List.length_singleton] at bound ⊢
  omega

theorem child_injective {path other : TypePath} {name : Name} (same : path.child name = other.child name) :
    path = other := by
  have outer := container?_child path name
  rw [same, container?_child] at outer
  exact (Option.some.inj outer).symm

end TypePath

namespace Session

variable {scene : Scene} {session next : Session} {name : Name}

/-- The container of the path has a parallel, and all below it is settled. -/
def Enclosed (session : Session) (path : TypePath) : Prop :=
  ∀ outer, path.container? = some outer → ∃ around, session.lookup? outer = some around ∧ session.Deep around

/-- The parallel has a child of this name. -/
def HasChild (session : Session) (name : Name) (id : ParallelId) : Prop :=
  ∃ child, session.ChildOf name id child

/-- The base is the explicit parallel of a successor of the edge. -/
def Meant (session : Session) (edge : Edge) (base : ParallelId) : Prop :=
  ∃ candidate ∈ edge.successors, ∃ parallel, session.parallel? base = some parallel ∧
    parallel.explicit.map Resolved.node = some candidate.node

/-- Of these edges those that are no cruft have a base, and nothing else has one. -/
structure Answered (session : Session) (edges : List Edge) (bases : OrderedMap EdgeId ParallelId) : Prop where
  answers : ∀ edge ∈ edges, session.cruft.hasEdge edge.id = false → ∃ base, (edge.id, base) ∈ bases.entries
  asked : ∀ entry ∈ bases.entries, session.cruft.hasEdge entry.1 = false ∧
    ∃ edge ∈ edges, edge.id = entry.1 ∧ session.Meant edge entry.2

structure Orderly (scene : Scene) (session : Session) : Prop where
  enclosed : ∀ id parallel, session.parallel? id = some parallel → session.Enclosed parallel.path
  /-- What has a child has one for each of its branches from which the name is reached. -/
  complete : ∀ id name, session.HasChild name id →
    ∀ branch ∈ session.branchesOf id, session.Reaches scene name branch → session.HasChild name branch
  kinds : ∀ id parallel, session.parallel? id = some parallel →
    parallel.explicit.map Resolved.node = session.soundNode? scene parallel.path
  roots : ∀ id parallel, session.parallel? id = some parallel → parallel.path.container? = none →
    parallel.isExplicit
  /-- No base is found for a parallel before its raking begins. -/
  pristine : ∀ id parallel, session.parallel? id = some parallel → parallel.raked = false →
    parallel.baseEntries = []
  shorter : ∀ id parallel, session.parallel? id = some parallel → ∀ branch ∈ parallel.branches,
    ∀ other, session.parallel? branch = some other → other.path.length ≤ parallel.path.length
  edgesRaked : ∀ id ∈ session.settled, ∀ edge ∈ session.edgesOf id,
    ∃ parallel, session.parallel? edge = some parallel ∧ parallel.raked
  answered : ∀ id ∈ session.settled, ∀ parallel, session.parallel? id = some parallel →
    ∀ resolved, parallel.explicit = some resolved →
      session.Answered (scene.graph.outbounds resolved.node) resolved.bases

/-- What is said of a session depends on its parallels, on what settled and on its cruft. -/
theorem Orderly.congr (orderly : session.Orderly scene) (parallels : next.parallels = session.parallels)
    (settled : next.settled = session.settled) (cruft : next.cruft = session.cruft) : next.Orderly scene := by
  cases session; cases next
  cases parallels; cases settled; cases cruft
  refine ⟨orderly.enclosed, orderly.complete, orderly.kinds, orderly.roots, orderly.pristine,
    orderly.shorter, orderly.edgesRaked, fun id member parallel found resolved explicit => ?_⟩
  obtain ⟨answers, asked⟩ := orderly.answered id member parallel found resolved explicit
  exact ⟨answers, asked⟩

/-- Sessions look at no more of a scene than its graph. -/
theorem Orderly.congr_scene {other : Scene} (orderly : session.Orderly scene)
    (graph : other.graph = scene.graph) : session.Orderly other := by
  cases scene; cases other
  cases graph
  exact ⟨orderly.enclosed, orderly.complete, orderly.kinds, orderly.roots, orderly.pristine,
    orderly.shorter, orderly.edgesRaked, orderly.answered⟩

theorem Meant.mono {edge : Edge} {base : ParallelId} (meant : session.Meant edge base)
    (keeps : ∀ id parallel, session.parallel? id = some parallel → ∃ now, next.parallel? id = some now ∧
      now.explicit.map Resolved.node = parallel.explicit.map Resolved.node) : next.Meant edge base := by
  obtain ⟨candidate, listed, parallel, found, node⟩ := meant
  obtain ⟨now, present, same⟩ := keeps base parallel found
  exact ⟨candidate, listed, now, present, same.trans node⟩

theorem Answered.mono {edges : List Edge} {bases : OrderedMap EdgeId ParallelId}
    (answered : session.Answered edges bases)
    (cruft : ∀ edge ∈ edges, next.cruft.hasEdge edge.id = session.cruft.hasEdge edge.id)
    (keeps : ∀ id parallel, session.parallel? id = some parallel → ∃ now, next.parallel? id = some now ∧
      now.explicit.map Resolved.node = parallel.explicit.map Resolved.node) : next.Answered edges bases where
  answers edge member sound := answered.answers edge member (cruft edge member ▸ sound)
  asked entry member := by
    obtain ⟨sound, edge, listed, same, meant⟩ := answered.asked entry member
    rw [← same, ← cruft edge listed] at sound
    exact ⟨same ▸ sound, edge, listed, same, meant.mono keeps⟩

namespace Orderly

variable (orderly : session.Orderly scene) (sane : session.Sane scene.graph)

include orderly sane in
theorem deep_of_hasChild {id : ParallelId} (child : session.HasChild name id) : session.Deep id := by
  obtain ⟨child, around, parallel, found, present, path⟩ := child
  obtain ⟨other, cached, deep⟩ := orderly.enclosed child parallel present around.path
    (path ▸ TypePath.container?_child around.path name)
  cases (sane.lookup?_path found).symm.trans cached
  exact deep

include orderly sane in
/-- All containers around a parallel have parallels, not only the next. -/
theorem enclosed_upTo {id : ParallelId} {parallel : Parallel} (found : session.parallel? id = some parallel)
    (gap count : Nat) (positive : 1 ≤ count) (length : count + gap + 1 = parallel.path.length) :
    ∃ around, session.lookup? (parallel.path.upTo count) = some around ∧ session.Deep around := by
  induction gap generalizing count with
  | zero =>
    have container := TypePath.container?_upTo_succ positive (show count < parallel.path.length by omega)
    rw [show count + 1 = parallel.path.length by omega, TypePath.upTo_length] at container
    exact orderly.enclosed id parallel found _ container
  | succ gap ih =>
    obtain ⟨around, cached, _⟩ := ih (count + 1) (by omega) (by omega)
    obtain ⟨outer, present, path⟩ := sane.lookup?_eq_some cached
    have container := TypePath.container?_upTo_succ positive (show count < parallel.path.length by omega)
    exact orderly.enclosed around outer present _ (path ▸ container)

include orderly sane in
/-- What an annotation of a parallel may mean lies in a container around the parallel. -/
theorem enclosed_inScope {id : ParallelId} {parallel : Parallel}
    (found : session.parallel? id = some parallel) {longitude : Nat} (subject : Name)
    (bound : longitude < parallel.path.length) : session.Enclosed (parallel.path.inScope longitude subject) := by
  intro outer container
  obtain ⟨positive, rfl⟩ := TypePath.container?_inScope container
  exact orderly.enclosed_upTo sane found longitude _ positive (by omega)

end Orderly

theorem Enclosed.steady {path : TypePath} (enclosed : session.Enclosed path) (steady : Steady session next)
    (lookups : ∀ path id, session.lookup? path = some id → next.lookup? path = some id) :
    next.Enclosed path := by
  intro outer container
  obtain ⟨around, cached, deep⟩ := enclosed outer container
  exact ⟨around, lookups outer around cached, steady.deep deep⟩

section Revise

/-- A change of one parallel that keeps what makes a session orderly. -/
structure Tidy (session : Session) (parallel now : Parallel) : Prop where
  path : now.path = parallel.path
  node : now.explicit.map Resolved.node = parallel.explicit.map Resolved.node
  raked : parallel.raked → now.raked
  pristine : now.raked = false → now.baseEntries = []
  shorter : ∀ branch ∈ now.branches, ∀ other, session.parallel? branch = some other →
    other.path.length ≤ parallel.path.length

theorem isExplicit_congr {parallel now : Parallel}
    (node : now.explicit.map Resolved.node = parallel.explicit.map Resolved.node) :
    now.isExplicit = parallel.isExplicit := by
  have same := congrArg Option.isSome node
  simp only [Option.isSome_map] at same
  exact same

variable {change : ParallelId → Parallel → Parallel}

section Parallels

variable (revised : ∀ id, next.parallel? id = (session.parallel? id).map (change id))
  (tidy : ∀ id parallel, session.parallel? id = some parallel → Tidy session parallel (change id parallel))
include revised tidy

theorem Tidy.origin {id : ParallelId} {now : Parallel} (found : next.parallel? id = some now) :
    ∃ parallel, session.parallel? id = some parallel ∧ Tidy session parallel now := by
  rw [revised] at found
  obtain ⟨parallel, before, rfl⟩ := Option.map_eq_some_iff.mp found
  exact ⟨parallel, before, tidy id parallel before⟩

theorem Tidy.onward {id : ParallelId} {parallel : Parallel} (found : session.parallel? id = some parallel) :
    ∃ now, next.parallel? id = some now ∧ Tidy session parallel now :=
  ⟨change id parallel, by rw [revised, found]; rfl, tidy id parallel found⟩

theorem Tidy.lookup? (sane : session.Sane scene.graph) (nextSane : next.Sane scene.graph) {path : TypePath}
    {id : ParallelId} (cached : session.lookup? path = some id) : next.lookup? path = some id := by
  obtain ⟨parallel, found, rfl⟩ := sane.lookup?_eq_some cached
  obtain ⟨now, present, tidy⟩ := Tidy.onward revised tidy found
  exact tidy.path ▸ nextSane.lookup?_path present

theorem Tidy.hasChild_iff {name : Name} {id : ParallelId} : next.HasChild name id ↔ session.HasChild name id := by
  constructor
  · rintro ⟨child, around, parallel, found, present, path⟩
    obtain ⟨outer, before, same⟩ := Tidy.origin revised tidy found
    obtain ⟨inner, there, also⟩ := Tidy.origin revised tidy present
    exact ⟨child, outer, inner, before, there, by rw [← also.path, path, same.path]⟩
  · rintro ⟨child, around, parallel, found, present, path⟩
    obtain ⟨outer, before, same⟩ := Tidy.onward revised tidy found
    obtain ⟨inner, there, also⟩ := Tidy.onward revised tidy present
    exact ⟨child, outer, inner, before, there, by rw [also.path, path, same.path]⟩

end Parallels

/-- Changes of parallels that are not settled, and marks on other edges than those of settled ones. -/
theorem Orderly.revise (orderly : session.Orderly scene) (sane : session.Sane scene.graph)
    (nextSane : next.Sane scene.graph) (steady : Steady session next) (settled : next.settled = session.settled)
    (revised : ∀ id, next.parallel? id = (session.parallel? id).map (change id))
    (tidy : ∀ id parallel, session.parallel? id = some parallel → Tidy session parallel (change id parallel))
    (cruft : ∀ id ∈ session.settled, ∀ parallel, session.parallel? id = some parallel →
      ∀ resolved, parallel.explicit = some resolved → ∀ edge ∈ scene.graph.outbounds resolved.node,
        next.cruft.hasEdge edge.id = session.cruft.hasEdge edge.id) : next.Orderly scene := by
  have origin {id : ParallelId} {now : Parallel} (found : next.parallel? id = some now) :=
    Tidy.origin revised tidy found
  have hasChild {name : Name} {id : ParallelId} : next.HasChild name id ↔ session.HasChild name id :=
    Tidy.hasChild_iff revised tidy
  constructor
  · intro id now found
    obtain ⟨parallel, before, same⟩ := origin found
    rw [same.path]
    exact (orderly.enclosed id parallel before).steady steady fun _ _ =>
      Tidy.lookup? revised tidy sane nextSane
  · intro id name child branch member reaches
    have before := hasChild.mp child
    have deep := orderly.deep_of_hasChild sane before
    rw [steady.branchesOf deep.settled] at member
    have below := deep.below (.single member)
    exact hasChild.mpr (orderly.complete id name before branch member ((steady.reaches_iff below).mp reaches))
  · intro id now found
    obtain ⟨parallel, before, tidy⟩ := origin found
    rw [tidy.node, tidy.path, soundNode?_congr steady.nodes]
    exact orderly.kinds id parallel before
  · intro id now found root
    obtain ⟨parallel, before, tidy⟩ := origin found
    rw [isExplicit_congr tidy.node]
    exact orderly.roots id parallel before (tidy.path ▸ root)
  · intro id now found unraked
    obtain ⟨parallel, before, tidy⟩ := origin found
    exact tidy.pristine unraked
  · intro id now found branch member other present
    obtain ⟨parallel, before, tidy⟩ := origin found
    obtain ⟨onto, there, same⟩ := origin present
    rw [same.path, tidy.path]
    exact tidy.shorter branch member onto there
  · intro id member edge listed
    rw [settled] at member
    have before : edge ∈ session.edgesOf id := by
      rw [edgesOf, steady.parallels id member] at listed
      exact listed
    obtain ⟨parallel, found, raked⟩ := orderly.edgesRaked id member edge before
    obtain ⟨now, present, tidy⟩ := Tidy.onward revised tidy found
    exact ⟨now, present, tidy.raked raked⟩
  · intro id member now found resolved explicit
    rw [settled] at member
    rw [steady.parallels id member] at found
    refine (orderly.answered id member now found resolved explicit).mono
      (cruft id member now found resolved explicit) fun other parallel there => ?_
    obtain ⟨now, present, tidy⟩ := Tidy.onward revised tidy there
    exact ⟨now, present, tidy.node⟩

end Revise

/-- A parallel settles once what it overrides is raked and its edges are answered. -/
theorem Orderly.settle (orderly : session.Orderly scene) {id : ParallelId}
    (raked : ∀ edge ∈ session.edgesOf id, ∃ parallel, session.parallel? edge = some parallel ∧ parallel.raked)
    (answered : ∀ parallel, session.parallel? id = some parallel → ∀ resolved,
      parallel.explicit = some resolved →
        session.Answered (scene.graph.outbounds resolved.node) resolved.bases) :
    { session with settled := session.settled ++ [id] }.Orderly scene where
  enclosed other parallel found outer container := by
    obtain ⟨around, cached, deep⟩ := orderly.enclosed other parallel found outer container
    exact ⟨around, cached, fun last below => List.mem_append_left _ (deep last below)⟩
  complete := orderly.complete
  kinds := orderly.kinds
  roots := orderly.roots
  pristine := orderly.pristine
  shorter := orderly.shorter
  edgesRaked other member := by
    rcases List.mem_append.mp member with before | new
    · exact orderly.edgesRaked other before
    · exact List.mem_singleton.mp new ▸ raked
  answered other member parallel found resolved explicit := by
    rcases List.mem_append.mp member with before | new
    · obtain ⟨answers, asked⟩ := orderly.answered other before parallel found resolved explicit
      exact ⟨answers, asked⟩
    · cases List.mem_singleton.mp new
      obtain ⟨answers, asked⟩ := answered parallel found resolved explicit
      exact ⟨answers, asked⟩

end Session
end OutlineTypes
