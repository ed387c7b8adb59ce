import OutlineTypes.Arena
import OutlineTypes.Proofs.Graph.Calls

/-! Indexes. The graph of an arena is what it holds without its indexes. The arena is tidy when each index lists
what a search through that graph would find, in the same order. -/
namespace OutlineTypes

namespace OrderedMap

variable [DecidableEq κ] {m : OrderedMap κ α} {list : α → List β} {members next : κ → List β} {key : κ}

/-- Each key that has members is bound to a value that lists them, and no other key is bound. -/
structure Groups (m : OrderedMap κ α) (list : α → List β) (members : κ → List β) : Prop where
  listed : ∀ key, (m.find? key).elim [] list = members key
  full : ∀ key value, m.find? key = some value → list value ≠ []

namespace Groups

theorem list_eq (groups : m.Groups list members) {value : α} (bound : m.find? key = some value) :
    list value = members key := by
  rw [← groups.listed key, bound]
  rfl

theorem eq_nil_of_find? (groups : m.Groups list members) (free : m.find? key = none) : members key = [] := by
  rw [← groups.listed key, free]
  rfl

theorem find?_eq_none (groups : m.Groups list members) (empty : members key = []) : m.find? key = none := by
  cases bound : m.find? key with
  | none => rfl
  | some value => exact absurd ((groups.list_eq bound).trans empty) (groups.full key value bound)

/-- What is bound to a key depends on its members alone. -/
theorem find?_eq {n : OrderedMap κ α} (groups : m.Groups list members) (others : n.Groups list next)
    (injective : list.Injective) (same : next key = members key) : n.find? key = m.find? key := by
  cases bound : m.find? key with
  | none => exact others.find?_eq_none (same.trans (groups.eq_nil_of_find? bound))
  | some value =>
    have listed := groups.list_eq bound
    cases again : n.find? key with
    | none => exact absurd (listed.trans (same.symm.trans (others.eq_nil_of_find? again))) (groups.full key value bound)
    | some other => exact congrArg some (injective ((others.list_eq again).trans (same.trans listed.symm)))

theorem congr (groups : m.Groups list members) (same : ∀ key, next key = members key) : m.Groups list next :=
  ⟨fun key => (groups.listed key).trans (same key).symm, groups.full⟩

theorem alter [Inhabited α] (groups : m.Groups list members) {change : α → α} (start : list default = [])
    (others : ∀ other, other ≠ key → next other = members other) (full : next key ≠ [])
    (changed : ∀ value, list value = members key → list (change value) = next key) :
    (m.alter key change).Groups list next := by
  have here : list (change ((m.find? key).getD default)) = next key := by
    refine changed _ ?_
    cases bound : m.find? key with
    | none => exact start.trans (groups.eq_nil_of_find? bound).symm
    | some value => exact groups.list_eq bound
  refine ⟨fun other => ?_, fun other value bound => ?_⟩
  · rw [OrderedMap.alter, find?_insert]
    by_cases same : other = key
    · rw [if_pos same, same]
      exact here
    · rw [if_neg same, others other same]
      exact groups.listed other
  · rw [OrderedMap.alter, find?_insert] at bound
    split at bound
    · cases bound
      rwa [here]
    · exact groups.full other value bound

theorem prune (groups : m.Groups list members) {vacant : α → Bool} {change : α → α}
    (empty : ∀ value, vacant value ↔ list value = [])
    (others : ∀ other, other ≠ key → next other = members other) (absent : members key = [] → next key = [])
    (changed : ∀ value, list value = members key → list (change value) = next key) :
    (m.prune vacant key change).Groups list next := by
  unfold OrderedMap.prune
  cases bound : m.find? key with
  | none =>
    refine groups.congr fun other => ?_
    by_cases same : other = key
    · have none := groups.eq_nil_of_find? bound
      rw [same, none, absent none]
    · exact others other same
  | some value =>
    have rest := changed value (groups.list_eq bound)
    simp only
    split
    · rename_i gone
      rw [empty, rest] at gone
      refine ⟨fun other => ?_, fun other old bound => ?_⟩
      · rw [find?_erase]
        by_cases same : other = key
        · rw [if_pos same, same, gone]
          rfl
        · rw [if_neg same, others other same]
          exact groups.listed other
      · rw [find?_erase] at bound
        exact groups.full other old (Option.ite_none_left_eq_some.mp bound).2
    · rename_i stays
      rw [empty] at stays
      refine ⟨fun other => ?_, fun other old bound => ?_⟩
      · rw [find?_insert]
        by_cases same : other = key
        · rw [if_pos same, same]
          exact rest
        · rw [if_neg same, others other same]
          exact groups.listed other
      · rw [find?_insert] at bound
        split at bound
        · cases bound
          exact stays
        · exact groups.full other old bound

end Groups
end OrderedMap

/-- A node as its container lists it. -/
def Node.entry (node : Node) : Name × NodeId := (node.path.tip, node.id)

/-- An edge as its predecessor lists it. -/
def Edge.entry (edge : Edge) : Name × EdgeId := (edge.subject, edge.id)

/-- The cell without its spans and inbound edges. -/
def Cell.core (cell : Cell) : Cell := { cell with declarations := ∅, inbounds := ∅ }

/-- The edges with a subject out of a document. -/
def Graph.named (graph : Graph) (key : DocumentId × Name) : List Edge :=
  graph.edges.filter (graph.sees key.1 key.2 none)

namespace Graph

variable {graph other : Graph}

theorem sees_none (graph : Graph) (document : DocumentId) (subject : Name) (edge : Edge) :
    graph.sees document subject none edge =
      (edge.subject = subject && (graph.node? edge.predecessor).any (·.path.document = document)) := by
  unfold sees
  cases graph.node? edge.predecessor <;> simp

namespace SameShape

/-- What a search by shape lists of the nodes. -/
theorem map_filter_nodes (same : SameShape graph other) {p : Node → Bool} {f : Node → γ}
    (kind : ∀ node, p node.shape = p node) (shape : ∀ node, f node.shape = f node) :
    (other.nodes.filter p).map f = (graph.nodes.filter p).map f := by
  have factor (g : Graph) : (g.nodes.filter p).map f = ((g.nodes.map Node.shape).filter p).map f := by
    rw [List.filter_map, List.map_map, List.filter_congr fun node _ => (kind node).symm]
    exact List.map_congr_left fun node _ => (shape node).symm
  rw [factor, same.nodes, ← factor]

theorem map_filter_edges (same : SameShape graph other) {p : Edge → Bool} {f : Edge → γ}
    (kind : ∀ edge, p edge.shape = p edge) (shape : ∀ edge, f edge.shape = f edge) :
    (other.edges.filter p).map f = (graph.edges.filter p).map f := by
  have factor (g : Graph) : (g.edges.filter p).map f = ((g.edges.map Edge.shape).filter p).map f := by
    rw [List.filter_map, List.map_map, List.filter_congr fun edge _ => (kind edge).symm]
    exact List.map_congr_left fun edge _ => (shape edge).symm
  rw [factor, same.edges, ← factor]

theorem map_find?_nodes (same : SameShape graph other) {p : Node → Bool} {f : Node → γ}
    (kind : ∀ node, p node.shape = p node) (shape : ∀ node, f node.shape = f node) :
    (other.nodes.find? p).map f = (graph.nodes.find? p).map f := by
  rw [← List.head?_filter, ← List.head?_filter, ← List.head?_map, ← List.head?_map,
    same.map_filter_nodes kind shape]

theorem map_find?_edges (same : SameShape graph other) {p : Edge → Bool} {f : Edge → γ}
    (kind : ∀ edge, p edge.shape = p edge) (shape : ∀ edge, f edge.shape = f edge) :
    (other.edges.find? p).map f = (graph.edges.find? p).map f := by
  rw [← List.head?_filter, ← List.head?_filter, ← List.head?_map, ← List.head?_map,
    same.map_filter_edges kind shape]

theorem map_named (same : SameShape graph other) (key : DocumentId × Name) :
    (other.named key).map Edge.id = (graph.named key).map Edge.id := by
  have sees (edge : Edge) : other.sees key.1 key.2 none edge = graph.sees key.1 key.2 none edge := by
    have paths := same.map_find?_nodes (p := (·.id = edge.predecessor)) (f := fun node => node.path)
      (fun _ => rfl) fun _ => rfl
    have any (g : Graph) : (g.node? edge.predecessor).any (·.path.document = key.1) =
        ((g.node? edge.predecessor).map fun node => node.path).any (·.document = key.1) := by
      cases g.node? edge.predecessor <;> rfl
    rw [sees_none, sees_none, any other, any graph]
    exact congrArg (fun path : Option TypePath => _ && path.any (·.document = key.1)) paths
  rw [named, named, List.filter_congr fun edge _ => sees edge]
  exact same.map_filter_edges (fun edge => by rw [sees_none, sees_none]; rfl) fun _ => rfl

end SameShape
end Graph

namespace Arena

variable {arena other : Arena}

/-- What the arena holds without its indexes. -/
def graph (arena : Arena) : Graph where
  nodes := arena.nodes.map Cell.toNode
  edges := arena.edges
  nextNode := arena.nextNode
  nextEdge := arena.nextEdge
  emptiedNodes := arena.emptiedNodes
  emptiedEdges := arena.emptiedEdges
  pending := arena.pending

/-- Every index lists what a search would find. -/
structure Tidy (arena : Arena) : Prop where
  byPath : ∀ path, arena.byPath.find? path = (arena.graph.nodeAt? path).map Node.id
  roots : arena.roots.Groups OrderedMap.entries fun document => (arena.graph.roots document).map Node.entry
  bySubject : arena.bySubject.Groups OrderedSet.toList fun key => (arena.graph.named key).map Edge.id
  contents : ∀ cell ∈ arena.nodes, cell.contents.entries = (arena.graph.contents cell.id).map Node.entry
  outbounds : ∀ cell ∈ arena.nodes, cell.outbounds.entries = (arena.graph.outbounds cell.id).map Edge.entry

theorem tidy_empty : empty.Tidy where
  byPath _ := rfl
  roots := ⟨fun _ => rfl, fun _ _ bound => by contradiction⟩
  bySubject := ⟨fun _ => rfl, fun _ _ bound => by contradiction⟩
  contents _ member := by contradiction
  outbounds _ member := by contradiction

/-- The arenas differ in spans, successors and inbound edges at most. -/
structure Resembles (arena other : Arena) : Prop where
  nodes : other.nodes.map Cell.core = arena.nodes.map Cell.core
  edges : other.edges.map Edge.shape = arena.edges.map Edge.shape
  nextNode : other.nextNode = arena.nextNode
  nextEdge : other.nextEdge = arena.nextEdge
  byPath : other.byPath = arena.byPath
  roots : other.roots = arena.roots
  bySubject : other.bySubject = arena.bySubject

namespace Resembles

theorem refl (arena : Arena) : Resembles arena arena := ⟨rfl, rfl, rfl, rfl, rfl, rfl, rfl⟩

theorem trans {mid : Arena} (first : Resembles arena mid) (second : Resembles mid other) : Resembles arena other :=
  ⟨second.nodes.trans first.nodes, second.edges.trans first.edges, second.nextNode.trans first.nextNode,
    second.nextEdge.trans first.nextEdge, second.byPath.trans first.byPath, second.roots.trans first.roots,
    second.bySubject.trans first.bySubject⟩

theorem sameShape (resembles : Resembles arena other) : Graph.SameShape arena.graph other.graph := by
  refine ⟨?_, resembles.edges, resembles.nextNode, resembles.nextEdge⟩
  have shapes (a : Arena) : a.graph.nodes.map Node.shape = (a.nodes.map Cell.core).map Cell.toNode := by
    rw [graph, List.map_map, List.map_map]
    rfl
  rw [shapes, shapes, resembles.nodes]

theorem cell_of_mem (resembles : Resembles arena other) {cell : Cell} (member : cell ∈ other.nodes) :
    ∃ before ∈ arena.nodes, before.core = cell.core := by
  have core : cell.core ∈ other.nodes.map Cell.core := List.mem_map_of_mem member
  rw [resembles.nodes] at core
  exact List.mem_map.mp core

/-- The indexes ask for no more than that. -/
theorem tidy (resembles : Resembles arena other) (before : arena.Tidy) : other.Tidy where
  byPath path := by
    rw [resembles.byPath, before.byPath]
    exact (resembles.sameShape.map_find?_nodes (fun _ => rfl) fun _ => rfl).symm
  roots := by
    rw [resembles.roots]
    exact before.roots.congr fun document => resembles.sameShape.map_filter_nodes (fun _ => rfl) fun _ => rfl
  bySubject := by
    rw [resembles.bySubject]
    exact before.bySubject.congr resembles.sameShape.map_named
  contents cell member := by
    obtain ⟨old, present, core⟩ := resembles.cell_of_mem member
    have contents : old.contents = cell.contents := congrArg (·.contents) core
    have id : old.id = cell.id := congrArg (·.id) core
    rw [← contents, ← id, before.contents old present]
    exact (resembles.sameShape.map_filter_nodes (fun _ => rfl) fun _ => rfl).symm
  outbounds cell member := by
    obtain ⟨old, present, core⟩ := resembles.cell_of_mem member
    have outbounds : old.outbounds = cell.outbounds := congrArg (·.outbounds) core
    have id : old.id = cell.id := congrArg (·.id) core
    rw [← outbounds, ← id, before.outbounds old present]
    exact (resembles.sameShape.map_filter_edges (fun _ => rfl) fun _ => rfl).symm

end Resembles

section Changes

theorem node?_graph (arena : Arena) (id : NodeId) : arena.graph.node? id = (arena.node? id).map Cell.toNode := by
  rw [Graph.node?, graph, List.find?_map]
  rfl

theorem mem_nodes_graph {node : Node} : node ∈ arena.graph.nodes ↔ ∃ cell ∈ arena.nodes, cell.toNode = node :=
  List.mem_map

theorem graph_modifyNode (id : NodeId) {change : Cell → Cell} {changeNode : Node → Node}
    (same : ∀ cell, (change cell).toNode = changeNode cell.toNode) :
    (arena.modifyNode id change).graph = arena.graph.modifyNode id changeNode := by
  simp only [graph, modifyNode, Graph.modifyNode, List.map_map]
  congr 1
  refine List.map_congr_left fun cell _ => ?_
  simp only [Function.comp_apply]
  split
  · exact same cell
  · rfl

theorem resembles_modifyNode (id : NodeId) {change : Cell → Cell} (core : ∀ cell, (change cell).core = cell.core) :
    Resembles arena (arena.modifyNode id change) := by
  refine ⟨?_, rfl, rfl, rfl, rfl, rfl, rfl⟩
  rw [modifyNode, List.map_map]
  refine List.map_congr_left fun cell _ => ?_
  simp only [Function.comp_apply]
  split
  · exact core cell
  · rfl

theorem resembles_modifyEdge (id : EdgeId) {change : Edge → Edge}
    (shape : ∀ edge ∈ arena.edges, edge.id = id → (change edge).shape = edge.shape) :
    Resembles arena (arena.modifyEdge id change) := by
  refine ⟨rfl, ?_, rfl, rfl, rfl, rfl, rfl⟩
  rw [modifyEdge, List.map_map]
  refine List.map_congr_left fun edge member => ?_
  simp only [Function.comp_apply]
  split
  · exact shape edge member ‹_›
  · rfl

end Changes

end Arena
end OutlineTypes
