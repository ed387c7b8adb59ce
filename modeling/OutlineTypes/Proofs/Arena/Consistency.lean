import OutlineTypes.Proofs.Arena.Calls

/-! Consistent arenas. Whatever calls an arena has gone through, every index it keeps lists what it is to list and
nothing else, and both ends of every edge agree with the scopes around its predecessor. -/
namespace OutlineTypes

namespace Graph

variable {graph : Graph} {node : Node}

/-- What stands directly in a scope around a node. -/
theorem Framed.mem_within (framed : graph.Framed) (member : node ∈ graph.nodes) {longitude : Nat}
    {scope : Option NodeId} (around : graph.ScopeOf node longitude scope) {found : Node} :
    found ∈ graph.within node.path.document scope ↔
      found ∈ graph.nodes ∧ found.path.document = node.path.document ∧ found.container = scope := by
  obtain ⟨_, stands⟩ := framed.scopeOf_standsAt member around
  cases scope with
  | none => exact mem_roots
  | some id =>
    rw [within, mem_contents]
    refine and_congr_right fun listed => (and_iff_right_of_imp fun held => ?_).symm
    obtain ⟨outer, present, rfl, document, _⟩ := stands
    have inside := framed.container?_of_container listed present held
    exact (TypePath.of_container? inside).1.symm.trans document

end Graph

namespace Arena

variable {arena : Arena}

/-- What ties the parts of an arena together. -/
structure Consistent (arena : Arena) : Prop where
  nodeIds : (arena.nodes.map fun cell => cell.id).Nodup
  edgeIds : (arena.edges.map Edge.id).Nodup
  /-- A number is kept in 32 bits: as long as no more than 2 ^ 32 nodes were created, one word stands for one. -/
  nodeWords : arena.nextNode ≤ UInt32.size → (arena.nodes.map fun cell => cell.id.word).Nodup
  edgeWords : arena.nextEdge ≤ UInt32.size → (arena.edges.map fun edge => edge.id.word).Nodup
  /-- No path has two nodes. -/
  paths : (arena.nodes.map fun cell => cell.path).Nodup
  byPath : ∀ path id, arena.byPath.find? path = some id ↔ ∃ cell ∈ arena.nodes, cell.path = path ∧ cell.id = id
  /-- The node at the path around a node contains it. -/
  container : ∀ cell ∈ arena.nodes, ∀ outer, cell.path.container? = some outer →
    ∃ around ∈ arena.nodes, around.path = outer ∧ cell.container = some around.id
  root : ∀ cell ∈ arena.nodes, cell.path.container? = none → cell.container = none
  contents : ∀ around ∈ arena.nodes, ∀ name id, around.contents.find? name = some id ↔
    ∃ cell ∈ arena.nodes, cell.container = some around.id ∧ cell.path.tip = name ∧ cell.id = id
  roots : ∀ document name id, (arena.roots.find? document).bind (·.find? name) = some id ↔
    ∃ cell ∈ arena.nodes, cell.path.document = document ∧ cell.container = none ∧ cell.path.tip = name ∧ cell.id = id
  /-- A document without roots is not in the index of roots. -/
  rootsFull : ∀ document names, arena.roots.find? document = some names → names.isEmpty = false
  /-- A node has one outbound edge of a subject at most. -/
  assertions : (arena.edges.map fun edge => (edge.predecessor, edge.subject)).Nodup
  predecessor : ∀ edge ∈ arena.edges, ∃ cell ∈ arena.nodes, cell.id = edge.predecessor
  outbounds : ∀ cell ∈ arena.nodes, ∀ subject id, cell.outbounds.find? subject = some id ↔
    ∃ edge ∈ arena.edges, edge.predecessor = cell.id ∧ edge.subject = subject ∧ edge.id = id
  bySubject : ∀ document subject id, (∃ ids, arena.bySubject.find? (document, subject) = some ids ∧ id ∈ ids) ↔
    ∃ edge ∈ arena.edges, edge.subject = subject ∧ edge.id = id ∧
      ∃ cell ∈ arena.nodes, cell.id = edge.predecessor ∧ cell.path.document = document
  bySubjectFull : ∀ key ids, arena.bySubject.find? key = some ids → ids.isEmpty = false
  successors : ∀ edge ∈ arena.edges, ∀ cell ∈ arena.nodes, cell.id = edge.predecessor → ∀ successor,
    successor ∈ edge.successors ↔ ∃ scope, arena.graph.ScopeOf cell.toNode successor.longitude scope ∧
      ∃ found ∈ arena.nodes, found.path.document = cell.path.document ∧ found.container = scope ∧
        found.path.tip = edge.subject ∧ found.id = successor.node
  /-- Nearest scope first, with no more than one node in each. -/
  longitudes : ∀ edge ∈ arena.edges,
    edge.successors.Pairwise fun nearer further => nearer.longitude < further.longitude
  inbounds : ∀ cell ∈ arena.nodes, ∀ id, id ∈ cell.inbounds ↔
    ∃ edge ∈ arena.edges, edge.id = id ∧ ∃ successor ∈ edge.successors, successor.node = cell.id
  emptiedNodes : ∀ cell ∈ arena.nodes, cell.declarations.isEmpty → cell.id ∈ arena.emptiedNodes
  emptiedEdges : ∀ edge ∈ arena.edges, edge.sources.isEmpty → edge.id ∈ arena.emptiedEdges

/-- Everything is declared or asserted by some span. -/
structure Populated (arena : Arena) : Prop where
  nodes : ∀ cell ∈ arena.nodes, cell.declarations.isEmpty = false
  edges : ∀ edge ∈ arena.edges, edge.sources.isEmpty = false

section Consistency

theorem exists_mem_nodes {p : Node → Prop} :
    (∃ node ∈ arena.graph.nodes, p node) ↔ ∃ cell ∈ arena.nodes, p cell.toNode := by
  constructor
  · rintro ⟨_, member, holds⟩
    obtain ⟨cell, present, rfl⟩ := mem_nodes_graph.mp member
    exact ⟨cell, present, holds⟩
  · rintro ⟨cell, present, holds⟩
    exact ⟨cell.toNode, mem_nodes_graph.mpr ⟨cell, present, rfl⟩, holds⟩

/-- An index that lists entries of some elements finds those. -/
theorem find?_eq_some_iff_of_entries [DecidableEq κ] {m : OrderedMap κ γ} {xs : List α} {entry : α → κ × γ}
    (entries : m.entries = xs.map entry) {key : κ} {value : γ} :
    m.find? key = some value ↔ ∃ x ∈ xs, entry x = (key, value) := by
  rw [OrderedMap.find?_eq_some_iff, entries, List.mem_map]

/-- Words that tell ids apart are as distinct as the ids are. -/
theorem nodup_words {xs : List α} {id : α → κ} {word : κ → UInt32} (distinct : (xs.map id).Nodup)
    (apart : ∀ x ∈ xs, ∀ y ∈ xs, word (id x) = word (id y) → id x = id y) :
    (xs.map fun x => word (id x)).Nodup := by
  have words : ((xs.map id).map word).Nodup := distinct.map_on (by simpa using apart)
  rwa [List.map_map] at words

theorem Tidy.mem_contents_iff (tidy : arena.Tidy) {around : Cell} (outer : around ∈ arena.nodes) {name : Name}
    {id : NodeId} : around.contents.find? name = some id ↔
      ∃ cell ∈ arena.nodes, cell.container = some around.id ∧ cell.path.tip = name ∧ cell.id = id := by
  rw [find?_eq_some_iff_of_entries (tidy.contents around outer)]
  simp only [Graph.mem_contents, Node.entry, Prod.mk.injEq, and_assoc]
  exact exists_mem_nodes

theorem Tidy.mem_outbounds_iff (tidy : arena.Tidy) {cell : Cell} (member : cell ∈ arena.nodes) {subject : Name}
    {id : EdgeId} : cell.outbounds.find? subject = some id ↔
      ∃ edge ∈ arena.edges, edge.predecessor = cell.id ∧ edge.subject = subject ∧ edge.id = id := by
  rw [find?_eq_some_iff_of_entries (tidy.outbounds cell member)]
  simp only [Graph.mem_outbounds, Edge.entry, Prod.mk.injEq, and_assoc]
  rfl

theorem Tidy.mem_roots_iff (tidy : arena.Tidy) {document : DocumentId} {name : Name} {id : NodeId} :
    (arena.roots.find? document).bind (·.find? name) = some id ↔ ∃ cell ∈ arena.nodes,
      cell.path.document = document ∧ cell.container = none ∧ cell.path.tip = name ∧ cell.id = id := by
  have listed : ((arena.roots.find? document).bind (·.find? name) = some id) ↔
      ∃ node ∈ arena.graph.roots document, node.entry = (name, id) := by
    cases bound : arena.roots.find? document with
    | none =>
      rw [List.map_eq_nil_iff.mp (tidy.roots.eq_nil_of_find? bound)]
      simp
    | some names => exact find?_eq_some_iff_of_entries (tidy.roots.list_eq bound)
  rw [listed]
  simp only [Graph.mem_roots, Node.entry, Prod.mk.injEq, and_assoc]
  exact exists_mem_nodes

theorem Tidy.mem_bySubject_iff (tidy : arena.Tidy) (framed : arena.graph.Framed) {document : DocumentId}
    {subject : Name} {id : EdgeId} :
    (∃ ids, arena.bySubject.find? (document, subject) = some ids ∧ id ∈ ids) ↔
      ∃ edge ∈ arena.edges, edge.subject = subject ∧ edge.id = id ∧
        ∃ cell ∈ arena.nodes, cell.id = edge.predecessor ∧ cell.path.document = document := by
  have listed : (∃ ids, arena.bySubject.find? (document, subject) = some ids ∧ id ∈ ids) ↔
      ∃ edge ∈ arena.graph.named (document, subject), edge.id = id := by
    rw [← List.mem_map, ← tidy.bySubject.listed (document, subject)]
    cases arena.bySubject.find? (document, subject) with
    | none => simp
    | some ids => simp [OrderedSet.mem_def]
  rw [listed]
  have sees (edge : Edge) : arena.graph.sees document subject none edge = true ↔
      edge.subject = subject ∧ ∃ cell ∈ arena.nodes, cell.id = edge.predecessor ∧ cell.path.document = document := by
    rw [Graph.sees_none, Bool.and_eq_true, decide_eq_true_iff, Option.any_eq_true]
    refine and_congr_right fun _ => ?_
    simp only [framed.node?_eq_some_iff, decide_eq_true_eq, and_assoc]
    exact exists_mem_nodes
  simp only [Graph.named, List.mem_filter, sees]
  exact exists_congr fun edge => by rw [and_assoc, and_assoc, @and_comm (∃ _, _)]; rfl

theorem Tidy.consistent (tidy : arena.Tidy) (coherent : arena.graph.Coherent) (accounted : arena.graph.Accounted) :
    arena.Consistent := by
  have framed := coherent.toFramed
  have listed {cell : Cell} (member : cell ∈ arena.nodes) : cell.toNode ∈ arena.graph.nodes :=
    mem_nodes_graph.mpr ⟨cell, member, rfl⟩
  have nodeIds := framed.nodeIds
  have paths := framed.paths
  rw [graph, List.map_map] at nodeIds paths
  exact {
    nodeIds
    edgeIds := framed.edgeIds
    nodeWords := fun small => nodup_words nodeIds fun cell member other among =>
      NodeId.eq_of_word_eq (Nat.lt_of_lt_of_le (framed.nodesBelow _ (listed member)) small)
        (Nat.lt_of_lt_of_le (framed.nodesBelow _ (listed among)) small)
    edgeWords := fun small => nodup_words framed.edgeIds fun edge member other among =>
      EdgeId.eq_of_word_eq (Nat.lt_of_lt_of_le (framed.edgesBelow edge member) small)
        (Nat.lt_of_lt_of_le (framed.edgesBelow other among) small)
    paths
    byPath := fun path id => by
      rw [tidy.byPath, Option.map_eq_some_iff]
      simp only [framed.nodeAt?_eq_some_iff, and_assoc]
      exact exists_mem_nodes
    container := fun cell member outer inside =>
      exists_mem_nodes.mp (framed.containers _ (listed member) outer inside)
    root := fun cell member => framed.roots _ (listed member)
    contents := fun around outer name id => tidy.mem_contents_iff outer
    roots := fun document name id => tidy.mem_roots_iff
    rootsFull := fun document names bound => by
      simpa [OrderedMap.isEmpty] using tidy.roots.full document names bound
    assertions := framed.assertions
    predecessor := fun edge among => exists_mem_nodes.mp (framed.predecessors edge among)
    outbounds := fun cell member subject id => tidy.mem_outbounds_iff member
    bySubject := fun document subject id => tidy.mem_bySubject_iff framed
    bySubjectFull := fun key ids bound => by
      simpa [OrderedSet.isEmpty] using tidy.bySubject.full key ids bound
    successors := fun edge among cell member predecessor successor => by
      rw [coherent.mem_successors_iff among (listed member) predecessor]
      refine exists_congr fun scope => and_congr_right fun around => ?_
      simp only [framed.mem_within (listed member) around, and_assoc]
      exact exists_mem_nodes
    longitudes := fun edge => coherent.pairwise_successors
    inbounds := fun cell member id => by
      rw [framed.inbounds _ (listed member) id]
      simp [Edge.lists, graph]
    emptiedNodes := fun cell member => accounted.nodes _ (listed member)
    emptiedEdges := accounted.edges }

end Consistency

section Calls

/-- Every arena that calls come to is tidy, and its graph went through the same calls. -/
theorem tracks_of_callAll {calls : List Graph.Call} (reached : empty.callAll calls = .ok arena) :
    Graph.empty.callAll calls = .ok arena.graph ∧ arena.Tidy := by
  have follows := tidy_empty.callAll_follows Graph.coherent_empty Graph.accounted_empty calls
  obtain ⟨graph, called, rfl, tidy⟩ := follows.exists_right reached
  exact ⟨called, tidy⟩

/-- Every arena that calls come to is consistent, and after a revalidation nothing in it is empty. -/
theorem calls_keep_consistent (calls : List Graph.Call) (arena : Arena) (reached : empty.callAll calls = .ok arena) :
    arena.Consistent ∧ ∀ document parents, calls.getLast? = some (.revalidate document parents) → arena.Populated := by
  obtain ⟨called, tidy⟩ := tracks_of_callAll reached
  obtain ⟨coherent, accounted⟩ := Graph.callAll_ensures calls arena.graph called
  refine ⟨tidy.consistent coherent accounted, fun document parents last => ?_⟩
  have populated := Graph.populated_of_revalidate called last
  exact ⟨fun cell member => populated.nodes _ (mem_nodes_graph.mpr ⟨cell, member, rfl⟩), populated.edges⟩

/-- Regions of two documents that come and go out of turn. -/
def outOfTurn : List Graph.Call :=
  let document := Document.ofText ⟨0⟩ 4 "A\n\tB : A"
  let other := Document.ofText ⟨1⟩ 4 "C : C"
  [.inclusion document [0, 1, 1], .exclusion other [0], .invalidate document [], .inclusion other [0],
    .exclusion document [1], .revalidate document []]

theorem outOfTurn_consistent : ∃ arena, empty.callAll outOfTurn = .ok arena ∧ arena.Consistent ∧ arena.Populated ∧
    arena.nodes.length = 3 ∧ arena.edges.length = 2 ∧ arena.roots.size = 2 ∧ arena.bySubject.size = 2 := by
  have sizes : (empty.callAll outOfTurn).map (fun arena => (arena.nodes.length, arena.edges.length,
      arena.roots.size, arena.bySubject.size)) = .ok (3, 2, 2, 2) := by
    decide +kernel
  cases reached : empty.callAll outOfTurn with
  | error reason => simp [reached, Except.map] at sizes
  | ok arena =>
    obtain ⟨consistent, populated⟩ := calls_keep_consistent outOfTurn arena reached
    simp only [reached, Except.map, Except.ok.injEq, Prod.mk.injEq] at sizes
    exact ⟨arena, rfl, consistent, populated _ _ rfl, sizes⟩

end Calls
end Arena
end OutlineTypes
