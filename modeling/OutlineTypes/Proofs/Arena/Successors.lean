import OutlineTypes.Proofs.Arena.Index
import OutlineTypes.Proofs.Graph.Isolation
import OutlineTypes.Proofs.Lockstep

/-! Looking successors up in the arena. The walk outward asks the index of each scope, and comes to what the scopes
of the graph show; so an edge is looked up again in the arena as it is in the graph, and the indexes stay tidy. -/
namespace OutlineTypes

namespace Graph

variable {graph : Graph} {path : TypePath} {subject : Name} {longitude : Nat}

/-- What the scopes around `path` show from `longitude` on. -/
def shownFrom (graph : Graph) (path : TypePath) (subject : Name) (longitude : Nat) : List Successor :=
  (List.range' longitude (path.length - longitude)).filterMap fun further =>
    (graph.nodeAt? (path.inScope further subject)).map fun node => ⟨node.id, further⟩

theorem Framed.visible_eq_shownFrom (framed : graph.Framed) (path : TypePath) (subject : Name) :
    graph.visible path subject = graph.shownFrom path subject 0 := by
  rw [framed.visible_eq_nodeAt?, List.range_eq_range']
  rfl

theorem shownFrom_eq_append (inside : longitude < path.length) : graph.shownFrom path subject longitude =
    ((graph.nodeAt? (path.inScope longitude subject)).map Node.id).toList.map (Successor.mk · longitude) ++
      graph.shownFrom path subject (longitude + 1) := by
  have more : path.length - longitude = path.length - (longitude + 1) + 1 := by omega
  rw [shownFrom, more, List.range'_succ, List.filterMap_cons]
  cases graph.nodeAt? (path.inScope longitude subject) <;> rfl

theorem shownFrom_eq_nil (beyond : path.length ≤ longitude) : graph.shownFrom path subject longitude = [] := by
  rw [shownFrom, Nat.sub_eq_zero_of_le beyond]
  rfl

/-- Nearest scope first. -/
theorem pairwise_shownFrom : (graph.shownFrom path subject longitude).Pairwise fun nearer further =>
    nearer.longitude < further.longitude := by
  refine List.Pairwise.filterMap _ ?_ List.pairwise_lt_range'
  intro nearer further before first one second two
  obtain ⟨_, _, rfl⟩ := Option.map_eq_some_iff.mp one
  obtain ⟨_, _, rfl⟩ := Option.map_eq_some_iff.mp two
  exact before

end Graph

namespace Arena

open OutlineTypes.Graph (shownFrom)

variable {arena : Arena}

/-- The arena holds this graph, and its indexes are tidy. -/
structure Tracks (arena : Arena) (graph : Graph) : Prop where
  graph_eq : arena.graph = graph
  tidy : arena.Tidy

theorem Tidy.tracks (tidy : arena.Tidy) : Tracks arena arena.graph := ⟨rfl, tidy⟩

/-- The same graph in another arena that differs in spans, successors and inbound edges at most. -/
theorem Tidy.tracks_of_resembles {other : Arena} {graph : Graph} (tidy : arena.Tidy) (resembles : Resembles arena other)
    (same : other.graph = graph) : Tracks other graph := ⟨same, resembles.tidy tidy⟩

section Lookup

theorem exists_cell (framed : arena.graph.Framed) {node : Node} (member : node ∈ arena.graph.nodes) :
    ∃ cell ∈ arena.nodes, cell.toNode = node ∧ arena.node? node.id = some cell := by
  have found := framed.node?_id member
  rw [node?_graph] at found
  obtain ⟨cell, met, rfl⟩ := Option.map_eq_some_iff.mp found
  exact ⟨cell, List.mem_of_find?_eq_some met, rfl, met⟩

theorem nodeOf_eq {id : NodeId} {cell : Cell} (found : arena.node? id = some cell) : arena.nodeOf id = .ok cell := by
  rw [nodeOf, found]

/-- Looking a node up by its number. -/
theorem nodeOf_follows (arena : Arena) (id : NodeId) :
    Follows (fun cell node => cell.toNode = node ∧ arena.node? id = some cell) (arena.nodeOf id)
      (arena.graph.nodeOf id) := by
  rw [nodeOf, Graph.nodeOf, node?_graph]
  cases found : arena.node? id with
  | none => exact .error _
  | some cell => exact .ok ⟨rfl, rfl⟩

theorem find?_of_entries_eq [DecidableEq κ] {m : OrderedMap κ γ} {xs : List α} {entry : α → κ × γ}
    (entries : m.entries = xs.map entry) (key : κ) :
    m.find? key = (xs.find? fun x => (entry x).1 = key).map fun x => (entry x).2 := by
  rw [OrderedMap.find?, entries, List.find?_map, Option.map_map]
  rfl

/-- A scope lists the node of a name at the path inside it. -/
theorem find?_within (framed : arena.graph.Framed) {document : DocumentId} {names : List Name} {scope : Option NodeId}
    (stands : arena.graph.StandsAt document names scope) (subject : Name) :
    (arena.graph.within document scope).find? (fun node => node.path.tip = subject) =
      arena.graph.nodeAt? ⟨document, names ++ [subject], by simp⟩ := by
  refine Option.ext fun node => ?_
  rw [framed.nodeAt?_eq_some_iff]
  have here {node : Node} : (node ∈ arena.graph.within document scope ∧ node.path.tip = subject) ↔
      node ∈ arena.graph.nodes ∧ node.path = ⟨document, names ++ [subject], by simp⟩ := by
    rw [framed.mem_within_iff stands, and_assoc]
    refine and_congr_right fun _ => ⟨?_, ?_⟩
    · rintro ⟨⟨rfl, rfl⟩, rfl⟩
      exact TypePath.ext_names rfl (List.dropLast_concat_getLast node.path.names_ne).symm
    · rintro path
      simp [path, TypePath.tip]
  constructor
  · intro found
    exact here.mp ⟨List.mem_of_find?_eq_some found, by simpa using List.find?_some found⟩
  · intro at_
    have listed := here.mpr at_
    cases met : (arena.graph.within document scope).find? (fun node => node.path.tip = subject) with
    | none => exact absurd listed.2 (by simpa using List.find?_eq_none.mp met node listed.1)
    | some other =>
      have again := here.mp ⟨List.mem_of_find?_eq_some met, by simpa using List.find?_some met⟩
      exact congrArg some (eq_of_key_eq framed.paths again.1 at_.1 (again.2.trans at_.2.symm))

theorem Tidy.listed?_root (tidy : arena.Tidy) (framed : arena.graph.Framed) (document : DocumentId) (subject : Name) :
    arena.listed? document subject none = (arena.graph.nodeAt? ⟨document, [subject], by simp⟩).map Node.id := by
  have stands : arena.graph.StandsAt document [] none := rfl
  have found := find?_within framed stands subject
  refine Eq.trans ?_ (congrArg (Option.map Node.id) found)
  rw [listed?, Graph.within]
  cases bound : arena.roots.find? document with
  | none =>
    have none := List.map_eq_nil_iff.mp (tidy.roots.eq_nil_of_find? bound)
    rw [none]
    rfl
  | some roots => exact find?_of_entries_eq (tidy.roots.list_eq bound) subject

theorem Tidy.listed?_cell (tidy : arena.Tidy) (framed : arena.graph.Framed) {cell : Cell} (member : cell ∈ arena.nodes)
    (subject : Name) : arena.listed? cell.path.document subject (some cell) =
      (arena.graph.nodeAt? (cell.path.child subject)).map Node.id := by
  have stands : arena.graph.StandsAt cell.path.document cell.path.names (some cell.id) :=
    ⟨cell.toNode, mem_nodes_graph.mpr ⟨cell, member, rfl⟩, rfl, rfl, rfl⟩
  refine Eq.trans ?_ (congrArg (Option.map Node.id) (find?_within framed stands subject))
  exact find?_of_entries_eq (tidy.contents cell member) subject

end Lookup

section Walk

variable {node : Node} {subject : Name} {longitude : Nat}

theorem walk_none (arena : Arena) (document : DocumentId) (subject : Name) (bound longitude : Nat) :
    arena.walk document subject bound longitude none =
      .ok ((arena.listed? document subject none).toList.map (Successor.mk · longitude)) := by
  cases bound <;> rfl

/-- At the document root the walk ends. -/
theorem Tidy.walk_root (tidy : arena.Tidy) (framed : arena.graph.Framed) (bound : Nat)
    (inside : longitude < node.path.length) (top : arena.graph.StandsAt node.path.document
      (node.path.names.take (node.path.length - longitude - 1)) none) :
    arena.walk node.path.document subject bound longitude none =
      .ok (arena.graph.shownFrom node.path subject longitude) := by
  have names : node.path.names.take (node.path.length - longitude - 1) = [] := top
  have last := (List.take_eq_nil_iff.mp names).resolve_right node.path.names_ne
  have path : (⟨node.path.document, [subject], by simp⟩ : TypePath) = node.path.inScope longitude subject :=
    TypePath.ext_names rfl (by simp only [TypePath.inScope, names, List.nil_append])
  rw [walk_none, tidy.listed?_root framed, path, Graph.shownFrom_eq_append inside,
    Graph.shownFrom_eq_nil (by omega), List.append_nil]

/-- The walk from a scope around a node comes to what this scope and those further out show. -/
theorem Tidy.walk_eq (tidy : arena.Tidy) (framed : arena.graph.Framed) (member : node ∈ arena.graph.nodes)
    {bound : Nat} {scope : Option NodeId} (around : arena.graph.ScopeOf node longitude scope)
    (enough : node.path.length ≤ longitude + bound + 1) :
    arena.walk node.path.document subject bound longitude scope =
      .ok (arena.graph.shownFrom node.path subject longitude) := by
  induction bound generalizing longitude scope with
  | zero =>
    obtain ⟨inside, stands⟩ := framed.scopeOf_standsAt member around
    cases scope with
    | none => exact tidy.walk_root framed 0 inside stands
    | some id =>
      obtain ⟨outer, _, _, _, names⟩ := stands
      have top : outer.path.names = [] := by
        rw [names, show node.path.length - longitude - 1 = 0 by omega, List.take_zero]
      exact absurd top outer.path.names_ne
  | succ bound ih =>
    obtain ⟨inside, stands⟩ := framed.scopeOf_standsAt member around
    cases scope with
    | none => exact tidy.walk_root framed (bound + 1) inside stands
    | some id =>
      obtain ⟨outer, listed, rfl, document, names⟩ := stands
      obtain ⟨cell, present, rfl, found⟩ := exists_cell framed listed
      have further := ih (.outward around listed) (by omega)
      have path : cell.path.child subject = node.path.inScope longitude subject :=
        TypePath.ext_names document (by rw [TypePath.names_child, names]; rfl)
      have here := tidy.listed?_cell framed present subject
      rw [document, path] at here
      rw [walk, nodeOf_eq found, ok_bind, further, ok_bind, here, Graph.shownFrom_eq_append inside]
      rfl

end Walk

section Relink

variable {edge : Edge} {id : EdgeId}

/-- A change made for each of some successors, where making it twice is making it once. -/
theorem modifySuccessors_eq (arena : Arena) (successors : List Successor) (change : Cell → Cell)
    (ids : ∀ cell, (change cell).id = cell.id) (twice : ∀ cell, change (change cell) = change cell) :
    arena.modifySuccessors successors change = { arena with
      nodes := arena.nodes.map fun cell => bif successors.any (·.node = cell.id) then change cell else cell } := by
  unfold modifySuccessors
  induction successors generalizing arena with
  | nil => simp
  | cons successor rest ih =>
    rw [List.foldl_cons, ih, modifyNode]
    simp only [List.map_map, List.any_cons, Arena.mk.injEq, and_true]
    refine List.map_congr_left fun cell _ => ?_
    rw [Function.comp_apply]
    by_cases here : cell.id = successor.node
    · rw [if_pos here, ids, twice, Bool.cond_self, decide_eq_true here.symm, Bool.true_or, cond_true]
    · rw [if_neg here, decide_eq_false fun same => here same.symm, Bool.false_or]

theorem resembles_modifySuccessors (arena : Arena) (successors : List Successor) {change : Cell → Cell}
    (core : ∀ cell, (change cell).core = cell.core) : Resembles arena (arena.modifySuccessors successors change) := by
  unfold modifySuccessors
  induction successors generalizing arena with
  | nil => exact .refl arena
  | cons successor rest ih => exact (resembles_modifyNode successor.node core).trans (ih _)

theorem resembles_forget (arena : Arena) (id : EdgeId) (successors : List Successor) :
    Resembles arena (arena.forget id successors) := by
  unfold forget
  exact resembles_modifySuccessors arena successors fun _ => rfl

theorem resembles_note (arena : Arena) (id : EdgeId) (successors : List Successor) :
    Resembles arena (arena.note id successors) := by
  unfold note
  exact resembles_modifySuccessors arena successors fun _ => rfl

theorem erase_erase (inbounds : OrderedSet EdgeId) (id : EdgeId) : (inbounds.erase id).erase id = inbounds.erase id :=
  OrderedSet.erase_eq_self fun member => (OrderedSet.mem_erase.mp member).1 rfl

theorem insert_insert (inbounds : OrderedSet EdgeId) (id : EdgeId) :
    (inbounds.insert id).insert id = inbounds.insert id := by
  refine OrderedSet.ext_toList ?_
  rw [OrderedSet.toList_insert, if_pos (OrderedSet.mem_insert.mpr (.inr rfl))]

/-- Taking an edge off the successors it had is taking it off all nodes, as no others have it. -/
theorem graph_forget (arena : Arena) (edge : Edge)
    (apart : ∀ node ∈ arena.graph.nodes, edge.lists node.id = false → edge.id ∉ node.inbounds) :
    (arena.forget edge.id edge.successors).graph = { arena.graph with
      nodes := arena.graph.nodes.map fun node => { node with inbounds := node.inbounds.erase edge.id } } := by
  rw [forget, modifySuccessors_eq arena edge.successors
    (fun cell => { cell with inbounds := cell.inbounds.erase edge.id }) (fun _ => rfl) fun cell => by
      simp only [erase_erase]]
  simp only [graph, List.map_map, Graph.mk.injEq, and_true]
  refine List.map_congr_left fun cell member => ?_
  change Cell.toNode (bif edge.lists cell.id then _ else _) = _
  cases lists : edge.lists cell.id with
  | true => rfl
  | false =>
    have same := OrderedSet.erase_eq_self (apart cell.toNode (mem_nodes_graph.mpr ⟨cell, member, rfl⟩) lists)
    rw [cond_false, Function.comp_apply, same]

/-- Listing an edge with its successors, once it is taken off all others. -/
theorem graph_note (arena : Arena) (edge : Edge) : (arena.note edge.id edge.successors).graph = { arena.graph with
    nodes := arena.graph.nodes.map fun node =>
      { node with inbounds := if edge.lists node.id then node.inbounds.insert edge.id else node.inbounds } } := by
  rw [note, modifySuccessors_eq arena edge.successors
    (fun cell => { cell with inbounds := cell.inbounds.insert edge.id }) (fun _ => rfl) fun cell => by
      simp only [insert_insert]]
  simp only [graph, List.map_map, Graph.mk.injEq, and_true]
  refine List.map_congr_left fun cell _ => ?_
  change Cell.toNode (bif edge.lists cell.id then _ else _) = _
  cases lists : edge.lists cell.id with
  | true => rw [cond_true, Function.comp_apply, if_pos lists]
  | false => rw [cond_false, Function.comp_apply, if_neg (ne_true_of_eq_false lists)]

theorem withSuccessors_eq (edge : Edge) {successors : List Successor}
    (sorted : successors.Pairwise fun nearer further => nearer.longitude < further.longitude) :
    edge.withSuccessors successors = { edge with successors } := by
  have same := stableSort_eq_self (fun a b : Successor => a.longitude ≤ b.longitude)
    (sorted.imp fun before => decide_eq_true (Nat.le_of_lt before))
  rw [Edge.withSuccessors, same]

/-- An edge is among the inbound edges of its successors only. -/
theorem not_mem_inbounds {graph : Graph} (framed : graph.Framed) (listed : edge ∈ graph.edges) (node : Node)
    (member : node ∈ graph.nodes) (apart : edge.lists node.id = false) : edge.id ∉ node.inbounds := by
  intro inbound
  obtain ⟨other, among, same, lists⟩ := (framed.inbounds node member edge.id).mp inbound
  rw [eq_of_key_eq framed.edgeIds among listed same, apart] at lists
  contradiction

/-- Replacing an edge by one with the same identity, on both of its ends. -/
theorem graph_link (framed : arena.graph.Framed) (listed : edge ∈ arena.edges) (successors : List Successor) :
    (((arena.modifyEdge edge.id fun _ => { edge with successors }).forget edge.id edge.successors).note edge.id
      successors).graph = arena.graph.link { edge with successors } := by
  let mid := arena.modifyEdge edge.id fun _ => { edge with successors }
  have apart := not_mem_inbounds framed listed
  have forgotten := graph_forget mid edge apart
  have noted := graph_note (mid.forget edge.id edge.successors) { edge with successors }
  refine noted.trans ?_
  rw [forgotten, Graph.link]
  simp only [List.map_map]
  rfl

theorem resembles_link (listed : edge ∈ arena.edges) (framed : arena.graph.Framed) (successors : List Successor) :
    Resembles arena (((arena.modifyEdge edge.id fun _ => { edge with successors }).forget edge.id edge.successors).note
      edge.id successors) := by
  have edges : Resembles arena (arena.modifyEdge edge.id fun _ => { edge with successors }) :=
    resembles_modifyEdge edge.id fun other among same => by rw [eq_of_key_eq framed.edgeIds among listed same]; rfl
  exact (edges.trans (resembles_forget _ _ _)).trans (resembles_note _ _ _)

/-- An edge is looked up again in the arena as it is in the graph. -/
theorem Tidy.relink_follows (tidy : arena.Tidy) (framed : arena.graph.Framed) (id : EdgeId) :
    Follows Tracks (arena.relink id) (arena.graph.relink id) := by
  have same : arena.graph.edge? id = arena.edge? id := rfl
  unfold relink Graph.relink
  cases found : arena.edge? id with
  | none =>
    rw [same, found]
    exact .ok tidy.tracks
  | some edge =>
    rw [same, found]
    obtain ⟨listed, rfl⟩ := framed.edge?_eq_some_iff.mp (same.trans found)
    obtain ⟨node, member, predecessor⟩ := framed.predecessors edge listed
    obtain ⟨cell, present, rfl, met⟩ := exists_cell framed member
    have scopes := framed.visible_eq_shownFrom cell.path edge.subject
    have walked : arena.walk cell.path.document edge.subject cell.path.length 0 cell.container =
        .ok (arena.graph.visible cell.path edge.subject) :=
      scopes ▸ tidy.walk_eq framed member .nearest (by omega)
    have sorted : edge.withSuccessors (arena.graph.visible cell.path edge.subject) =
        { edge with successors := arena.graph.visible cell.path edge.subject } :=
      withSuccessors_eq edge (scopes ▸ Graph.pairwise_shownFrom)
    have shown : arena.graph.successorsOf edge.predecessor edge.subject = _ :=
      predecessor ▸ framed.successorsOf_id member edge.subject
    have source : arena.nodeOf edge.predecessor = .ok cell := nodeOf_eq (predecessor ▸ met)
    simp only [source, shown, walked, ok_bind, sorted]
    exact .ok (tidy.tracks_of_resembles (resembles_link listed framed _) (graph_link framed listed _))

/-- Of the edges with the name of a path, those that see into its scope are those that it concerns. -/
theorem seesInto_iff (framed : arena.graph.Framed) (listed : edge ∈ arena.edges) (path : TypePath) :
    arena.graph.sees path.document path.tip path.container? edge =
      (arena.seesInto path.container? edge.id && arena.graph.sees path.document path.tip none edge) := by
  have found : arena.edge? edge.id = some edge := framed.edge?_eq_some_iff.mpr ⟨listed, rfl⟩
  have source := node?_graph arena edge.predecessor
  cases met : arena.node? edge.predecessor with
  | none =>
    rw [met, Option.map_none] at source
    simp [Graph.sees, seesInto, found, met, source]
  | some cell =>
    rw [met, Option.map_some] at source
    simp only [Graph.sees, seesInto, found, met, source, Option.all_none, Bool.and_true]
    rw [Bool.and_comm (path.container?.all _), Bool.and_assoc]

theorem relink_keeps_framed {graph : Graph} (framed : graph.Framed) (id : EdgeId) :
    Ensures (graph.relink id) Graph.Framed :=
  (framed.relink_succeeds id).ensures.mono fun _ h => h.1

/-- The index by subject leads to the edges that a path concerns. -/
theorem Tidy.refresh_follows (tidy : arena.Tidy) (framed : arena.graph.Framed) (path : TypePath) :
    Follows Tracks (arena.refresh path) (arena.graph.refresh path) := by
  have concerned : arena.graph.edges.filter (arena.graph.sees path.document path.tip path.container?) =
      (arena.graph.named (path.document, path.tip)).filter fun edge => arena.seesInto path.container? edge.id := by
    rw [Graph.named, List.filter_filter]
    exact List.filter_congr fun edge listed => seesInto_iff framed listed path
  have all (ids : List EdgeId) : Follows Tracks (ids.foldlM relink arena) (ids.foldlM Graph.relink arena.graph) := by
    have kept : Follows (fun arena graph => Tracks arena graph ∧ graph.Framed) (ids.foldlM relink arena)
        (ids.foldlM Graph.relink arena.graph) := by
      refine Follows.foldlM ⟨tidy.tracks, framed⟩ ?_
      rintro arena _ ⟨⟨rfl, tidy⟩, framed⟩ id _
      exact (tidy.relink_follows framed id).and (relink_keeps_framed framed id)
    exact kept.mono fun _ _ h => h.1
  rw [Graph.refresh, concerned, refresh]
  cases bound : arena.bySubject.find? (path.document, path.tip) with
  | none =>
    rw [List.map_eq_nil_iff.mp (tidy.bySubject.eq_nil_of_find? bound)]
    exact .ok tidy.tracks
  | some ids =>
    have listed := tidy.bySubject.list_eq bound
    simp only [listed, List.filter_map]
    exact all _

end Relink
end Arena
end OutlineTypes
