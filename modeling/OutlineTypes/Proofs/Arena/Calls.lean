import OutlineTypes.Proofs.Arena.Removal

/-! Calls on the arena. Whatever is called on the arena and on its graph, both fail alike or come to the same graph,
and the indexes stay tidy. -/
namespace OutlineTypes

theorem stableSort_map (le : β → β → Bool) (f : α → β) (xs : List α) :
    stableSort le (xs.map f) = (stableSort (fun a b => le (f a) (f b)) xs).map f := by
  have insert (x : α) (ys : List α) :
      insertSorted le (f x) (ys.map f) = (insertSorted (fun a b => le (f a) (f b)) x ys).map f := by
    induction ys with
    | nil => rfl
    | cons y ys ih =>
      rw [List.map_cons, insertSorted, insertSorted, ih]
      split <;> rfl
  induction xs with
  | nil => rfl
  | cons x xs ih =>
    change insertSorted le (f x) (stableSort le (xs.map f)) = (insertSorted _ x (stableSort _ xs)).map f
    rw [ih, insert]

namespace Arena

variable {arena : Arena} {graph : Graph}

section Inclusion

theorem updateNode_follows (tidy : arena.Tidy) (id : NodeId) (change : Cell → Cell) (changeNode : Node → Node)
    (same : ∀ cell, (change cell).toNode = changeNode cell.toNode) (core : ∀ cell, (change cell).core = cell.core) :
    Follows Tracks (arena.updateNode id change) (arena.graph.updateNode id changeNode) := by
  refine (nodeOf_follows arena id).bind fun _ _ _ => .pure ?_
  exact tidy.tracks_of_resembles (resembles_modifyNode id core) (graph_modifyNode id same)

theorem Tidy.declare_follows (tidy : arena.Tidy) (coherent : arena.graph.Coherent) (path : TypePath) (span : SpanId) :
    Follows (fun x y => x.1 = y.1 ∧ Tracks x.2 y.2) (arena.declare path span) (arena.graph.declare path span) := by
  have declared {mid : Arena} (midTidy : mid.Tidy) (id : NodeId) :=
    updateNode_follows midTidy id (fun cell => { cell with declarations := cell.declarations.insert span })
      (fun node => { node with declarations := node.declarations.insert span }) (fun _ => rfl) fun _ => rfl
  unfold declare Graph.declare
  rw [tidy.byPath]
  cases found : arena.graph.nodeAt? path with
  | some node => exact (declared tidy node.id).bind fun _ _ tracks => .pure ⟨rfl, tracks⟩
  | none =>
    refine (tidy.createNode_follows coherent found).bind ?_
    rintro ⟨id, mid⟩ ⟨_, _⟩ ⟨rfl, rfl, midTidy⟩
    exact (declared midTidy id).bind fun _ _ tracks => .pure ⟨rfl, tracks⟩

/-- The placement of declarations, with the nodes touched so far. -/
theorem Tidy.place_follows (tidy : arena.Tidy) (coherent : arena.graph.Coherent) (touched : OrderedSet NodeId)
    (placement : Document.Placement) : Follows (fun x y => Tracks x.1 y.1 ∧ x.2 = y.2)
      (place (arena, touched) placement) (Graph.place (arena.graph, touched) placement) := by
  refine (tidy.declare_follows coherent placement.path placement.span.id).bind ?_
  rintro ⟨id, mid⟩ ⟨_, _⟩ ⟨rfl, tracks⟩
  exact .pure ⟨tracks, rfl⟩

theorem Tidy.placeAll_follows (tidy : arena.Tidy) (coherent : arena.graph.Coherent)
    (placements : List Document.Placement) :
    Follows (fun x y => (Tracks x.1 y.1 ∧ x.2 = y.2) ∧ y.1.Coherent) (placements.foldlM place (arena, ∅))
      (placements.foldlM Graph.place (arena.graph, ∅)) := by
  -- Placing keeps the graph coherent as it goes on with all that was placed before.
  have kept : Follows (fun x y => (Tracks x.1 y.1 ∧ x.2 = y.2) ∧ ∃ done, Graph.Placed arena.graph done y)
      (placements.foldlM place (arena, ∅)) (placements.foldlM Graph.place (arena.graph, ∅)) := by
    refine Follows.foldlM ⟨⟨tidy.tracks, rfl⟩, [], coherent.placed_nil⟩ ?_
    rintro ⟨mid, touched⟩ ⟨_, _⟩ ⟨⟨⟨rfl, midTidy⟩, rfl⟩, done, placed⟩ placement _
    exact (midTidy.place_follows placed.coherent touched placement).and
      ((placed.place_ensures placement).mono fun _ next => ⟨_, next⟩)
  exact kept.mono fun _ _ h => ⟨h.1, h.2.choose_spec.coherent⟩

theorem annotate_ensures (coherent : graph.Coherent) {id : NodeId} (held : ∃ node ∈ graph.nodes, node.id = id)
    (source : SpanId) (subject : Name) : Ensures (graph.annotate id source subject) fun next =>
      next.Coherent ∧ ∃ node ∈ next.nodes, node.id = id := by
  obtain ⟨node, member, rfl⟩ := held
  refine (coherent.annotate_succeeds member source subject).ensures.mono fun next annotated => ⟨annotated.coherent, ?_⟩
  obtain ⟨now, present, bare⟩ := annotated.node_after member
  exact ⟨now, present, congrArg (·.id) bare⟩

/-- A node gets the annotations of all its declarations. -/
theorem Tidy.annotateAll_follows (tidy : arena.Tidy) (coherent : arena.graph.Coherent) (document : Document)
    (id : NodeId) : Follows (fun arena graph => Tracks arena graph ∧ graph.Coherent) (annotateAll document arena id)
      (Graph.annotateAll document arena.graph id) := by
  refine (nodeOf_follows arena id).bind ?_
  rintro cell _ ⟨rfl, met⟩
  have same : cell.id = id := by simpa using List.find?_some met
  have member : cell.toNode ∈ arena.graph.nodes := mem_nodes_graph.mpr ⟨cell, List.mem_of_find?_eq_some met, rfl⟩
  have kept : Follows (fun arena graph => Tracks arena graph ∧ graph.Coherent ∧ ∃ node ∈ graph.nodes, node.id = id)
      ((document.annotationsOf cell.declarations.toList).foldlM
        (fun arena span => arena.annotate id span.id span.subject) arena)
      ((document.annotationsOf cell.declarations.toList).foldlM
        (fun graph span => graph.annotate id span.id span.subject) arena.graph) := by
    refine Follows.foldlM ⟨tidy.tracks, coherent, cell.toNode, member, same⟩ ?_
    rintro mid _ ⟨⟨rfl, midTidy⟩, midCoherent, node, present, rfl⟩ span _
    exact (midTidy.annotate_follows midCoherent.toFramed present span.id span.subject).and
      (annotate_ensures midCoherent ⟨node, present, rfl⟩ span.id span.subject)
  exact kept.mono fun _ _ h => ⟨h.1, h.2.1⟩

theorem Tidy.includeRegion_follows (tidy : arena.Tidy) (coherent : arena.graph.Coherent) (document : Document)
    (region : List Nat) : Follows Tracks (arena.includeRegion document region)
      (arena.graph.includeRegion document region) := by
  refine (tidy.placeAll_follows coherent _).bind ?_
  rintro ⟨mid, touched⟩ ⟨_, _⟩ ⟨⟨⟨rfl, midTidy⟩, rfl⟩, midCoherent⟩
  have kept : Follows (fun arena graph => Tracks arena graph ∧ graph.Coherent)
      (touched.toList.foldlM (annotateAll document) mid)
      (touched.toList.foldlM (Graph.annotateAll document) mid.graph) := by
    refine Follows.foldlM ⟨midTidy.tracks, midCoherent⟩ ?_
    rintro next _ ⟨⟨rfl, nextTidy⟩, nextCoherent⟩ id _
    exact nextTidy.annotateAll_follows nextCoherent document id
  exact kept.mono fun _ _ h => h.1

end Inclusion

section Exclusion

variable {outbounds : OrderedMap Name EdgeId} {node : Node}

/-- The map of outbound edges is that of the node. -/
def Leads (outbounds : OrderedMap Name EdgeId) (graph : Graph) (id : NodeId) : Prop :=
  ∀ subject, outbounds.find? subject = (graph.outbound? id subject).map Edge.id

theorem Leads.of_respanned {next : Graph} {id : NodeId} (leads : Leads outbounds graph id)
    (respanned : Graph.Respanned graph next) : Leads outbounds next id :=
  fun subject => (leads subject).trans (respanned.sameShape.map_find?_edges (fun _ => rfl) fun _ => rfl).symm

theorem Tidy.tracks_detach (tidy : arena.Tidy) (framed : arena.graph.Framed)
    (leads : Leads outbounds arena.graph node.id) (span : Span) :
    Tracks (detach outbounds arena span) (arena.graph.detach node.id span.id span.subject) := by
  unfold detach Graph.detach
  rw [leads span.subject]
  cases found : arena.graph.outbound? node.id span.subject with
  | none => exact tidy.tracks
  | some edge =>
    obtain ⟨listed, _, _⟩ := framed.outbound?_eq_some_iff.mp found
    have met : arena.edge? edge.id = some edge := framed.edge?_eq_some_iff.mpr ⟨listed, rfl⟩
    have resembles : Resembles arena (arena.modifyEdge edge.id fun edge' =>
        { edge' with sources := edge.sources.erase span.id }) :=
      resembles_modifyEdge edge.id fun _ _ _ => rfl
    simp only [Option.map_some, met]
    split
    · exact tidy.tracks_of_resembles (resembles.trans ⟨rfl, rfl, rfl, rfl, rfl, rfl, rfl⟩) rfl
    · exact tidy.tracks_of_resembles resembles rfl

theorem Tidy.tracks_detachAll (tidy : arena.Tidy) (framed : arena.graph.Framed) (member : node ∈ arena.graph.nodes)
    (leads : Leads outbounds arena.graph node.id) (annotations : List Span) :
    Tracks (annotations.foldl (detach outbounds) arena)
      (annotations.foldl (fun graph span => graph.detach node.id span.id span.subject) arena.graph) := by
  induction annotations generalizing arena with
  | nil => exact tidy.tracks
  | cons span annotations ih =>
    have first := framed.detached_detach member span.id span.subject
    obtain ⟨same, next⟩ := tidy.tracks_detach framed leads span
    rw [List.foldl_cons, List.foldl_cons, ← same]
    rw [← same] at first
    exact ih next (first.respanned.framed framed) (first.nodes ▸ member) (leads.of_respanned first.respanned)

theorem Tidy.tracks_withdraw (tidy : arena.Tidy) (framed : arena.graph.Framed) (path : TypePath) (span : SpanId)
    (annotations : List Span) : Tracks (arena.withdraw path span annotations)
      (arena.graph.withdraw path span annotations) := by
  unfold withdraw Graph.withdraw
  rw [tidy.byPath]
  cases found : arena.graph.nodeAt? path with
  | none => exact tidy.tracks
  | some node =>
    obtain ⟨member, _⟩ := framed.nodeAt?_eq_some_iff.mp found
    obtain ⟨cell, present, rfl, met⟩ := exists_cell framed member
    let rest := cell.declarations.erase span
    let mid := arena.modifyNode cell.id fun cell => { cell with declarations := rest }
    have graph : mid.graph = arena.graph.modifyNode cell.id fun node => { node with declarations := rest } :=
      graph_modifyNode cell.id fun _ => rfl
    have resembles : Resembles arena mid := resembles_modifyNode cell.id fun _ => rfl
    have respanned : Graph.Respanned arena.graph mid.graph :=
      graph ▸ Graph.respanned_modifyNode arena.graph cell.id fun _ => rest
    have now : { cell.toNode with declarations := rest } ∈ mid.graph.nodes := by
      rw [graph]
      exact Graph.mem_nodes_modifyNode.mpr ⟨cell.toNode, member, by simp⟩
    have leads : Leads cell.outbounds mid.graph cell.id :=
      Leads.of_respanned (fun subject => tidy.find?_outbounds present subject) respanned
    obtain ⟨same, next⟩ := (resembles.tidy tidy).tracks_detachAll (respanned.framed framed) now leads annotations
    rw [graph] at same
    simp only [Option.map_some, Option.bind_some, met]
    split
    · refine next.tracks_of_resembles ⟨rfl, rfl, rfl, rfl, rfl, rfl, rfl⟩ ?_
      rw [← same]
      rfl
    · exact ⟨same, next⟩

theorem Tidy.tracks_excludeRegion (tidy : arena.Tidy) (coherent : arena.graph.Coherent) (document : Document)
    (region : List Nat) : Tracks (arena.excludeRegion document region) (arena.graph.excludeRegion document region) := by
  unfold excludeRegion Graph.excludeRegion
  induction region.flatMap document.placements generalizing arena with
  | nil => exact tidy.tracks
  | cons placement placements ih =>
    have first := coherent.reduced_withdraw placement
    obtain ⟨same, next⟩ := tidy.tracks_withdraw coherent.toFramed placement.path placement.span.id
      placement.statement.annotations
    rw [List.foldl_cons, List.foldl_cons, ← same]
    rw [← same] at first
    exact ih next (first.respanned.coherent coherent)

end Exclusion

section Disposal

theorem Tidy.removeNodes_follow (tidy : arena.Tidy) (coherent : arena.graph.Coherent) (ids : List NodeId) :
    Follows Tracks (ids.foldlM removeNode arena) (ids.foldlM Graph.removeNode arena.graph) := by
  have kept : Follows (fun arena graph => Tracks arena graph ∧ graph.Coherent) (ids.foldlM removeNode arena)
      (ids.foldlM Graph.removeNode arena.graph) := by
    refine Follows.foldlM ⟨tidy.tracks, coherent⟩ ?_
    rintro arena _ ⟨⟨rfl, tidy⟩, coherent⟩ id _
    exact (tidy.removeNode_follows coherent id).and ((coherent.removeNode_ensures id).mono fun _ h => h.1)
  exact kept.mono fun _ _ h => h.1

/-- The vacant nodes, deepest first. -/
theorem vacant_eq (arena : Arena) (ids : List NodeId) :
    (stableSort (fun a b : Node => b.path.length ≤ a.path.length)
        ((ids.filterMap arena.graph.node?).filter (·.declarations.isEmpty))).map Node.id =
      (stableSort (fun a b : Cell => b.path.length ≤ a.path.length)
        ((ids.filterMap arena.node?).filter (·.declarations.isEmpty))).map fun cell => cell.id := by
  have nodes : (ids.filterMap arena.graph.node?).filter (·.declarations.isEmpty) =
      ((ids.filterMap arena.node?).filter (·.declarations.isEmpty)).map Cell.toNode := by
    have found := List.filterMap_congr fun id (_ : id ∈ ids) => node?_graph arena id
    rw [found, ← List.map_filterMap, List.filter_map]
    rfl
  rw [nodes, stableSort_map, List.map_map]
  rfl

theorem Tidy.dispose_follows (tidy : arena.Tidy) (coherent : arena.graph.Coherent) :
    Follows Tracks arena.dispose arena.graph.dispose := by
  let cleared : Arena := { arena with emptiedEdges := ∅, emptiedNodes := ∅ }
  have resembles : Resembles arena cleared := ⟨rfl, rfl, rfl, rfl, rfl, rfl, rfl⟩
  have respanned : Graph.Respanned arena.graph cleared.graph := ⟨rfl, rfl, rfl, rfl⟩
  have clearedCoherent := respanned.coherent coherent
  have pruned (ids : List EdgeId) := ((resembles.tidy tidy).removeEdges_follow clearedCoherent ids).and
    (clearedCoherent.removeEdges_succeed ids).ensures
  refine (pruned _).bind ?_
  rintro mid _ ⟨⟨rfl, midTidy⟩, midCoherent, _⟩
  have removed := midTidy.removeNodes_follow midCoherent
    ((stableSort (fun a b : Cell => b.path.length ≤ a.path.length)
      ((arena.emptiedNodes.toList.filterMap mid.node?).filter (·.declarations.isEmpty))).map fun cell => cell.id)
  have ids := vacant_eq mid arena.emptiedNodes.toList
  change Follows Tracks _ (List.foldlM Graph.removeNode mid.graph ((stableSort (fun a b : Node =>
    b.path.length ≤ a.path.length) ((arena.emptiedNodes.toList.filterMap mid.graph.node?).filter
      (·.declarations.isEmpty))).map Node.id))
  rw [ids]
  exact removed

end Disposal

section Calls

theorem Tidy.revalidate_follows (tidy : arena.Tidy) (coherent : arena.graph.Coherent) (document : Document)
    (parents : List StatementId) :
    Follows Tracks (arena.revalidate document parents) (arena.graph.revalidate document parents) := by
  unfold revalidate Graph.revalidate
  have pending : arena.graph.pending = arena.pending := rfl
  rw [pending]
  split
  · refine (Follows.refl (document.region parents)).bind ?_
    rintro region _ rfl
    let begun : Arena := { arena with pending := none }
    have resembles : Resembles arena begun := ⟨rfl, rfl, rfl, rfl, rfl, rfl, rfl⟩
    have respanned : Graph.Respanned arena.graph begun.graph := ⟨rfl, rfl, rfl, rfl⟩
    have begunCoherent := respanned.coherent coherent
    have included := ((resembles.tidy tidy).includeRegion_follows begunCoherent document region).and
      (begunCoherent.include_ensures document region)
    refine included.bind ?_
    rintro mid _ ⟨⟨rfl, midTidy⟩, brought⟩
    exact midTidy.dispose_follows brought.coherent
  · exact .error _

theorem Tidy.invalidate_follows (tidy : arena.Tidy) (coherent : arena.graph.Coherent) (document : Document)
    (parents : List StatementId) :
    Follows Tracks (arena.invalidate document parents) (arena.graph.invalidate document parents) := by
  unfold invalidate Graph.invalidate
  have pending : arena.graph.pending = arena.pending := rfl
  rw [pending]
  cases arena.pending with
  | some pending => exact .error _
  | none =>
    refine (Follows.refl (document.region parents)).bind ?_
    rintro region _ rfl
    let begun : Arena := { arena with pending := some document.id }
    have resembles : Resembles arena begun := ⟨rfl, rfl, rfl, rfl, rfl, rfl, rfl⟩
    have respanned : Graph.Respanned arena.graph begun.graph := ⟨rfl, rfl, rfl, rfl⟩
    exact .pure ((resembles.tidy tidy).tracks_excludeRegion (respanned.coherent coherent) document region)

theorem Tidy.call_follows (tidy : arena.Tidy) (coherent : arena.graph.Coherent) (request : Graph.Call) :
    Follows Tracks (arena.call request) (arena.graph.call request) := by
  cases request with
  | invalidate document parents => exact tidy.invalidate_follows coherent document parents
  | revalidate document parents => exact tidy.revalidate_follows coherent document parents
  | inclusion document region => exact tidy.includeRegion_follows coherent document region
  | exclusion document region => exact .ok (tidy.tracks_excludeRegion coherent document region)

/-- The arena goes through calls as its graph does. -/
theorem Tidy.callAll_follows (tidy : arena.Tidy) (coherent : arena.graph.Coherent) (accounted : arena.graph.Accounted)
    (calls : List Graph.Call) : Follows Tracks (arena.callAll calls) (arena.graph.callAll calls) := by
  have kept : Follows (fun arena graph => Tracks arena graph ∧ graph.Coherent ∧ graph.Accounted)
      (calls.foldlM call arena) (calls.foldlM Graph.call arena.graph) := by
    refine Follows.foldlM ⟨tidy.tracks, coherent, accounted⟩ ?_
    rintro arena _ ⟨⟨rfl, tidy⟩, coherent, accounted⟩ request _
    exact (tidy.call_follows coherent request).and (Graph.call_ensures coherent accounted request)
  exact kept.mono fun _ _ h => h.1

end Calls
end Arena
end OutlineTypes
