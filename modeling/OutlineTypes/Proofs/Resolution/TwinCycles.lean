import OutlineTypes.Proofs.Resolution.Finality
import OutlineTypes.Proofs.Resolution.TwinDrill
import OutlineTypes.Proofs.Resolution.TwinElsewhere

/-! Cutting cycles in twin sessions. A walk along the bases stays in the document where it began, so of the cycles
that are found in the first session those in paired documents are the ones found in the second. -/
namespace OutlineTypes

open OutlineTypes.Graph

variable {pairs : Pairing} {first second : Scene} {roll : List ParallelId}

section Walks

/-- Walks that met the same parallels and edges of paired documents. -/
structure TwinWalks (pairs : Pairing) (first second : Scene) (roll : List ParallelId) (walk twin : Session.Walk) :
    Prop where
  done : ∀ id number, Numbered roll id number → (number ∈ twin.done ↔ id ∈ walk.done)
  circular : OrderedSet.Rel (TwinEdgeIds pairs first.graph second.graph)
    (walk.circular.filter (· ∈ pairs.edges first.graph)) twin.circular

namespace TwinWalks

variable {walk twin : Session.Walk} {edges opposites : List EdgeId} {id number : ParallelId}

theorem leave (walks : TwinWalks pairs first second roll walk twin) (unique : Relator.BiUnique (Numbered roll))
    (same : Numbered roll id number) : TwinWalks pairs first second roll { walk with done := id :: walk.done }
      { twin with done := number :: twin.done } where
  done other place alike := by
    rw [List.mem_cons, List.mem_cons, walks.done other place alike, eq_iff_of_biUnique unique alike same]
  circular := walks.circular

theorem leave_elsewhere (walks : TwinWalks pairs first second roll walk twin) (elsewhere : id ∉ roll) :
    TwinWalks pairs first second roll { walk with done := id :: walk.done } twin where
  done other place alike := by
    have apart : other ≠ id := by
      rintro rfl
      exact elsewhere (exists_numbered_iff.mp ⟨place, alike⟩)
    rw [walks.done other place alike, List.mem_cons, or_iff_right apart]
  circular := walks.circular

theorem mem_circular (walks : TwinWalks pairs first second roll walk twin) (scenes : TwinScenes pairs first second)
    {edge opposite : EdgeId} (same : TwinEdgeIds pairs first.graph second.graph edge opposite) :
    opposite ∈ twin.circular ↔ edge ∈ walk.circular := by
  have both : edge ∈ walk.circular.filter (· ∈ pairs.edges first.graph) ↔ opposite ∈ twin.circular :=
    List.rel_mem scenes.paired.biUnique_twinEdgeIds same walks.circular
  rw [← both, OrderedSet.mem_filter, decide_eq_true_iff, and_iff_left (scenes.mem_edges same)]

theorem circle (walks : TwinWalks pairs first second roll walk twin) (scenes : TwinScenes pairs first second)
    (same : List.Forall₂ (TwinEdgeIds pairs first.graph second.graph) edges opposites) :
    TwinWalks pairs first second roll { walk with circular := walk.circular.insertAll edges }
      { twin with circular := twin.circular.insertAll opposites } where
  done := walks.done
  circular := by
    have ours : edges.filter (· ∈ pairs.edges first.graph) = edges := by
      refine List.filter_eq_self.mpr fun edge member => decide_eq_true ?_
      obtain ⟨opposite, _, alike⟩ := exists_mem_right_of_forall₂ same member
      exact scenes.mem_edges alike
    rw [OrderedSet.filter_insertAll, ours]
    exact OrderedSet.rel_insertAll scenes.paired.biUnique_twinEdgeIds walks.circular same

theorem circle_elsewhere (walks : TwinWalks pairs first second roll walk twin)
    (elsewhere : ∀ edge ∈ edges, edge ∉ pairs.edges first.graph) :
    TwinWalks pairs first second roll { walk with circular := walk.circular.insertAll edges } twin where
  done := walks.done
  circular := by
    have none : edges.filter (· ∈ pairs.edges first.graph) = [] :=
      List.filter_eq_nil_iff.mpr fun edge member => by simpa using elsewhere edge member
    rw [OrderedSet.filter_insertAll, none]
    exact walks.circular

end TwinWalks

end Walks

namespace TwinSessions

variable {session twin : Session} {id number : ParallelId} {walk again : Session.Walk} {document : DocumentId}

theorem baseEntriesOf (twins : TwinSessions pairs first second session twin)
    (same : Numbered (pairs.ids session) id number) :
    List.Forall₂ (fun entry opposite => TwinEdgeIds pairs first.graph second.graph entry.1 opposite.1 ∧
      Numbered (pairs.ids session) entry.2 opposite.2) (session.baseEntriesOf id) (twin.baseEntriesOf number) := by
  obtain ⟨parallel, other, here, there, alike⟩ := twins.exists_parallels same
  simp only [Session.baseEntriesOf, here, there, Option.toList_some, List.flatMap_singleton]
  exact alike.baseEntries

/-- No path of a walk has more parallels than there are, so either bound is enough. -/
theorem walkFrom (scenes : TwinScenes pairs first second) (twins : TwinSessions pairs first second session twin)
    {bound limit : Nat} {path others : List ParallelId}
    (along : List.Forall₂ (Numbered (pairs.ids session)) path others) (distinct : path.Nodup)
    (enough : (pairs.ids session).length < bound + path.length)
    (enoughToo : (pairs.ids session).length < limit + path.length) {edges opposites : List EdgeId}
    (trail : List.Forall₂ (TwinEdgeIds pairs first.graph second.graph) edges opposites)
    (same : Numbered (pairs.ids session) id number)
    (walks : TwinWalks pairs first second (pairs.ids session) walk again) :
    TwinWalks pairs first second (pairs.ids session) (session.walkFrom bound path edges id walk)
      (twin.walkFrom limit others opposites number again) := by
  have unique := twins.biUnique
  induction bound generalizing limit path others edges opposites id number walk again with
  | zero =>
    have inside : path ⊆ pairs.ids session := fun id member => exists_numbered_iff.mp (exists_right along member)
    have short := (distinct.subperm inside).length_le
    omega
  | succ bound ih =>
    cases limit with
    | zero =>
      have inside : path ⊆ pairs.ids session := fun id member => exists_numbered_iff.mp (exists_right along member)
      have short := (distinct.subperm inside).length_le
      omega
    | succ limit =>
      simp only [Session.walkFrom]
      refine TwinWalks.leave ?_ unique same
      refine List.rel_foldl ?_ walks (twins.baseEntriesOf same)
      rintro walk again walks ⟨edge, base⟩ ⟨opposite, other⟩ ⟨alike, bases⟩
      have marked := twins.cruft _ _ (.edge alike)
      simp only [Cruft.hasEdge, marked, walks.mem_circular scenes alike, idxOf?_of_biUnique unique along bases]
      split
      · exact walks
      · split
        · rename_i start _
          exact walks.circle scenes (List.rel_append (List.forall₂_drop start trail) (.cons alike .nil))
        · rename_i fresh
          simp only [walks.done base other bases]
          split
          · exact walks
          · have new : base ∉ path := List.idxOf?_eq_none_iff.mp fresh
            refine ih (List.rel_append along (.cons bases .nil)) ?_ ?_ ?_
              (List.rel_append trail (.cons alike .nil)) bases walks
            · refine List.nodup_append.mpr ⟨distinct, List.nodup_singleton _, fun x member y last => ?_⟩
              obtain rfl : y = base := List.mem_singleton.mp last
              exact ne_of_mem_of_not_mem member new
            · simp only [List.length_append, List.length_singleton]
              omega
            · simp only [List.length_append, List.length_singleton]
              omega

theorem not_mem_ids (twins : TwinSessions pairs first second session twin) (elsewhere : ¬pairs.Covers document)
    (held : session.Holds document id) : id ∉ pairs.ids session := by
  intro listed
  obtain ⟨parallel, member, rfl⟩ := List.mem_map.mp listed
  obtain ⟨among, covered⟩ := List.mem_filter.mp member
  obtain ⟨number, there⟩ := Session.exists_of_mem among
  obtain ⟨other, found, rfl⟩ := held
  rw [twins.numbers number parallel there, there, Option.some.injEq] at found
  exact elsewhere (found ▸ of_decide_eq_true covered)

/-- In a session at rest what leads out of a parallel is of the same document. -/
theorem entry_elsewhere (scenes : TwinScenes pairs first second) (rest : session.AtRest first)
    (elsewhere : ¬pairs.Covers document) (held : session.Holds document id) {edge : EdgeId} {base : ParallelId}
    (entry : (edge, base) ∈ session.baseEntriesOf id) :
    edge ∉ pairs.edges first.graph ∧ session.Holds document base := by
  have framed := scenes.paired.left.settled.toFramed
  obtain ⟨_, parallel, resolved, found, explicit, outbound, listed, rfl⟩ := rest.outbound_of_entry entry
  obtain ⟨node, member, leaves, path⟩ := rest.sane.explicit id parallel found resolved explicit
  obtain ⟨again, there, rfl⟩ := held
  cases there.symm.trans found
  obtain ⟨among, out⟩ := Graph.mem_outbounds.mp listed
  constructor
  · intro ours
    exact elsewhere (path ▸ (framed.mem_pairing_edges_iff among member (leaves.trans out.symm)).mp ours)
  · refine rest.sane.holds_of_mem_basesOf ⟨parallel, found, rfl⟩ base ?_
    exact Session.inherits_iff.mpr ⟨outbound.id, entry⟩

/-- A walk in another document. -/
theorem walkFrom_elsewhere (scenes : TwinScenes pairs first second)
    (twins : TwinSessions pairs first second session twin) (rest : session.AtRest first)
    (elsewhere : ¬pairs.Covers document) (bound : Nat) (path : List ParallelId) {edges : List EdgeId}
    (trail : ∀ edge ∈ edges, edge ∉ pairs.edges first.graph) (held : session.Holds document id)
    (walks : TwinWalks pairs first second (pairs.ids session) walk again) :
    TwinWalks pairs first second (pairs.ids session) (session.walkFrom bound path edges id walk) again := by
  induction bound generalizing path edges id walk with
  | zero => exact walks
  | succ bound ih =>
    simp only [Session.walkFrom]
    refine TwinWalks.leave_elsewhere ?_ (twins.not_mem_ids elsewhere held)
    refine List.foldlRecOn (motive := fun walk => TwinWalks pairs first second (pairs.ids session) walk again) _ _
      walks fun walk walks entry member => ?_
    obtain ⟨edge, base⟩ := entry
    obtain ⟨out, inside⟩ := entry_elsewhere scenes rest elsewhere held member
    have onward : ∀ other ∈ edges ++ [edge], other ∉ pairs.edges first.graph :=
      List.forall_mem_append.mpr ⟨trail, List.forall_mem_singleton.mpr out⟩
    simp only
    split
    · exact walks
    · split
      · refine walks.circle_elsewhere (List.forall_mem_append.mpr ⟨fun other member => ?_, ?_⟩)
        · exact trail other (List.mem_of_mem_drop member)
        · exact List.forall_mem_singleton.mpr out
      · split
        · exact walks
        · exact ih _ onward inside walks

/-- The roots of walks, of whatever documents. -/
theorem walkAll (scenes : TwinScenes pairs first second) (twins : TwinSessions pairs first second session twin)
    (rest : session.AtRest first) {parallels opposites : List Parallel} (among : parallels ⊆ session.parallels)
    (same : List.Forall₂ (TwinParallels pairs first second (pairs.ids session))
      (parallels.filter fun parallel => pairs.Covers parallel.path.document) opposites)
    (walks : TwinWalks pairs first second (pairs.ids session) walk again) :
    TwinWalks pairs first second (pairs.ids session)
      (((parallels.filter Parallel.isExplicit).map Parallel.id).foldl (fun walk root =>
        if root ∈ walk.done then walk else session.walkFrom (session.size + 1) [root] [] root walk) walk)
      (((opposites.filter Parallel.isExplicit).map Parallel.id).foldl (fun walk root =>
        if root ∈ walk.done then walk else twin.walkFrom (twin.size + 1) [root] [] root walk) again) := by
  induction parallels generalizing opposites walk again with
  | nil =>
    cases same
    exact walks
  | cons parallel parallels ih =>
    rw [List.cons_subset] at among
    by_cases covered : pairs.Covers parallel.path.document
    · rw [List.filter_cons_of_pos (by simpa using covered)] at same
      cases same with
      | cons alike rest =>
        rw [List.filter_cons, List.filter_cons, alike.isExplicit]
        split
        · refine ih among.2 rest ?_
          simp only [walks.done _ _ alike.id]
          split
          · exact walks
          · have short : (pairs.ids session).length ≤ session.size := size_le session
            have size := twins.size
            refine twins.walkFrom scenes (.cons alike.id .nil) (List.nodup_singleton _) ?_ ?_ .nil alike.id walks
            · simp only [List.length_singleton]
              omega
            · simp only [List.length_singleton]
              omega
        · exact ih among.2 rest walks
    · rw [List.filter_cons_of_neg (by simpa using covered)] at same
      rw [List.filter_cons]
      split
      · refine ih among.2 same ?_
        simp only
        split
        · exact walks
        · obtain ⟨number, there⟩ := Session.exists_of_mem among.1
          refine twins.walkFrom_elsewhere scenes rest covered _ _ (by simp) ⟨parallel, ?_, rfl⟩ walks
          rwa [twins.numbers number parallel there]
      · exact ih among.2 same walks

theorem circularEdges (scenes : TwinScenes pairs first second) (twins : TwinSessions pairs first second session twin)
    (rest : session.AtRest first) : List.Forall₂ (TwinEdgeIds pairs first.graph second.graph)
      (session.circularEdges.filter (· ∈ pairs.edges first.graph)) twin.circularEdges := by
  have started : TwinWalks pairs first second (pairs.ids session) ⟨[], ∅⟩ ⟨[], ∅⟩ := ⟨by simp, .nil⟩
  exact (twins.walkAll scenes rest (List.Subset.refl _) twins.parallels started).circular

theorem condemnAll (scenes : TwinScenes pairs first second) (twins : TwinSessions pairs first second session twin)
    {edges opposites : List EdgeId} (same : List.Forall₂ (TwinEdgeIds pairs first.graph second.graph)
      (edges.filter (· ∈ pairs.edges first.graph)) opposites) (kind : FaultKind) :
    TwinSessions pairs first second (edges.foldl (fun session edge => session.condemn first (.edge edge) kind) session)
      (opposites.foldl (fun session edge => session.condemn second (.edge edge) kind) twin) := by
  induction edges generalizing session twin opposites with
  | nil =>
    cases same
    exact twins
  | cons edge edges ih =>
    by_cases ours : edge ∈ pairs.edges first.graph
    · rw [List.filter_cons_of_pos (by simpa using ours)] at same
      cases same with
      | cons alike rest => exact ih (twins.condemn scenes (.edge alike) kind).toTwinSessions rest
    · rw [List.filter_cons_of_neg (by simpa using ours)] at same
      have condemned := twins.condemn_elsewhere scenes ours kind
      exact ih { condemned with inFlight := twins.inFlight, raking := twins.raking } same

theorem cutCycles (scenes : TwinScenes pairs first second) (twins : TwinSessions pairs first second session twin)
    (rest : session.AtRest first) :
    TwinRuns pairs first second (pairs.ids session) (session.cutCycles first) (twin.cutCycles second) := by
  have unique := scenes.paired.biUnique_twinEdgeIds
  have edges := twins.circularEdges scenes rest
  have condemned := twins.condemnAll scenes edges .circular
  have calm := Session.calm_foldl (fun session edge => Session.calm_condemn session first (.edge edge) .circular)
    session session.circularEdges
  unfold Session.cutCycles
  generalize session.circularEdges = cut at edges condemned calm ⊢
  generalize twin.circularEdges = cutToo at edges condemned ⊢
  simp only
  generalize cut.foldl _ session = next at condemned calm ⊢
  generalize cutToo.foldl _ twin = last at condemned ⊢
  have own : pairs.parallels { next with parallels := next.parallels.map (Parallel.dropBases cut) } =
      (pairs.parallels next).map (Parallel.dropBases cut) := List.filter_map
  have ids : pairs.ids { next with parallels := next.parallels.map (Parallel.dropBases cut) } = pairs.ids next := by
    rw [Graph.Pairing.ids, own, List.map_map]
    rfl
  have same : pairs.ids next = pairs.ids session := by
    rw [Graph.Pairing.ids, Graph.Pairing.parallels, calm.parallels]
    rfl
  refine ⟨⟨⟨?_, ?_, condemned.cruft, condemned.faults, condemned.prepared⟩, condemned.inFlight,
    ids.symm ▸ condemned.raking⟩, ids.symm ▸ same.symm ▸ List.prefix_refl _⟩
  · intro id now found
    simp only [Session.parallel?, List.getElem?_map] at found
    obtain ⟨parallel, there, rfl⟩ := Option.map_eq_some_iff.mp found
    exact condemned.numbers id parallel there
  · rw [own, ids, List.forall₂_map_left_iff, List.forall₂_map_right_iff]
    refine condemned.parallels.imp fun parallel opposite alike => alike.mapResolved fun resolved twin alike => ?_
    refine { alike with bases := OrderedMap.rel_filter alike.bases fun edge other met _ _ _ => ?_ }
    have listed : edge ∈ cut.filter (· ∈ pairs.edges first.graph) ↔ other ∈ cutToo := List.rel_mem unique met edges
    have cutBoth : other ∈ cutToo ↔ edge ∈ cut := by
      rw [← listed, List.mem_filter, decide_eq_true_iff, and_iff_left (scenes.mem_edges met)]
    simp only [cutBoth]

section Drills

variable {path other : TypePath}

theorem drill (scenes : TwinScenes pairs first second) (twins : TwinSessions pairs first second session twin)
    (rest : session.AtRest first) (same : pairs.SamePath path other) :
    Lockstep (TwinResults pairs first second (fun roll => Option.Rel (Numbered roll)) (pairs.ids session))
      (session.drill first path) (twin.drill second other) := by
  have coherent := scenes.paired.left.settled.toCoherent
  have runs := drillWithin scenes (Session.drillBound first) (Session.drillBound second) path other session twin same
    twins
  intro result last made madeToo
  obtain ⟨⟨outcome, next⟩, inner, made⟩ := exists_ok_of_bind made
  obtain ⟨⟨opposite, final⟩, innerToo, madeToo⟩ := exists_ok_of_bind madeToo
  cases made
  cases madeToo
  obtain ⟨alike, sessions⟩ := runs _ _ inner innerToo
  have still := rest.advance (rest.drillWithin_ensures coherent _ path _ inner).1
  have cut := sessions.toTwinSessions.cutCycles scenes still
  refine ⟨?_, cut.since sessions.grown⟩
  cases alike with
  | resolved same => exact .some (same.mono cut.grown)
  | unpopulated => exact .none
  | circular => exact .none

/-- A drill in another document. -/
theorem drill_elsewhere (scenes : TwinScenes pairs first second)
    (twins : TwinSessions pairs first second session twin) (rest : session.AtRest first) (again : twin.AtRest second)
    (acyclic : twin.Acyclic) (elsewhere : ¬pairs.Covers path.document) :
    Ensures (session.drill first path) fun result => TwinSessions pairs first second result.2 twin := by
  have coherent := scenes.paired.left.settled.toCoherent
  have steps := Session.drillWithin_steps coherent (Session.drillBound first) path session rfl (rest.sane.closed _)
  have settles := rest.drillWithin_ensures coherent (Session.drillBound first) path
  unfold Session.drill
  refine (settles.and steps).bind fun result h => .pure ?_
  have still := rest.advance h.1.1
  have held := twins.toTwinHoldings.steps scenes elsewhere h.2.1
  have sessions : TwinSessions pairs first second result.2 twin := by
    refine { held with inFlight := ?_, raking := ?_ }
    · rw [still.idle, again.idle]
      exact .nil
    · rw [still.quiet, again.quiet]
      exact .nil
  have cut := (sessions.cutCycles scenes still).toTwinSessions
  rwa [again.sane.cutCycles_of_acyclic acyclic] at cut

end Drills

end TwinSessions

end OutlineTypes
