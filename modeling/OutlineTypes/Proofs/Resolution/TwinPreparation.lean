import OutlineTypes.Proofs.Resolution.Completion
import OutlineTypes.Proofs.Resolution.Ledger
import OutlineTypes.Proofs.Resolution.TwinElsewhere

/-! Preparing twin sessions. The lines of paired documents are misindented alike, and what stands on their
spans alone is then condemned in whatever order the graphs list it, as nothing more is reported. Lines of other
documents are no matter. -/
namespace OutlineTypes

open OutlineTypes.Graph

variable {pairs : Pairing} {first second : Scene}

/-- Without any cruft nothing stands on cruft alone, so preparing may look for that in any case. -/
theorem Graph.Settled.prepare_eq {scene : Scene} (settled : scene.graph.Settled) {session : Session}
    (unprepared : session.prepared = false) : session.prepare scene =
      (((Session.misindented scene.documents).foldl Session.condemnStatement { session with prepared := true }
        ).condemnGroundless scene (scene.graph.nodes.map (.node ·.id))).condemnGroundless scene
          (scene.graph.edges.map (.edge ·.id)) := by
  simp only [Session.prepare, unprepared, Bool.false_eq_true, ↓reduceIte]
  generalize (Session.misindented scene.documents).foldl _ _ = start
  split
  · rename_i clean
    have unmarked (id : SpanId) : start.cruft.hasSpan id = false := by
      simp only [Cruft.isEmpty, Bool.and_eq_true, OrderedMap.isEmpty, List.isEmpty_iff] at clean
      simp [Cruft.hasSpan, Cruft.has, Cruft.reason?, OrderedMap.find?, clean.2]
    have founded (spans : OrderedSet SpanId) (full : spans.isEmpty = false) :
        spans.toList.all start.cruft.hasSpan = false := by
      obtain ⟨span, member⟩ := OrderedSet.exists_mem_of_isEmpty_eq_false full
      exact List.all_eq_false.mpr ⟨span, member, by simp [unmarked]⟩
    have nodes : start.condemnGroundless scene (scene.graph.nodes.map (.node ·.id)) = start := by
      rw [Session.condemnGroundless, List.filter_eq_nil_iff.mpr, List.foldl_nil]
      intro target listed
      obtain ⟨node, member, rfl⟩ := List.mem_map.mp listed
      simp [Cruft.spansBehind, settled.node?_id member, founded _ (settled.nodes node member)]
    have edges : start.condemnGroundless scene (scene.graph.edges.map (.edge ·.id)) = start := by
      rw [Session.condemnGroundless, List.filter_eq_nil_iff.mpr, List.foldl_nil]
      intro target listed
      obtain ⟨edge, member, rfl⟩ := List.mem_map.mp listed
      have found : scene.graph.edge? edge.id = some edge := settled.edge?_eq_some_iff.mpr ⟨member, rfl⟩
      simp [Cruft.spansBehind, found, founded _ (settled.edges edge member)]
    rw [nodes, edges]
  · rfl

section Lines

/-- A line and the same line of the paired document. -/
structure TwinLines (pairs : Pairing) (place again : Document × Statement) : Prop where
  pair : (place.1, again.1) ∈ pairs
  here : place.2 ∈ place.1.statements
  there : again.2 ∈ again.1.statements
  same : pairs.SameLine place.2.id again.2.id
  like : place.2.Like again.2

theorem TwinScenes.spans (scenes : TwinScenes pairs first second) {place again : Document × Statement}
    (lines : TwinLines pairs place again) :
    List.Forall₂ pairs.SamePlace (place.2.spans.map Span.id) (again.2.spans.map Span.id) := by
  have left := scenes.paired.left.sound _ (List.mem_map_of_mem lines.pair)
  have right := scenes.paired.right.sound _ (List.mem_map_of_mem lines.pair)
  have on (side : Side) : List.Forall₂ pairs.SamePlace ((place.2.side side).map Span.id)
      ((again.2.side side).map Span.id) := by
    have length : (again.2.side side).length = (place.2.side side).length := by
      simpa using congrArg List.length (lines.like.subjects side)
    rw [left.ids_side lines.here, right.ids_side lines.there, length, List.forall₂_map_left_iff,
      List.forall₂_map_right_iff, List.forall₂_same]
    exact fun position _ => Pairing.samePlace_iff.mpr ⟨lines.same, rfl, rfl⟩
  simp only [Statement.spans, List.map_append]
  exact List.rel_append (on .declared) (on .annotated)

/-- Paired documents have the same lines, up to lines at the end of the one that take no part. -/
theorem TwinScenes.lines (scenes : TwinScenes pairs first second) {pair : Document × Document}
    (member : pair ∈ pairs) : ∃ front rest, pair.1.statements = front ++ rest ∧
      (∀ line ∈ rest, line.noop = true) ∧
      List.Forall₂ (fun line other => TwinLines pairs (pair.1, line) (pair.2, other)) front
        pair.2.statements := by
  have left := scenes.paired.left.sound _ (List.mem_map_of_mem member)
  have right := scenes.paired.right.sound _ (List.mem_map_of_mem member)
  obtain ⟨front, rest, split, silent, like⟩ := scenes.paired.like pair member
  refine ⟨front, rest, split, silent, List.forall₂_iff_get.mpr ⟨like.length_eq, fun index before inside => ?_⟩⟩
  have here : pair.1.get? index = some (front.get ⟨index, before⟩) := by
    rw [Document.get?, split, List.getElem?_append_left before, List.getElem?_eq_getElem before]
    rfl
  have there : pair.2.get? index = some (pair.2.statements.get ⟨index, inside⟩) :=
    List.getElem?_eq_getElem inside
  exact ⟨member, List.mem_of_getElem? here, List.mem_of_getElem? there,
    ⟨pair, member, index, left.position?_eq_some_iff.mpr ⟨_, here, rfl⟩,
      right.position?_eq_some_iff.mpr ⟨_, there, rfl⟩⟩, List.Forall₂.get like before inside⟩

theorem TwinScenes.misindented (scenes : TwinScenes pairs first second) :
    List.Forall₂ (TwinLines pairs)
      ((Session.misindented first.documents).filter fun place => pairs.Covers place.1.id)
      (Session.misindented second.documents) := by
  have within : ∀ some ⊆ pairs, List.Forall₂ (TwinLines pairs)
      ((some.map Prod.fst).flatMap Document.misindented) ((some.map Prod.snd).flatMap Document.misindented) := by
    intro some
    induction some with
    | nil => exact fun _ => .nil
    | cons pair some ih =>
      intro subset
      rw [List.cons_subset] at subset
      obtain ⟨front, rest, split, silent, lines⟩ := scenes.lines subset.1
      have none : rest.filter (fun line => line.mixed && !line.noop) = [] := by
        refine List.filter_eq_nil_iff.mpr fun line member => ?_
        simp [silent line member]
      simp only [List.map_cons, List.flatMap_cons]
      refine List.rel_append ?_ (ih subset.2)
      rw [Document.misindented, Document.misindented, split, List.filter_append, none, List.append_nil,
        List.forall₂_map_left_iff, List.forall₂_map_right_iff]
      refine List.rel_filter (fun line other same => ?_) lines
      have mixed : other.mixed = line.mixed := same.like.mixed
      have noop : other.noop = line.noop := same.like.noop
      simp only [mixed, noop]
  rw [scenes.left, scenes.right]
  exact within pairs (List.Subset.refl _)

theorem TwinTargets.mem_nodes_iff {target again : CruftTarget}
    (same : TwinTargets pairs first second target again) :
    again ∈ second.graph.nodes.map (fun node => CruftTarget.node node.id) ↔
      target ∈ first.graph.nodes.map (fun node => CruftTarget.node node.id) := by
  cases same with
  | node same =>
    obtain ⟨node, twin, twins, rfl, rfl⟩ := same
    exact iff_of_true (List.mem_map.mpr ⟨twin, twins.there, rfl⟩) (List.mem_map.mpr ⟨node, twins.here, rfl⟩)
  | edge => simp
  | span => simp

theorem TwinTargets.mem_edges_iff {target again : CruftTarget}
    (same : TwinTargets pairs first second target again) :
    again ∈ second.graph.edges.map (fun edge => CruftTarget.edge edge.id) ↔
      target ∈ first.graph.edges.map (fun edge => CruftTarget.edge edge.id) := by
  cases same with
  | node => simp
  | edge same =>
    obtain ⟨edge, twin, twins, rfl, rfl⟩ := same
    exact iff_of_true (List.mem_map.mpr ⟨twin, twins.there, rfl⟩) (List.mem_map.mpr ⟨edge, twins.here, rfl⟩)
  | span => simp

end Lines

namespace TwinSessions

variable {session twin : Session}

theorem empty (version again : Nat) : TwinSessions pairs first second (.empty version) (.empty again) where
  numbers _ _ found := by simp [Session.empty, Session.parallel?] at found
  parallels := .nil
  cruft _ _ same := by cases same <;> rfl
  faults := .nil
  prepared := rfl
  inFlight := .nil
  raking := .nil

theorem groundless_iff (scenes : TwinScenes pairs first second)
    (twins : TwinSessions pairs first second session twin) {target again : CruftTarget}
    (same : TwinTargets pairs first second target again) :
    (Cruft.spansBehind second.graph again).all twin.cruft.hasSpan =
      (Cruft.spansBehind first.graph target).all session.cruft.hasSpan := by
  have spans := scenes.spansBehind same
  generalize Cruft.spansBehind first.graph target = xs at spans ⊢
  generalize Cruft.spansBehind second.graph again = ys at spans ⊢
  induction spans with
  | nil => rfl
  | cons same _ ih =>
    rw [List.all_cons, List.all_cons, ih, Cruft.hasSpan, Cruft.hasSpan, twins.cruft _ _ (.span same)]

/-- The targets may come in any order. -/
theorem condemnGroundless (scenes : TwinScenes pairs first second)
    (twins : TwinSessions pairs first second session twin) {targets others : List CruftTarget}
    (same : ∀ target again, TwinTargets pairs first second target again → (again ∈ others ↔ target ∈ targets)) :
    TwinSessions pairs first second (session.condemnGroundless first targets)
      (twin.condemnGroundless second others) := by
  rw [Session.condemnGroundless_eq, Session.condemnGroundless_eq]
  refine { twins with cruft := fun target again pair => ?_ }
  rw [Cruft.has_markAll, Cruft.has_markAll, twins.cruft _ _ pair]
  congr 1
  rw [decide_eq_decide, List.mem_filter, List.mem_filter, same _ _ pair, twins.groundless_iff scenes pair]

theorem condemnStatement (scenes : TwinScenes pairs first second)
    (twins : TwinSessions pairs first second session twin) {place again : Document × Statement}
    (lines : TwinLines pairs place again) :
    TwinSessions pairs first second (session.condemnStatement place) (twin.condemnStatement again) := by
  obtain ⟨document, line⟩ := place
  obtain ⟨other, twinLine⟩ := again
  have left := scenes.paired.left.sound _ (List.mem_map_of_mem lines.pair)
  have right := scenes.paired.right.sound _ (List.mem_map_of_mem lines.pair)
  have fault := scenes.atStatement? .tabs lines.same
  rw [(left.owned _ lines.here).1, (right.owned _ lines.there).1,
    scenes.findLeft _ lines.pair (List.ne_nil_of_mem lines.here),
    scenes.findRight _ lines.pair (List.ne_nil_of_mem lines.there)] at fault
  have marked : TwinCruft pairs first second
      ((line.spans.map Span.id).foldl (fun cruft id => cruft.mark (.span id) .tabs) session.cruft)
      ((twinLine.spans.map Span.id).foldl (fun cruft id => cruft.mark (.span id) .tabs) twin.cruft) := by
    refine List.rel_foldl ?_ twins.cruft (scenes.spans lines)
    intro cruft twin same id again place
    exact same.mark scenes (.span place) .tabs .tabs
  rw [List.foldl_map, List.foldl_map] at marked
  exact { twins with cruft := marked, faults := scenes.note twins.faults fault }

/-- A line of another document. -/
theorem condemnStatement_elsewhere (scenes : TwinScenes pairs first second)
    (twins : TwinSessions pairs first second session twin) {document : Document} (sound : document.Sound)
    {line : Statement} (member : line ∈ document.statements) (elsewhere : ¬pairs.Covers document.id) :
    TwinSessions pairs first second (session.condemnStatement (document, line)) twin := by
  have owner := (sound.owned line member).1
  refine { twins with cruft := fun target again same => ?_, faults := ?_ }
  · have apart : target ∉ (line.spans.map Span.id).map CruftTarget.span := by
      intro among
      obtain ⟨_, listed, rfl⟩ := List.mem_map.mp among
      obtain ⟨span, here, rfl⟩ := List.mem_map.mp listed
      refine scenes.span_elsewhere ?_ again same
      rwa [sound.statement_of_mem_spans member here, owner]
    have marked := Cruft.has_markAll .tabs ((line.spans.map Span.id).map CruftTarget.span) session.cruft target
    rw [List.foldl_map, List.foldl_map, decide_eq_false apart, Bool.or_false] at marked
    exact (twins.cruft _ _ same).trans marked.symm
  · unfold TwinLogs
    simp only [Session.condemnStatement]
    rw [Graph.Pairing.faults_note_elsewhere]
    · exact twins.faults
    · intro fault located covered
      have place := Fault.place_of_atStatement? located
      have statement : fault.statement = line.id := congrArg (·.2.1) place
      rw [statement, owner] at covered
      exact elsewhere covered

/-- Lines of other documents may come in between. -/
theorem condemnStatements (scenes : TwinScenes pairs first second)
    (twins : TwinSessions pairs first second session twin) {places others : List (Document × Statement)}
    (kept : ∀ place ∈ places, place.1.Sound ∧ place.2 ∈ place.1.statements)
    (lines : List.Forall₂ (TwinLines pairs) (places.filter fun place => pairs.Covers place.1.id) others) :
    TwinSessions pairs first second (places.foldl Session.condemnStatement session)
      (others.foldl Session.condemnStatement twin) := by
  induction places generalizing session twin others with
  | nil =>
    cases lines
    exact twins
  | cons place places ih =>
    rw [List.forall_mem_cons] at kept
    by_cases covered : pairs.Covers place.1.id
    · rw [List.filter_cons_of_pos (by simpa using covered)] at lines
      cases lines with
      | cons same rest => exact ih (twins.condemnStatement scenes same) kept.2 rest
    · rw [List.filter_cons_of_neg (by simpa using covered)] at lines
      exact ih (twins.condemnStatement_elsewhere scenes kept.1.1 kept.1.2 covered) kept.2 lines

theorem prepare (scenes : TwinScenes pairs first second) (twins : TwinSessions pairs first second session twin) :
    TwinSessions pairs first second (session.prepare first) (twin.prepare second) := by
  by_cases prepared : session.prepared
  · rw [Session.prepare_of_prepared prepared, Session.prepare_of_prepared (twins.prepared.trans prepared)]
    exact twins
  rw [Bool.not_eq_true] at prepared
  rw [scenes.paired.left.settled.prepare_eq prepared,
    scenes.paired.right.settled.prepare_eq (twins.prepared.trans prepared)]
  have started : TwinSessions pairs first second { session with prepared := true }
      { twin with prepared := true } := { twins with prepared := rfl }
  have kept (place : Document × Statement) (listed : place ∈ Session.misindented first.documents) :
      place.1.Sound ∧ place.2 ∈ place.1.statements := by
    obtain ⟨among, member, _⟩ := Session.mem_misindented.mp listed
    exact ⟨scenes.sound _ among, member⟩
  have condemned := started.condemnStatements scenes kept scenes.misindented
  have nodes := condemned.condemnGroundless scenes fun _ _ same => same.mem_nodes_iff
  exact nodes.condemnGroundless scenes fun _ _ same => same.mem_edges_iff

end TwinSessions

end OutlineTypes
