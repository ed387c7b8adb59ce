import OutlineTypes.Proofs.Resolution.Descent
import OutlineTypes.Proofs.Resolution.Raking

/-! Drilling in sane sessions. Every drill succeeds, whichever drills are under way: those inside the
outermost go to nodes of its document, no two to the same path, so there are at most as many as nodes. -/
namespace OutlineTypes.Session

variable {drill : Driller} {scene : Scene} {session : Session} {document : DocumentId}
  {flight : List TypePath}

section Descent

variable {path : TypePath}

theorem surface_succeeds (sane : session.Sane scene.graph) (coherent : scene.graph.Coherent)
    (drills : DrillsNodes scene.graph document flight drill) (under : session.inFlight = flight)
    (ours : path.document = document) (absent : session.lookup? (path.upTo 1) = none) :
    Succeeds (session.surface drill scene path) fun result => result.2.Sane scene.graph ∧
      Extends session result.2 ∧ ∀ id, result.1 = some id →
        ∃ parallel, result.2.parallel? id = some parallel ∧ parallel.path = path.upTo 1 := by
  unfold surface
  simp only
  split
  · exact .pure ⟨sane, .refl session, by simp⟩
  · rename_i node stands
    refine (sane.insert_succeeds absent none (some node) fun id same => ?_).bind
      fun result inserted => ?_
    · cases same
      exact exists_node_of_soundNode? stands
    · obtain ⟨id, next⟩ := result
      obtain ⟨inserted, nextSane, grows⟩ := inserted
      obtain ⟨parallel, found, standing, _⟩ := inserted.found
      have held : next.Holds document id := ⟨parallel, found, by rw [standing]; exact ours⟩
      refine (nextSane.rake_succeeds coherent drills (grows.inFlight.trans under) held).bind
        fun last h => .pure ⟨h.1, grows.trans h.2, fun other same => ?_⟩
      cases same
      obtain ⟨now, present, samePath, _⟩ := h.2.keeps id parallel found
      exact ⟨now, present, samePath.trans standing⟩

theorem descendAlong_succeeds (coherent : scene.graph.Coherent)
    (drills : DrillsNodes scene.graph document flight drill) (names : List Name)
    (sane : session.Sane scene.graph) (under : session.inFlight = flight) {id : ParallelId}
    {parallel : Parallel} (found : session.parallel? id = some parallel)
    (ours : parallel.path.document = document) :
    Succeeds (descendAlong drill scene names id session) fun result => result.2.Sane scene.graph ∧
      Extends session result.2 ∧ ∀ last, result.1 = .resolved last →
        ∃ now, result.2.parallel? last = some now ∧ now.path.document = document ∧
          now.path.names = parallel.path.names ++ names := by
  induction names generalizing session id parallel with
  | nil =>
    refine .ok ⟨sane, .refl session, fun last same => ?_⟩
    cases same
    exact ⟨parallel, found, ours, by simp⟩
  | cons name rest ih =>
    rw [descendAlong]
    refine (sane.descend_succeeds ⟨parallel, found, ours⟩ name).bind fun result h => ?_
    obtain ⟨child, next⟩ := result
    obtain ⟨nextSane, grows, stands⟩ := h
    cases child with
    | none => exact .pure ⟨nextSane, grows, by simp⟩
    | some child =>
      obtain ⟨around, below, aroundFound, belowFound, path⟩ := stands child rfl
      obtain ⟨now, nowFound, nowPath, _⟩ := grows.keeps id parallel found
      cases nowFound.symm.trans aroundFound
      have inside : below.path.document = document := by
        rw [path, TypePath.document_child, nowPath]
        exact ours
      refine (nextSane.rake_succeeds coherent drills (grows.inFlight.trans under)
        ⟨below, belowFound, inside⟩).bind fun raked h => ?_
      obtain ⟨rakedSane, rakedGrows⟩ := h
      obtain ⟨later, laterFound, laterPath, _⟩ := rakedGrows.keeps child below belowFound
      have all := grows.trans rakedGrows
      refine (ih rakedSane (all.inFlight.trans under) laterFound (laterPath ▸ inside)).mono fun result h => ?_
      obtain ⟨lastSane, lastGrows, reached⟩ := h
      refine ⟨lastSane, all.trans lastGrows, fun last same => ?_⟩
      obtain ⟨final, finalFound, finalDocument, names⟩ := reached last same
      refine ⟨final, finalFound, finalDocument, ?_⟩
      rw [names, laterPath, path, TypePath.names_child, nowPath, List.append_assoc, List.singleton_append]

theorem longestCached?_eq_some {length : Nat} {id : ParallelId}
    (found : session.longestCached? path = some (length, id)) :
    1 ≤ length ∧ session.lookup? (path.upTo length) = some id := by
  obtain ⟨at_, listed, cached⟩ := List.exists_of_findSome?_eq_some found
  obtain ⟨other, looked, same⟩ := Option.map_eq_some_iff.mp cached
  cases same
  rw [List.mem_reverse, List.mem_drop_iff_getElem] at listed
  obtain ⟨offset, bound, eq⟩ := listed
  simp only [List.getElem_range] at eq
  exact ⟨by omega, looked⟩

theorem lookup?_of_longestCached?_eq_none (absent : session.lookup? path = none)
    (uncached : session.longestCached? path = none) : session.lookup? (path.upTo 1) = none := by
  have positive := path.length_pos
  by_cases root : path.length = 1
  · have whole : path.upTo 1 = path := by
      refine TypePath.ext_names rfl ?_
      simp only [TypePath.length] at root
      simp [TypePath.upTo, ← root]
    rw [whole]
    exact absent
  · rw [longestCached?, List.findSome?_eq_none_iff] at uncached
    have listed : 1 ∈ ((List.range path.length).drop 1).reverse := by
      rw [List.mem_reverse, List.mem_drop_iff_getElem]
      exact ⟨0, by simp; omega, by simp⟩
    exact Option.map_eq_none_iff.mp (uncached 1 listed)

theorem drillNew_succeeds (coherent : scene.graph.Coherent)
    (drills : DrillsNodes scene.graph document flight drill) (sane : session.Sane scene.graph)
    (under : session.inFlight = flight) (ours : path.document = document)
    (absent : session.lookup? path = none) :
    Succeeds (drillNew drill scene path session) (Drilled scene.graph session path) := by
  have arrives {parallel : Parallel} {count : Nat} (positive : 1 ≤ count)
      (at_ : parallel.path = path.upTo count) (document_eq : parallel.path.document = document)
      {now : Parallel} (inside : now.path.document = document)
      (names : now.path.names = parallel.path.names ++ path.names.drop count) : now.path = path := by
    refine TypePath.ext_names (inside.trans ours.symm) ?_
    rw [names, at_, TypePath.upTo]
    simp only [Nat.max_eq_right positive, List.take_append_drop]
  unfold drillNew
  split
  · rename_i length id cached
    obtain ⟨positive, looked⟩ := longestCached?_eq_some cached
    obtain ⟨parallel, found, at_⟩ := sane.lookup?_eq_some looked
    have inside : parallel.path.document = document := by rw [at_]; exact ours
    refine (descendAlong_succeeds coherent drills _ sane under found inside).mono fun result h => ?_
    obtain ⟨resultSane, grows, reached⟩ := h
    refine ⟨resultSane, grows, fun last same => ?_⟩
    obtain ⟨now, present, nowDocument, names⟩ := reached last same
    exact ⟨now, present, arrives positive at_ inside nowDocument names⟩
  · rename_i uncached
    refine (surface_succeeds sane coherent drills under ours
      (lookup?_of_longestCached?_eq_none absent uncached)).bind fun result h => ?_
    obtain ⟨id, next⟩ := result
    obtain ⟨nextSane, grows, surfaced⟩ := h
    cases id with
    | none => exact .pure ⟨nextSane, grows, by simp⟩
    | some id =>
      obtain ⟨parallel, found, at_⟩ := surfaced id rfl
      have inside : parallel.path.document = document := by rw [at_]; exact ours
      refine (descendAlong_succeeds coherent drills _ nextSane (grows.inFlight.trans under) found
        inside).mono fun result h => ?_
      obtain ⟨resultSane, more, reached⟩ := h
      refine ⟨resultSane, grows.trans more, fun last same => ?_⟩
      obtain ⟨now, present, nowDocument, names⟩ := reached last same
      exact ⟨now, present, arrives (Nat.le_refl 1) at_ inside nowDocument names⟩

end Descent

section Flight

/-- The nodes of one document. -/
def nodesOf (graph : Graph) (document : DocumentId) : List Node :=
  graph.nodes.filter (·.path.document = document)

/-- Drills that may be under way together, innermost first. -/
structure Underway (graph : Graph) (document : DocumentId) (flight : List TypePath) : Prop where
  distinct : flight.Nodup
  ours : ∀ path ∈ flight, path.document = document
  nested : ∀ path ∈ flight.dropLast, ∃ node ∈ graph.nodes, node.path = path

variable {graph : Graph} {path : TypePath}

theorem Underway.push (underway : Underway graph document flight) (fresh : path ∉ flight)
    (ours : path.document = document)
    (nested : flight ≠ [] → ∃ node ∈ graph.nodes, node.path = path) :
    Underway graph document (path :: flight) where
  distinct := List.nodup_cons.mpr ⟨fresh, underway.distinct⟩
  ours other member := by
    rcases List.mem_cons.mp member with rfl | before
    · exact ours
    · exact underway.ours other before
  nested other member := by
    cases flight with
    | nil => simp at member
    | cons first rest =>
      rw [List.dropLast_cons_cons] at member
      rcases List.mem_cons.mp member with rfl | before
      · exact nested (by simp)
      · exact underway.nested other before

/-- All drills but the outermost go to nodes, each to another one. -/
theorem Underway.length_le (underway : Underway graph document flight) :
    flight.length ≤ (nodesOf graph document).length + 1 := by
  have among : flight.dropLast ⊆ (nodesOf graph document).map Node.path := by
    intro path member
    obtain ⟨node, listed, rfl⟩ := underway.nested path member
    refine List.mem_map_of_mem (List.mem_filter.mpr ⟨listed, ?_⟩)
    simpa using underway.ours node.path (List.mem_of_mem_dropLast member)
  have few := (List.subperm_of_subset (underway.distinct.sublist (List.dropLast_sublist _)) among).length_le
  rw [List.length_dropLast, List.length_map] at few
  omega

/-- Drills as `drillWithin` does, but ends at once if the drills under way are not as `watch` asks. -/
def drillWatched (scene : Scene) (watch : List TypePath → Bool) : Nat → Driller
  | bound, path, session =>
    match session.lookup? path with
    | some id => .ok (if id ∈ session.raking then .circular else .resolved id, session)
    | none =>
      if path ∈ session.inFlight then .ok (.circular, session)
      else if watch (path :: session.inFlight) then
        match bound with
        | 0 => .error .bottomless
        | bound + 1 => do
          let (outcome, session) ← drillNew (drillWatched scene watch bound) scene path
            { session with inFlight := path :: session.inFlight }
          return (outcome, { session with inFlight := session.inFlight.drop 1 })
      else .error .bottomless

theorem drilled_cached {session : Session} {id : ParallelId} (sane : session.Sane graph)
    (cached : session.lookup? path = some id) :
    Drilled graph session path (if id ∈ session.raking then .circular else .resolved id, session) := by
  refine ⟨sane, .refl session, fun other same => ?_⟩
  simp only at same
  split at same
  · contradiction
  · cases same
    exact sane.lookup?_eq_some cached

theorem drilled_circular {session : Session} (sane : session.Sane graph) :
    Drilled graph session path (.circular, session) :=
  ⟨sane, .refl session, fun _ same => by contradiction⟩

/-- A drill that was begun leaves the others under way. -/
theorem Drilled.land {session : Session} {result : Outcome × Session}
    (drilled : Drilled graph { session with inFlight := path :: session.inFlight } path result) :
    Drilled graph session path
      (result.1, { result.2 with inFlight := result.2.inFlight.drop 1 }) where
  sane := drilled.sane.congr rfl rfl
  grows := ⟨drilled.grows.keeps, drilled.grows.settles, by
      show result.2.inFlight.drop 1 = session.inFlight
      rw [drilled.grows.inFlight]
      rfl, drilled.grows.raking, drilled.grows.version⟩
  stands := drilled.stands

theorem drillWatched_succeeds {watch : List TypePath → Bool} {bound : Nat} {path : TypePath} {session : Session}
    (coherent : scene.graph.Coherent)
    (allows : ∀ flight, Underway scene.graph document flight → watch flight)
    (sane : session.Sane scene.graph) (underway : Underway scene.graph document session.inFlight)
    (ours : path.document = document)
    (nested : session.inFlight ≠ [] → ∃ node ∈ scene.graph.nodes, node.path = path)
    (enough : (nodesOf scene.graph document).length + 1 ≤ session.inFlight.length + bound) :
    Succeeds (drillWatched scene watch bound path session) (Drilled scene.graph session path) := by
  unfold drillWatched
  cases cached : session.lookup? path with
  | some id => exact .ok (drilled_cached sane cached)
  | none =>
    by_cases flying : path ∈ session.inFlight
    · simp only [flying, ↓reduceIte]
      exact .ok (drilled_circular sane)
    · have pushed := underway.push flying ours nested
      simp only [flying, ↓reduceIte, allows _ pushed]
      cases bound with
      | zero =>
        have full := pushed.length_le
        simp only [List.length_cons] at full
        omega
      | succ bound =>
        let begun : Session := { session with inFlight := path :: session.inFlight }
        have inner : DrillsNodes scene.graph document begun.inFlight (drillWatched scene watch bound) := by
          intro node member inside other otherSane under
          refine drillWatched_succeeds coherent allows otherSane (under ▸ pushed) inside (fun _ => ⟨node, member, rfl⟩) ?_
          rw [under]
          simp only [begun, List.length_cons]
          omega
        have begunSane : begun.Sane scene.graph := sane.congr rfl rfl
        refine (drillNew_succeeds coherent inner begunSane rfl ours cached).bind fun result drilled => .pure ?_
        exact drilled.land

end Flight

end OutlineTypes.Session
