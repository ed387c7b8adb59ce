import OutlineTypes.Proofs.Resolution.Constancy

/-! Finality. A cut does not reach what was there before a drill, since a cycle through it would have been one
before. So drills leave every parallel that they find as it is, and to drill again what was answered
changes nothing. -/
namespace OutlineTypes

theorem TypePath.upTo_upTo (path : TypePath) {count length : Nat} (positive : 1 ≤ count) (bound : count ≤ length) :
    (path.upTo length).upTo count = path.upTo count := by
  refine ext_names rfl ?_
  rw [names_upTo _ positive, names_upTo path (positive.trans bound), names_upTo path positive, List.take_take,
    Nat.min_eq_left bound]

theorem Parallel.dropBases_of_not_mem {edges : List EdgeId} {parallel : Parallel}
    (apart : ∀ entry ∈ parallel.baseEntries, entry.1 ∉ edges) : parallel.dropBases edges = parallel := by
  cases parallel with | mk id path container overridden explicit raked =>
  cases explicit with
  | none => rfl
  | some resolved =>
    have same : (resolved.bases.filter fun edge _ => edge ∉ edges) = resolved.bases :=
      OrderedMap.ext_entries (List.filter_eq_self.mpr fun entry member => by simpa using apart entry member)
    simp only [dropBases, mapResolved, Option.map_some, same]

namespace Session

variable {scene : Scene} {session next last : Session} {path : TypePath} {id : ParallelId}

section Uncut

/-- No edge is marked as circular. -/
def Uncut (session : Session) : Prop := ∀ edge, session.cruft.reason? (.edge edge) ≠ some .circular

/-- It is enough to look at the edges that are marked. -/
theorem uncut_iff : session.Uncut ↔ ∀ entry ∈ session.cruft.edges.entries, entry.2 ≠ .circular := by
  constructor
  · rintro uncut ⟨edge, reason⟩ member rfl
    exact uncut edge ((OrderedMap.find?_eq_some_iff _).mpr member)
  · exact fun clean edge circular => clean (edge, .circular) ((OrderedMap.find?_eq_some_iff _).mp circular) rfl

instance : Decidable session.Uncut := decidable_of_iff _ uncut_iff.symm

theorem Acyclic.not_onCycle (acyclic : session.Acyclic) (edge : EdgeId) : ¬session.OnCycle edge := by
  rintro ⟨id, base, entry, back⟩
  exact acyclic id (.head' (inherits_iff.mpr ⟨edge, entry⟩) back)

theorem cutCycles_eq_self (scene : Scene) (nothing : session.circularEdges = []) :
    session.cutCycles scene = session := by
  have kept : session.parallels.map (Parallel.dropBases []) = session.parallels := by
    refine List.map_id'' (fun parallel => ?_) session.parallels
    exact Parallel.dropBases_of_not_mem fun _ _ => List.not_mem_nil
  simp only [cutCycles, nothing, List.foldl_nil, kept]

theorem Sane.cutCycles_of_acyclic (sane : session.Sane scene.graph) (acyclic : session.Acyclic) :
    session.cutCycles scene = session := by
  refine cutCycles_eq_self scene (List.eq_nil_iff_forall_not_mem.mpr fun edge circular => ?_)
  exact acyclic.not_onCycle edge (sane.of_circular circular).1

theorem Sane.cutCycles_of_uncut (sane : session.Sane scene.graph) (uncut : (session.cutCycles scene).Uncut) :
    session.cutCycles scene = session := by
  refine cutCycles_eq_self scene (List.eq_nil_iff_forall_not_mem.mpr fun edge circular => uncut edge ?_)
  rw [reason?_cutCycles, if_pos circular, (sane.of_circular circular).2]
  rfl

theorem remembers_cutCycles (session : Session) (scene : Scene) : session.Remembers (session.cutCycles scene) := by
  have all (edges : List EdgeId) (session : Session) : session.Remembers
      (edges.foldl (fun session edge => session.condemn scene (.edge edge) .circular) session) := by
    induction edges generalizing session with
    | nil => exact .refl _
    | cons edge edges ih => exact (remembers_condemn session scene _ _).trans (ih _)
  exact all session.circularEdges session

theorem Uncut.of_remembers (uncut : next.Uncut) (remembers : session.Remembers next) : session.Uncut :=
  fun edge circular => uncut edge (remembers.reasons _ _ circular)

end Uncut

section Preservation

/-- Parallels, faults and marks are added, and none that was there changes. -/
structure Preserves (session next : Session) : Prop where
  parallels : session.parallels <+: next.parallels
  remembers : session.Remembers next

theorem Preserves.refl (session : Session) : Preserves session session := ⟨List.prefix_refl _, .refl _⟩

theorem Preserves.trans (first : Preserves session next) (second : Preserves next last) :
    Preserves session last :=
  ⟨first.parallels.trans second.parallels, first.remembers.trans second.remembers⟩

variable (rest : session.AtRest scene) (acyclic : session.Acyclic) (framed : scene.graph.Framed)
  (advances : Advances scene none session next)

include rest acyclic framed advances in
/-- A cycle through a parallel that was there would lie below it, where nothing has changed. -/
theorem AtRest.parallel?_cutCycles_of_old {parallel : Parallel} (found : session.parallel? id = some parallel) :
    (next.cutCycles scene).parallel? id = some parallel := by
  have nextRest := rest.advance advances
  have steady := advances.steady rest.sane
  have there : next.parallel? id = some parallel :=
    (steady.parallels id (rest.settled id parallel found)).trans found
  rw [parallel?_cutCycles_of scene there, Parallel.dropBases_of_not_mem]
  intro entry member circular
  obtain ⟨⟨other, base, beside, back⟩, _⟩ := nextRest.sane.of_circular circular
  have here : entry ∈ next.baseEntriesOf id := List.mem_flatMap.mpr ⟨parallel, Option.mem_toList.mpr there, member⟩
  obtain ⟨_, _, _, known, explicit, _, outbound, same⟩ := nextRest.outbound_of_entry here
  obtain ⟨_, _, _, present, stands, _, listed, equal⟩ := nextRest.outbound_of_entry beside
  have one : other = id := eq_of_outbound framed nextRest.sane known explicit outbound present stands listed
    (equal.trans same.symm)
  have cycle : Relation.TransGen next.Inherits other other := .head' (inherits_iff.mpr ⟨_, beside⟩) back
  rw [one, steady.transGen_iff (rest.settled.deep rest.sane found)] at cycle
  exact acyclic id cycle

include rest acyclic framed advances in
theorem AtRest.preserves : Preserves session (next.cutCycles scene) where
  parallels := by
    refine List.prefix_iff_getElem?.mpr fun index bound => ?_
    have found : session.parallel? ⟨index⟩ = some session.parallels[index] := List.getElem?_eq_getElem bound
    exact rest.parallel?_cutCycles_of_old acyclic framed advances found
  remembers := advances.remembers.trans (remembers_cutCycles next scene)

end Preservation

section Repetition

variable {drill : Driller} {start : ParallelId} {name : Name} {names : List Name}

/-- A descent to a name that is not reached leaves all as it was. -/
theorem Sane.descend_of_unreached (sane : session.Sane scene.graph) {parallel : Parallel}
    (found : session.parallel? start = some parallel) (unreached : ¬session.Reaches scene name start) :
    session.descend scene start name = .ok (none, session) := by
  have held : session.Holds parallel.path.document start := ⟨parallel, found, rfl⟩
  unfold descend
  simp only [sane.lineageOf_eq held, ok_bind]
  rw [if_pos fun inside => unreached ((sane.mem_containers_iff held name start).mp inside).2]
  rfl

theorem longestCached?_eq_of_longest {length : Nat} (positive : 1 ≤ length) (bound : length < path.length)
    (cached : session.lookup? (path.upTo length) = some id)
    (longer : ∀ count, length < count → count < path.length → session.lookup? (path.upTo count) = none) :
    session.longestCached? path = some (length, id) := by
  have spec := longestCached?_spec session path
  cases found : session.longestCached? path with
  | none =>
    rw [found] at spec
    simp [spec length positive bound] at cached
  | some result =>
    obtain ⟨count, other⟩ := result
    rw [found] at spec
    obtain ⟨_, inside, known, none⟩ := spec
    rcases Nat.lt_trichotomy count length with below | rfl | above
    · simp [none length below bound] at cached
    · rw [Option.some.inj (known.symm.trans cached)]
    · simp [longer count above inside] at known

theorem longestCached?_eq_none
    (absent : ∀ count, 1 ≤ count → count < path.length → session.lookup? (path.upTo count) = none) :
    session.longestCached? path = none := by
  have spec := longestCached?_spec session path
  cases found : session.longestCached? path with
  | none => rfl
  | some result =>
    rw [found] at spec
    obtain ⟨positive, bound, cached, _⟩ := spec
    simp [absent _ positive bound] at cached

theorem Blocked.drillNew_eq (blocked : session.Blocked scene path) (sane : session.Sane scene.graph)
    (missing : ∀ count length, 1 ≤ count → count ≤ length → length ≤ path.length →
      session.lookup? (path.upTo count) = none → session.lookup? (path.upTo length) = none) :
    drillNew drill scene path session = .ok (.unpopulated, session) := by
  unfold drillNew
  cases blocked with
  | root absent unsound =>
    have nothing : session.longestCached? path = none := longestCached?_eq_none fun count positive bound =>
      missing 1 count (Nat.le_refl 1) positive bound.le absent
    simp only [nothing, surface, unsound]
    rfl
  | below outer name more document names around cached absent unreached =>
    have inside : outer.length < path.length := by
      simp only [TypePath.length, names, List.length_append, List.length_cons]
      omega
    have front : path.upTo outer.length = outer := by
      refine TypePath.ext_names document ?_
      rw [TypePath.names_upTo path outer.length_pos, names, TypePath.length, List.take_left']
      rfl
    have longest : session.longestCached? path = some (outer.length, around) := by
      refine longestCached?_eq_of_longest outer.length_pos inside (by rwa [front]) fun count above bound => ?_
      rw [← TypePath.upTo_eq_child document names] at absent
      exact missing (outer.length + 1) count (by omega) above bound.le absent
    have onward : path.names.drop outer.length = name :: more := by
      rw [names, TypePath.length, List.drop_left']
      rfl
    obtain ⟨parallel, found, _⟩ := sane.lookup?_eq_some cached
    simp only [longest, onward, descendAlong, sane.descend_of_unreached found unreached, ok_bind]
    rfl

/-- Where a path has no parallel, no longer one has. -/
theorem AtRest.lookup?_longer (rest : session.AtRest scene) {count length : Nat} (positive : 1 ≤ count)
    (longer : count ≤ length) (bound : length ≤ path.length) (absent : session.lookup? (path.upTo count) = none) :
    session.lookup? (path.upTo length) = none := by
  cases known : session.lookup? (path.upTo length) with
  | none => rfl
  | some id =>
    have whole : (path.upTo length).length = length := TypePath.length_upTo (positive.trans longer) bound
    obtain ⟨around, cached⟩ := rest.lookup?_upTo known positive (by omega)
    rw [TypePath.upTo_upTo path positive longer, absent] at cached
    contradiction

/-- A drill that is blocked comes to nothing and lands where it began. -/
theorem Blocked.drillWithin_eq (blocked : session.Blocked scene path) (rest : session.AtRest scene) (bound : Nat) :
    drillWithin scene (bound + 1) path session = .ok (.unpopulated, session) := by
  let begun : Session := { session with inFlight := [path] }
  have same : begun.Blocked scene path := by
    cases blocked with
    | root absent unsound => exact .root absent unsound
    | below outer name more document names around cached absent unreached =>
      exact .below outer name more document names around cached absent unreached
  have drilled : drillNew (drillWithin scene bound) scene path begun = .ok (.unpopulated, begun) :=
    same.drillNew_eq (rest.sane.congr rfl rfl) fun count length => rest.lookup?_longer
  have landed : ({ begun with inFlight := begun.inFlight.drop 1 } : Session) = session := by
    rw [show begun.inFlight.drop 1 = session.inFlight from rest.idle.symm]
  unfold drillWithin
  simp only [blocked.lookup?_eq_none rest, rest.idle, List.not_mem_nil, ↓reduceIte]
  rw [drilled, ok_bind]
  exact congrArg (fun session => Except.ok (Outcome.unpopulated, session)) landed

/-- What has an answer is answered from what is there. -/
theorem AtRest.drill_of_answers (rest : session.AtRest scene) (acyclic : session.Acyclic)
    {answer : Option ParallelId} (answers : session.Answers scene path answer) :
    session.drill scene path = .ok (answer, session) := by
  have uncut := rest.sane.cutCycles_of_acyclic acyclic
  unfold drill
  cases answer with
  | some id =>
    have cached : session.lookup? path = some id := answers
    unfold drillWithin
    simp only [cached, rest.quiet, List.not_mem_nil, ↓reduceIte, ok_bind, uncut]
    rfl
  | none =>
    have blocked : session.Blocked scene path := answers
    rw [drillBound, blocked.drillWithin_eq rest, ok_bind]
    simp only [uncut]
    rfl

end Repetition

end Session
end OutlineTypes
