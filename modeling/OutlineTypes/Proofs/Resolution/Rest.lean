import OutlineTypes.Proofs.Resolution.Settling
import OutlineTypes.Proofs.Resolution.Completion

/-! Sessions at rest. Every drill inside another one goes to a sound node whose container is enclosed, so it
finds a parallel. Once the outermost drill has ended every parallel has settled, and a path that came to
nothing is blocked: its longest prefix with a parallel does not reach the next name. -/
namespace OutlineTypes.Session

variable {drill : Driller} {scene : Scene} {session next last : Session} {id : ParallelId}
  {flight : List TypePath} {path : TypePath} {parallel : Parallel} {name : Name}

section Prefixes

theorem longestCached?_spec (session : Session) (path : TypePath) : match session.longestCached? path with
    | some (length, id) => 1 ≤ length ∧ length < path.length ∧ session.lookup? (path.upTo length) = some id ∧
        ∀ count, length < count → count < path.length → session.lookup? (path.upTo count) = none
    | none => ∀ count, 1 ≤ count → count < path.length → session.lookup? (path.upTo count) = none := by
  let lengths := ((List.range path.length).drop 1).reverse
  have listed (count : Nat) : count ∈ lengths ↔ 1 ≤ count ∧ count < path.length := by
    simp only [lengths, List.mem_reverse, List.mem_drop_iff_getElem, List.getElem_range, List.length_range]
    constructor
    · rintro ⟨offset, bound, rfl⟩
      omega
    · rintro ⟨positive, bound⟩
      exact ⟨count - 1, by omega, by omega⟩
  have descending : lengths.Pairwise (· > ·) := by
    rw [List.pairwise_reverse]
    exact List.pairwise_lt_range.sublist (List.drop_sublist _ _)
  cases found : session.longestCached? path with
  | none =>
    intro count positive bound
    have missed := List.findSome?_eq_none_iff.mp found count ((listed count).mpr ⟨positive, bound⟩)
    exact Option.map_eq_none_iff.mp missed
  | some result =>
    obtain ⟨length, id⟩ := result
    obtain ⟨front, at_, back, split, met, missed⟩ := List.findSome?_eq_some_iff.mp found
    obtain ⟨_, cached, same⟩ := Option.map_eq_some_iff.mp met
    cases same
    have split : lengths = front ++ length :: back := split
    obtain ⟨positive, bound⟩ := (listed length).mp (by simp [split])
    refine ⟨positive, bound, cached, fun count longer inside => ?_⟩
    rw [split, List.pairwise_append, List.pairwise_cons] at descending
    have among := (listed count).mpr ⟨by omega, inside⟩
    rw [split, List.mem_append, List.mem_cons] at among
    rcases among with before | rfl | after
    · exact Option.map_eq_none_iff.mp (missed count before)
    · omega
    · have := descending.2.1.1 count after
      omega

theorem eq_child_tip {outer : TypePath} (container : path.container? = some outer) :
    path = outer.child path.tip := TypePath.eq_child_of_container? container

end Prefixes

section Inner

variable (coherent : scene.graph.Coherent)

theorem container?_upTo_one (path : TypePath) : (path.upTo 1).container? = none := by
  simp [TypePath.container?, TypePath.isRoot, TypePath.length_upTo (Nat.le_refl 1) path.length_pos]

theorem upTo_one_of_container? (root : path.container? = none) : path.length = 1 ∧ path.upTo 1 = path := by
  have single : path.length = 1 := by
    by_contra nested
    simp [TypePath.container?, TypePath.isRoot, nested] at root
  exact ⟨single, by rw [← single, TypePath.upTo_length]⟩

include coherent in
/-- The root of a path surfaces where its node is sound. -/
theorem surface_ensures (obliges : Obliges scene session.inFlight (path.upTo 1).length drill)
    (sane : session.Sane scene.graph) (orderly : session.Orderly scene) (busy : session.Busy)
    (ahead : session.Ahead (path.upTo 1))
    (absent : session.lookup? (path.upTo 1) = none) : Ensures (session.surface drill scene path) fun
      | (none, next) => next = session ∧ session.soundNode? scene (path.upTo 1) = none
      | (some id, next) => Advances scene none session next ∧ next.lookup? (path.upTo 1) = some id := by
  unfold surface
  simp only
  cases sound : session.soundNode? scene (path.upTo 1) with
  | none => exact .pure ⟨rfl, rfl⟩
  | some node =>
    refine (insert_laid sane orderly absent (container?_upTo_one path) sound).bind fun result h => ?_
    obtain ⟨laid, cached⟩ := h
    refine (laid.rake_ensures coherent sane obliges busy ahead cached).bind fun last h => ?_
    exact .pure h

include coherent in
/-- Drilling a root that has no parallel yet surfaces it. -/
theorem drillNew_root_ensures (obliges : Obliges scene session.inFlight path.length drill)
    (sane : session.Sane scene.graph) (orderly : session.Orderly scene) (busy : session.Busy)
    (ahead : session.Ahead path)
    (absent : session.lookup? path = none) (root : path.container? = none) {node : NodeId}
    (sound : session.soundNode? scene path = some node) : Ensures (drillNew drill scene path session) fun result =>
      Advances scene none session result.2 ∧
        ∃ id, result.1 = .resolved id ∧ result.2.lookup? path = some id := by
  have spec := longestCached?_spec session path
  obtain ⟨single, whole⟩ := upTo_one_of_container? root
  have surfaced : Ensures (session.surface drill scene path) _ :=
    surface_ensures coherent (by rwa [whole]) sane orderly busy (by rwa [whole]) (by rwa [whole])
  unfold drillNew
  split
  · rename_i length id found
    rw [found] at spec
    omega
  · refine surfaced.bind fun result h => ?_
    obtain ⟨id, last⟩ := result
    cases id with
    | none =>
      rw [whole, sound] at h
      cases h.2
    | some id =>
      have finished : path.names.drop 1 = [] := List.drop_eq_nil_of_le (Nat.le_of_eq single)
      simp only [finished, descendAlong]
      rw [whole] at h
      exact .ok ⟨h.1, id, rfl, h.2⟩

/-- The longest shorter prefix with a parallel is the container, where that has one. -/
theorem longestCached?_container {outer : TypePath} (container : path.container? = some outer)
    {around : ParallelId} (cached : session.lookup? outer = some around) :
    session.longestCached? path = some (path.length - 1, around) := by
  have spec := longestCached?_spec session path
  obtain ⟨_, names, length⟩ := TypePath.of_container? container
  have positive := outer.length_pos
  have prefix_ : path.upTo (path.length - 1) = outer := by
    have again := container
    simp only [TypePath.container?] at again
    split at again
    · contradiction
    · exact Option.some.inj again
  cases found : session.longestCached? path with
  | none =>
    rw [found] at spec
    have missing := spec (path.length - 1) (by omega) (by omega)
    rw [prefix_, cached] at missing
    contradiction
  | some result =>
    obtain ⟨count, id⟩ := result
    rw [found] at spec
    obtain ⟨_, bound, known, longer⟩ := spec
    have last : count = path.length - 1 := by
      by_contra shorter
      have missing := longer (path.length - 1) (by omega) (by omega)
      rw [prefix_, cached] at missing
      contradiction
    subst last
    rw [prefix_, cached] at known
    rw [Option.some.inj known]

theorem drop_length_pred {outer : TypePath} (container : path.container? = some outer) :
    path.names.drop (path.length - 1) = [path.tip] := by
  obtain ⟨_, _, length⟩ := TypePath.of_container? container
  have split := congrArg TypePath.names (eq_child_tip container)
  rw [TypePath.names_child] at split
  rw [split, show path.length - 1 = outer.names.length by simp only [TypePath.length] at length ⊢; omega]
  simp

include coherent in
/-- A drill inside another one goes down at most one name. -/
theorem drillNew_ensures (obliges : Obliges scene session.inFlight path.length drill)
    (sane : session.Sane scene.graph) (orderly : session.Orderly scene) (busy : session.Busy)
    (ahead : session.Ahead path)
    (absent : session.lookup? path = none) (enclosed : session.Enclosed path) {node : NodeId}
    (sound : session.soundNode? scene path = some node) : Ensures (drillNew drill scene path session) fun result =>
      Advances scene none session result.2 ∧
        ∃ id, result.1 = .resolved id ∧ result.2.lookup? path = some id := by
  cases container : path.container? with
  | none => exact drillNew_root_ensures coherent obliges sane orderly busy ahead absent container sound
  | some outer =>
    obtain ⟨around, cached, deep⟩ := enclosed outer container
    have child := eq_child_tip container
    unfold drillNew
    simp only [longestCached?_container container cached, drop_length_pred container]
    rw [descendAlong]
    refine (orderly.descend_ensures sane deep path.tip).bind fun result h => ?_
    obtain ⟨below, next⟩ := result
    obtain ⟨parallel, present, same⟩ := sane.lookup?_eq_some cached
    cases below with
    | none =>
      refine absurd ⟨around, .refl, ?_⟩ h.2
      simp only [hasChildNode, present, Option.any_some, same, ← child, sound, Option.isSome_some]
    | some below =>
      obtain ⟨laid, stands⟩ := h
      have there := stands.lookup? laid.sane (laid.old around parallel present)
      rw [same, ← child] at there
      refine (laid.rake_ensures coherent sane obliges busy ahead there).bind fun last h => ?_
      exact .ok ⟨h.1, below, rfl, h.2⟩

include coherent in
/-- The drills of candidates find them, however many drills are under way. -/
theorem obliges_drillWithin (bound : Nat) (flight : List TypePath) (limit : Nat) :
    Obliges scene flight limit (drillWithin scene bound) := by
  intro node member short session workable sound enclosed
  unfold drillWithin
  cases cached : session.lookup? node.path with
  | some id => exact .ok ⟨.refl workable.sane workable.orderly, id, cached, by split <;> simp [*]⟩
  | none =>
    simp only
    split
    · rename_i flying
      have := workable.above node.path flying cached
      omega
    · cases bound with
      | zero => exact .error _
      | succ bound =>
        let begun : Session := { session with inFlight := node.path :: session.inFlight }
        have ahead : begun.Ahead node.path := by
          intro other listed absent
          rcases List.mem_cons.mp listed with rfl | before
          · exact .inl rfl
          · exact .inr (Nat.lt_of_le_of_lt short (workable.above other before absent))
        have stands : begun.soundNode? scene node.path = some node.id := by
          rw [soundNode?, coherent.nodeAt?_eq_some_iff.mpr ⟨member, rfl⟩]
          exact if_neg (by simpa using sound)
        have begunSane : begun.Sane scene.graph := workable.sane.congr rfl rfl
        have begunOrderly : begun.Orderly scene := workable.orderly.congr rfl rfl rfl
        have inner (flight : List TypePath) (limit : Nat) : Obliges scene flight limit (drillWithin scene bound) :=
          obliges_drillWithin bound flight limit
        refine (drillNew_ensures coherent (inner _ _) begunSane begunOrderly workable.busy ahead cached enclosed
          stands).bind fun result h => .pure ?_
        obtain ⟨advances, id, resolved, found⟩ := h
        exact ⟨advances.land, id, found, .inl resolved⟩

end Inner

section Outer

/-- Every parallel has settled. -/
def AllSettled (session : Session) : Prop :=
  ∀ id parallel, session.parallel? id = some parallel → id ∈ session.settled

theorem AllSettled.advance (settled : session.AllSettled) (advances : Advances scene none session next) :
    next.AllSettled := by
  intro id now found
  cases before : session.parallel? id with
  | some parallel => exact advances.grows.settled_subset (settled id parallel before)
  | none =>
    obtain ⟨raked, _⟩ := advances.fresh id now found before
    exact (advances.ended id now found raked).resolve_right fun ⟨_, known, _⟩ => by simp [before] at known

theorem AllSettled.deep (settled : session.AllSettled) (sane : session.Sane scene.graph)
    (found : session.parallel? id = some parallel) : session.Deep id := by
  intro other below
  have held : session.Holds parallel.path.document id := ⟨parallel, found, rfl⟩
  obtain ⟨again, there, _⟩ := sane.holds_of_below held below
  exact settled other again there

/-- Nothing can come of the path: its root is no sound node, or the longest container with a parallel does
not reach the next name. -/
inductive Blocked (scene : Scene) (session : Session) (path : TypePath) : Prop where
  | root (absent : session.lookup? (path.upTo 1) = none) (unsound : session.soundNode? scene (path.upTo 1) = none)
  | below (outer : TypePath) (name : Name) (rest : List Name) (document : path.document = outer.document)
      (names : path.names = outer.names ++ name :: rest) (around : ParallelId)
      (cached : session.lookup? outer = some around) (absent : session.lookup? (outer.child name) = none)
      (unreached : ¬session.Reaches scene name around)

/-- The path is the other one or lies inside it. -/
def Inside (path other : TypePath) : Prop := path.document = other.document ∧ other.names <+: path.names

theorem inside_iff {other : TypePath} : Inside path other ↔
    ∃ count, 1 ≤ count ∧ count ≤ path.length ∧ other = path.upTo count ∧ other.length = count := by
  constructor
  · rintro ⟨document, front⟩
    refine ⟨other.length, other.length_pos, front.length_le, TypePath.ext_names document.symm ?_, rfl⟩
    rw [TypePath.names_upTo path other.length_pos]
    exact List.prefix_iff_eq_take.mp front
  · rintro ⟨count, _, _, rfl, _⟩
    exact ⟨rfl, List.take_prefix _ _⟩

theorem Inside.length_le {outer : TypePath} (inside : Inside path outer) : outer.length ≤ path.length := by
  obtain ⟨_, _, limit, _, length⟩ := inside_iff.mp inside
  exact length ▸ limit

theorem inside_upTo_one (path : TypePath) : Inside path (path.upTo 1) := ⟨rfl, List.take_prefix _ _⟩

/-- Drills that are ahead of a path are ahead of everything that the path lies inside. -/
theorem Ahead.inside (ahead : session.Ahead path) {outer : TypePath} (inside : Inside path outer) :
    session.Ahead outer := by
  obtain ⟨count, _, limit, eq, length⟩ := inside_iff.mp inside
  intro other member absent
  rcases ahead other member absent with rfl | longer
  · rcases Nat.lt_or_eq_of_le limit with shorter | rfl
    · exact .inr (length ▸ shorter)
    · exact .inl (by rw [eq, TypePath.upTo_length])
  · exact .inr (Nat.lt_of_le_of_lt inside.length_le longer)

/-- A drill of a path is ahead of everything that the path lies inside. -/
theorem ahead_of_inside (alone : ∀ other ∈ session.inFlight, other = path) {outer : TypePath}
    (inside : Inside path outer) : session.Ahead outer :=
  Ahead.inside (fun other member _ => .inl (alone other member)) inside

variable (coherent : scene.graph.Coherent)

/-- What has become of a drill from `session` on that has come down to a parallel. -/
structure Arrived (scene : Scene) (session : Session) (path : TypePath) (names : List Name) (id : ParallelId)
    (next : Session) : Prop where
  advances : Advances scene none session next
  stands : ∃ parallel, next.parallel? id = some parallel ∧ path.document = parallel.path.document ∧
    path.names = parallel.path.names ++ names ∧
    ∀ other again, session.lookup? other = some again → Inside path other → other.length ≤ parallel.path.length

/-- What comes of the outermost drill. -/
def Settles (scene : Scene) (session : Session) (path : TypePath) (result : Outcome × Session) : Prop :=
  Advances scene none session result.2 ∧
    ((∃ id, result.1 = .resolved id ∧ result.2.lookup? path = some id) ∨
      result.1 = .unpopulated ∧ result.2.Blocked scene path)

/-- What the drill did not create was there before, so a child that is not reached was not created. -/
theorem Advances.lookup?_child (advances : Advances scene none session next) (sane : session.Sane scene.graph)
    (found : next.parallel? id = some parallel) (unreached : ¬next.Reaches scene name id)
    (absent : session.lookup? (parallel.path.child name) = none) :
    next.lookup? (parallel.path.child name) = none := by
  cases known : next.lookup? (parallel.path.child name) with
  | none => rfl
  | some child =>
    obtain ⟨below, there, path⟩ := advances.sane.lookup?_eq_some known
    have new : session.parallel? child = none := by
      cases before : session.parallel? child with
      | none => rfl
      | some old =>
        obtain ⟨now, present, same, _⟩ := advances.grows.keeps child old before
        cases there.symm.trans present
        rw [← path, same, sane.lookup?_path before] at absent
        contradiction
    obtain ⟨around, cached, reaches⟩ := (advances.fresh child below there new).2.1 parallel.path
      (path ▸ TypePath.container?_child parallel.path name)
    rw [path, TypePath.tip_child] at reaches
    cases (advances.sane.lookup?_path found).symm.trans cached
    exact absurd reaches unreached

include coherent in
theorem Arrived.descendAlong_ensures {names : List Name} (arrived : Arrived scene session path names id next)
    (sane : session.Sane scene.graph) (settled : session.AllSettled) (busy : session.Busy)
    (obliges : ∀ limit, Obliges scene session.inFlight limit drill)
    (alone : ∀ other ∈ session.inFlight, other = path) :
    Ensures (descendAlong drill scene names id next) (Settles scene session path) := by
  induction names generalizing id next with
  | nil =>
    obtain ⟨advances, parallel, found, document, names, _⟩ := arrived
    rw [List.append_nil] at names
    refine .ok ⟨advances, .inl ⟨id, rfl, ?_⟩⟩
    rw [TypePath.ext_names document names]
    exact advances.sane.lookup?_path found
  | cons name rest ih =>
    obtain ⟨advances, parallel, found, document, names, longest⟩ := arrived
    have deep := (settled.advance advances).deep advances.sane found
    rw [descendAlong]
    refine (advances.orderly.descend_ensures advances.sane deep name).bind fun result h => ?_
    obtain ⟨child, last⟩ := result
    have inside : Inside path (parallel.path.child name) := by
      refine ⟨document, rest, ?_⟩
      rw [names, TypePath.names_child, List.append_assoc, List.singleton_append]
    cases child with
    | none =>
      obtain ⟨rfl, unreached⟩ := h
      refine .ok ⟨advances, .inr ⟨rfl, ?_⟩⟩
      refine .below parallel.path name rest document names id (advances.sane.lookup?_path found) ?_ unreached
      refine advances.lookup?_child sane found unreached ?_
      cases before : session.lookup? (parallel.path.child name) with
      | none => rfl
      | some again =>
        have bound := longest _ again before inside
        simp only [TypePath.length, TypePath.names_child, List.length_append, List.length_singleton] at bound
        omega
    | some child =>
      obtain ⟨laid, stands⟩ := h
      have cached := stands.lookup? laid.sane (laid.old id parallel found)
      have ahead : next.Ahead (parallel.path.child name) :=
        ahead_of_inside (fun other member => alone other (advances.grows.inFlight ▸ member)) inside
      have serves : Obliges scene next.inFlight (parallel.path.child name).length drill :=
        advances.grows.inFlight ▸ obliges _
      refine (laid.rake_ensures coherent advances.sane serves (busy.extends advances.grows) ahead cached).bind
        fun final h => ?_
      obtain ⟨further, known⟩ := h
      obtain ⟨below, there, same⟩ := further.sane.lookup?_eq_some known
      refine ih ⟨advances.trans further, below, there, ?_, ?_, fun other again before within_ => ?_⟩
      · rw [same]
        exact document
      · rw [same, names, TypePath.names_child, List.append_assoc, List.singleton_append]
      · have := longest other again before within_
        rw [same]
        simp only [TypePath.length, TypePath.names_child, List.length_append] at this ⊢
        omega

include coherent in
/-- The outermost drill goes on from the longest prefix that has a parallel. -/
theorem settles_descendAlong (sane : session.Sane scene.graph) (orderly : session.Orderly scene)
    (settled : session.AllSettled) (busy : session.Busy)
    (obliges : ∀ limit, Obliges scene session.inFlight limit drill)
    (alone : ∀ other ∈ session.inFlight, other = path) (absent : session.lookup? path = none) {length : Nat}
    (found : session.longestCached? path = some (length, id)) :
    Ensures (descendAlong drill scene (path.names.drop length) id session) (Settles scene session path) := by
  have spec := longestCached?_spec session path
  rw [found] at spec
  obtain ⟨positive, bound, cached, longer⟩ := spec
  obtain ⟨parallel, there, same⟩ := sane.lookup?_eq_some cached
  refine Arrived.descendAlong_ensures coherent ⟨.refl sane orderly, parallel, there, ?_, ?_, ?_⟩ sane settled
    busy obliges alone
  · rw [same]
    rfl
  · rw [same, TypePath.names_upTo path positive, List.take_append_drop]
  · intro other again known inside
    obtain ⟨count, _, limit, rfl, eq⟩ := inside_iff.mp inside
    rw [same, eq, TypePath.length_upTo positive (by omega)]
    by_contra more
    rcases Nat.lt_or_eq_of_le limit with shorter | rfl
    · rw [longer count (by omega) shorter] at known
      contradiction
    · rw [TypePath.upTo_length, absent] at known
      contradiction

include coherent in
/-- The outermost drill of a path without a parallel. -/
theorem settles_drillNew (sane : session.Sane scene.graph) (orderly : session.Orderly scene)
    (settled : session.AllSettled) (busy : session.Busy)
    (obliges : ∀ limit, Obliges scene session.inFlight limit drill)
    (alone : ∀ other ∈ session.inFlight, other = path) (absent : session.lookup? path = none) :
    Ensures (drillNew drill scene path session) (Settles scene session path) := by
  have spec := longestCached?_spec session path
  unfold drillNew
  split
  · rename_i length id found
    exact settles_descendAlong coherent sane orderly settled busy obliges alone absent found
  · rename_i found
    rw [found] at spec
    have nothing : ∀ count, 1 ≤ count → count ≤ path.length → session.lookup? (path.upTo count) = none := by
      intro count positive limit
      rcases Nat.lt_or_eq_of_le limit with shorter | rfl
      · exact spec count positive shorter
      · rwa [TypePath.upTo_length]
    have missing := nothing 1 (Nat.le_refl 1) path.length_pos
    have ahead := ahead_of_inside alone (inside_upTo_one path)
    refine (surface_ensures coherent (obliges _) sane orderly busy ahead missing).bind fun result h => ?_
    obtain ⟨id, last⟩ := result
    cases id with
    | none =>
      obtain ⟨rfl, unsound⟩ := h
      exact .ok ⟨.refl sane orderly, .inr ⟨rfl, .root missing unsound⟩⟩
    | some id =>
      obtain ⟨advances, known⟩ := h
      obtain ⟨parallel, there, same⟩ := advances.sane.lookup?_eq_some known
      refine Arrived.descendAlong_ensures coherent ⟨advances, parallel, there, ?_, ?_, ?_⟩ sane settled busy
        obliges alone
      · rw [same]
        rfl
      · rw [same]
        exact (List.take_append_drop 1 path.names).symm
      · intro other again known inside
        obtain ⟨count, positive, limit, rfl, _⟩ := inside_iff.mp inside
        rw [nothing count positive limit] at known
        contradiction

/-- A session between two drills. -/
structure AtRest (scene : Scene) (session : Session) : Prop where
  sane : session.Sane scene.graph
  orderly : session.Orderly scene
  idle : session.inFlight = []
  quiet : session.raking = []
  settled : session.AllSettled

/-- A session without parallels is at rest, whatever is cruft in it. -/
theorem atRest_of_calm {version : Nat} (calm : Calm (empty version) session) : session.AtRest scene := by
  have nothing (id : ParallelId) : session.parallel? id = none := by
    simp [parallel?, calm.parallels, empty]
  refine ⟨calm.sane (sane_empty version), ?_, calm.inFlight, calm.raking, fun id parallel found => ?_⟩
  · have unsettled : session.settled = [] := calm.settled
    constructor <;> simp [nothing, unsettled, HasChild, ChildOf]
  · simp [nothing] at found

include coherent in
/-- The outermost drill is never circular. -/
theorem AtRest.drillWithin_ensures (rest : session.AtRest scene) (bound : Nat) (path : TypePath) :
    Ensures (drillWithin scene bound path session) (Settles scene session path) := by
  have none : path ∉ session.inFlight := by simp [rest.idle]
  cases cached : session.lookup? path with
  | some id =>
    have eq : drillWithin scene bound path session = .ok (.resolved id, session) := by
      unfold drillWithin
      simp [cached, rest.quiet]
    rw [eq]
    exact .ok ⟨.refl rest.sane rest.orderly, .inl ⟨id, rfl, cached⟩⟩
  | none =>
    unfold drillWithin
    simp only [cached, none, ↓reduceIte]
    cases bound with
    | zero => exact .error _
    | succ bound =>
      let begun : Session := { session with inFlight := path :: session.inFlight }
      have alone : ∀ other ∈ begun.inFlight, other = path := by simp [begun, rest.idle]
      have begunSane : begun.Sane scene.graph := rest.sane.congr rfl rfl
      have begunOrderly : begun.Orderly scene := rest.orderly.congr rfl rfl rfl
      have begunSettled : begun.AllSettled := rest.settled
      have begunBusy : begun.Busy := by simp [begun, Busy, rest.quiet]
      refine (settles_drillNew coherent begunSane begunOrderly begunSettled begunBusy
        (fun limit => obliges_drillWithin coherent bound begun.inFlight limit) alone cached).bind fun result h => .pure ?_
      obtain ⟨advances, came⟩ := h
      refine ⟨advances.land, came.imp_right fun blocked => ⟨blocked.1, ?_⟩⟩
      cases blocked.2 with
      | root absent unsound => exact .root absent unsound
      | below outer name rest document names around cached absent unreached =>
        exact .below outer name rest document names around cached absent unreached

end Outer

end OutlineTypes.Session
