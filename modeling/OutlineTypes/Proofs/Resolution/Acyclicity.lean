import OutlineTypes.Proofs.Resolution.Completion
import Mathlib.Logic.Relation

/-! Acyclicity. The edges that the walks along bases find all lie on cycles. And when a walk is done with a
parallel it is done with everything that the other edges lead to from there, so these make no cycle. -/
namespace OutlineTypes.Session

variable {graph : Graph} {session : Session} {path : List ParallelId} {edges : List EdgeId}
  {id base : ParallelId} {edge : EdgeId} {walk after : Walk}

/-- The other parallel is a base of this one. -/
def Inherits (session : Session) (id base : ParallelId) : Prop := base ∈ session.basesOf id

theorem inherits_iff : session.Inherits id base ↔ ∃ edge, (edge, base) ∈ session.baseEntriesOf id := by
  simp only [Inherits, basesOf, baseEntriesOf, List.mem_flatMap, Parallel.bases, List.mem_map]
  constructor
  · rintro ⟨parallel, found, ⟨edge, base⟩, listed, rfl⟩
    exact ⟨edge, parallel, found, listed⟩
  · rintro ⟨edge, parallel, found, listed⟩
    exact ⟨parallel, found, (edge, base), listed, rfl⟩

/-- No parallel inherits itself. -/
def Acyclic (session : Session) : Prop := ∀ id, ¬Relation.TransGen session.Inherits id id

/-- A parallel was resolved to this base for an edge, and bases lead from there back to the parallel. -/
def OnCycle (session : Session) (edge : EdgeId) : Prop :=
  ∃ id base, (edge, base) ∈ session.baseEntriesOf id ∧ Relation.ReflTransGen session.Inherits base id

section Trail

/-- A path along bases, the edges on it and its end. -/
inductive Trail (session : Session) : List ParallelId → List EdgeId → ParallelId → Prop where
  | start (id : ParallelId) : Trail session [id] [] id
  | step {path : List ParallelId} {edges : List EdgeId} {id : ParallelId} {edge : EdgeId} {base : ParallelId}
      (trail : Trail session path edges id) (entry : (edge, base) ∈ session.baseEntriesOf id) :
      Trail session (path ++ [base]) (edges ++ [edge]) base

theorem Trail.length (trail : Trail session path edges id) : path.length = edges.length + 1 := by
  induction trail with
  | start id => rfl
  | step _ _ ih => simp [ih]

theorem Trail.last_mem (trail : Trail session path edges id) : id ∈ path := by
  cases trail with
  | start id => exact List.mem_cons_self
  | step _ _ => exact List.mem_append_right _ List.mem_cons_self

theorem Trail.reaches (trail : Trail session path edges id) :
    ∀ other ∈ path, Relation.ReflTransGen session.Inherits other id := by
  induction trail with
  | start id =>
    intro other member
    rw [List.mem_singleton.mp member]
  | step _ entry ih =>
    intro other member
    rcases List.mem_append.mp member with before | last
    · exact (ih other before).tail (inherits_iff.mpr ⟨_, entry⟩)
    · rw [List.mem_singleton.mp last]

/-- Every edge from a place on the path onward lies between that place and the end. -/
theorem Trail.between (trail : Trail session path edges id) {start : Nat} {origin : ParallelId}
    (at_ : path[start]? = some origin) : ∀ edge ∈ edges.drop start, ∃ from_ to_,
      (edge, to_) ∈ session.baseEntriesOf from_ ∧ Relation.ReflTransGen session.Inherits origin from_ ∧
        Relation.ReflTransGen session.Inherits to_ id := by
  induction trail with
  | start id => simp
  | @step path edges id edge base trail entry ih =>
    intro other member
    have length := trail.length
    by_cases earlier : start < path.length
    · rw [List.getElem?_append_left earlier] at at_
      rw [List.drop_append_of_le_length (by omega)] at member
      rcases List.mem_append.mp member with before | last
      · obtain ⟨from_, to_, listed, here, there⟩ := ih at_ other before
        exact ⟨from_, to_, listed, here, there.tail (inherits_iff.mpr ⟨_, entry⟩)⟩
      · cases List.mem_singleton.mp last
        exact ⟨id, base, entry, trail.reaches origin (List.mem_of_getElem? at_), .refl⟩
    · rw [List.drop_eq_nil_of_le (by rw [List.length_append, List.length_singleton]; omega)] at member
      contradiction

/-- A base on the path closes a cycle with all that lies between. -/
theorem Trail.onCycle (trail : Trail session path edges id) (entry : (edge, base) ∈ session.baseEntriesOf id)
    {start : Nat} (found : path.idxOf? base = some start) :
    ∀ other ∈ edges.drop start ++ [edge], session.OnCycle other := by
  have at_ : path[start]? = some base := by
    obtain ⟨bound, here, _⟩ := List.findIdx?_eq_some_iff_getElem.mp found
    rw [List.getElem?_eq_getElem bound, eq_of_beq here]
  intro other member
  rcases List.mem_append.mp member with between | last
  · obtain ⟨from_, to_, listed, here, there⟩ := trail.between at_ other between
    exact ⟨from_, to_, listed, (there.tail (inherits_iff.mpr ⟨edge, entry⟩)).trans here⟩
  · rw [List.mem_singleton.mp last]
    exact ⟨id, base, entry, trail.reaches base (List.mem_of_getElem? at_)⟩

/-- A path that a walk goes along: it meets no parallel twice, and no edge that is cruft. -/
structure Course (session : Session) (path : List ParallelId) (edges : List EdgeId) (id : ParallelId) : Prop where
  trail : Trail session path edges id
  distinct : path.Nodup
  inside : ∀ other ∈ path, other.index < session.size
  clean : ∀ edge ∈ edges, session.cruft.hasEdge edge = false

theorem Course.step (course : Course session path edges id) (sane : session.Sane graph)
    (entry : (edge, base) ∈ session.baseEntriesOf id) (outside : base ∉ path)
    (sound : session.cruft.hasEdge edge = false) : Course session (path ++ [base]) (edges ++ [edge]) base where
  trail := course.trail.step entry
  distinct := by
    refine List.nodup_append.mpr ⟨course.distinct, by simp, ?_⟩
    rintro other before _ last rfl
    exact outside (List.mem_singleton.mp last ▸ before)
  inside other member := by
    rcases List.mem_append.mp member with before | last
    · exact course.inside other before
    · rw [List.mem_singleton.mp last]
      exact sane.index_lt_of_baseEntriesOf entry
  clean other member := by
    rcases List.mem_append.mp member with before | last
    · exact course.clean other before
    · exact List.mem_singleton.mp last ▸ sound

end Trail

/-- Edges that are no cruft and on no cycle found so far lead from each of these parallels to later ones. -/
def Finished (session : Session) (circular : OrderedSet EdgeId) : List ParallelId → Prop
  | [] => True
  | id :: rest => id ∉ rest ∧
      (∀ entry ∈ session.baseEntriesOf id, session.cruft.hasEdge entry.1 = false → entry.1 ∉ circular →
        entry.2 ∈ rest) ∧ session.Finished circular rest

theorem Finished.mono {circular more : OrderedSet EdgeId} {ids : List ParallelId}
    (finished : session.Finished circular ids) (grows : ∀ edge ∈ circular, edge ∈ more) :
    session.Finished more ids := by
  induction ids with
  | nil => trivial
  | cons id rest ih =>
    obtain ⟨fresh, leads, finished⟩ := finished
    refine ⟨fresh, fun entry member clean absent => ?_, ih finished⟩
    exact leads entry member clean fun listed => absent (grows entry.1 listed)

/-- What holds of a walk at any time. -/
structure Walk.Valid (session : Session) (walk : Walk) : Prop where
  finished : session.Finished walk.circular walk.done
  cyclic : ∀ edge ∈ walk.circular, session.OnCycle edge
  clean : ∀ edge ∈ walk.circular, session.cruft.hasEdge edge = false

/-- What a walk from the end of a path adds: nothing on the path is done with yet. -/
structure Walk.Goes (path : List ParallelId) (walk after : Walk) : Prop where
  done : walk.done ⊆ after.done
  circular : ∀ edge ∈ walk.circular, edge ∈ after.circular
  avoids : ∀ id ∈ after.done, id ∈ walk.done ∨ id ∉ path

theorem Walk.Goes.trans {last : Walk} (first : Walk.Goes path walk after) (second : Walk.Goes path after last) :
    Walk.Goes path walk last where
  done := fun _ member => second.done (first.done member)
  circular edge member := second.circular edge (first.circular edge member)
  avoids id member := (second.avoids id member).elim (first.avoids id) .inr

theorem Walk.Goes.refl (path : List ParallelId) (walk : Walk) : Walk.Goes path walk walk :=
  ⟨List.Subset.refl _, fun _ h => h, fun _ => .inl⟩

/-- The walk has dealt with an entry: its edge is cruft or on a cycle, or its base is done with. -/
def Walk.Covers (session : Session) (walk : Walk) (entry : EdgeId × ParallelId) : Prop :=
  session.cruft.hasEdge entry.1 = true ∨ entry.1 ∈ walk.circular ∨ entry.2 ∈ walk.done

theorem Walk.Covers.goes {entry : EdgeId × ParallelId} (covers : walk.Covers session entry)
    (goes : Walk.Goes path walk after) : after.Covers session entry := by
  rcases covers with cruft | circular | done
  · exact .inl cruft
  · exact .inr (.inl (goes.circular _ circular))
  · exact .inr (.inr (goes.done done))

/-- The edges of a cycle that was found are found. -/
theorem Walk.Valid.close (valid : walk.Valid session) (course : Course session path edges id)
    (entry : (edge, base) ∈ session.baseEntriesOf id) (sound : session.cruft.hasEdge edge = false)
    {start : Nat} (found : path.idxOf? base = some start) :
    { walk with circular := walk.circular.insertAll (edges.drop start ++ [edge]) }.Valid session where
  finished := valid.finished.mono fun _ before => OrderedSet.mem_insertAll.mpr (.inl before)
  cyclic other member := by
    rcases OrderedSet.mem_insertAll.mp member with before | new
    · exact valid.cyclic other before
    · exact course.trail.onCycle entry found other new
  clean other member := by
    rcases OrderedSet.mem_insertAll.mp member with before | new
    · exact valid.clean other before
    · rcases List.mem_append.mp new with between | last
      · exact course.clean other (List.mem_of_mem_drop between)
      · exact List.mem_singleton.mp last ▸ sound

/-- A parallel is done with once all its entries are dealt with. -/
theorem Walk.Valid.leave (valid : walk.Valid session) (fresh : id ∉ walk.done)
    (covers : ∀ entry ∈ session.baseEntriesOf id, walk.Covers session entry) :
    { walk with done := id :: walk.done }.Valid session where
  finished := by
    refine ⟨fresh, fun entry listed sound absent => ?_, valid.finished⟩
    rcases covers entry listed with cruft | circular | done
    · simp [sound] at cruft
    · exact absurd circular absent
    · exact done
  cyclic := valid.cyclic
  clean := valid.clean

theorem Walk.Goes.leave (goes : Walk.Goes path walk after) (distinct : path.Nodup) (id : ParallelId) :
    Walk.Goes (path.erase id) walk { after with done := id :: after.done } where
  done := fun _ before => List.mem_cons_of_mem _ (goes.done before)
  circular := goes.circular
  avoids other done := by
    rcases List.mem_cons.mp done with rfl | later
    · exact .inr fun again => (distinct.mem_erase_iff.mp again).1 rfl
    · exact (goes.avoids other later).imp_right fun new again => new (List.mem_of_mem_erase again)

/-- What a walk from the end of a path keeps as it follows the entries of the end: those that are seen are
covered. -/
structure Walk.Follows (session : Session) (path : List ParallelId) (walk : Walk)
    (seen : List (EdgeId × ParallelId)) (now : Walk) : Prop where
  valid : now.Valid session
  goes : Walk.Goes path walk now
  covers : ∀ entry ∈ seen, now.Covers session entry

theorem Walk.Follows.extend {seen : List (EdgeId × ParallelId)} {entry : EdgeId × ParallelId} {now later : Walk}
    (follows : Walk.Follows session path walk seen now) (valid : later.Valid session)
    (goes : Walk.Goes path now later) (covers : later.Covers session entry) :
    Walk.Follows session path walk (seen ++ [entry]) later := by
  refine ⟨valid, follows.goes.trans goes, fun other member => ?_⟩
  rcases List.mem_append.mp member with before | last
  · exact (follows.covers other before).goes goes
  · exact List.mem_singleton.mp last ▸ covers

/-- What a walk from the end of a path comes to: it is done with the end. -/
structure Walk.Arrives (session : Session) (path : List ParallelId) (id : ParallelId) (walk after : Walk) :
    Prop where
  valid : after.Valid session
  reached : id ∈ after.done
  goes : Walk.Goes (path.erase id) walk after

/-- A walk from the end of a path is done with the end, and with all that it leads to outside cycles. -/
theorem Sane.walkFrom_spec (sane : session.Sane graph) {bound : Nat} (course : Course session path edges id)
    (enough : session.size < path.length + bound) (valid : walk.Valid session)
    (apart : ∀ other ∈ path, other ∉ walk.done) :
    Walk.Arrives session path id walk (session.walkFrom bound path edges id walk) := by
  induction bound generalizing path edges id walk with
  | zero =>
    have := length_le_size course.distinct course.inside
    omega
  | succ bound ih =>
    rw [walkFrom]
    generalize walked : (session.baseEntriesOf id).foldl _ walk = last
    have fold : Walk.Follows session path walk (session.baseEntriesOf id) last := by
      rw [← walked]
      refine foldl_invariant (Walk.Follows session path walk) ⟨valid, .refl path walk, by simp⟩ ?_
      rintro seen ⟨edge, base⟩ rest now split follows
      have nowValid := follows.valid
      have entry : (edge, base) ∈ session.baseEntriesOf id := by simp [split]
      simp only
      split
      · rename_i skipped
        rw [Bool.or_eq_true, decide_eq_true_eq] at skipped
        exact follows.extend nowValid (.refl path now) (skipped.imp_right .inl)
      · rename_i kept
        rw [Bool.or_eq_true, decide_eq_true_eq, not_or, Bool.not_eq_true] at kept
        split
        · rename_i start found
          have on : Walk.Goes path now { now with circular := now.circular.insertAll (edges.drop start ++ [edge]) } :=
            ⟨List.Subset.refl _, fun other before => OrderedSet.mem_insertAll.mpr (.inl before), fun _ => .inl⟩
          have listed : edge ∈ now.circular.insertAll (edges.drop start ++ [edge]) :=
            OrderedSet.mem_insertAll.mpr (.inr (List.mem_append_right _ List.mem_cons_self))
          exact follows.extend (nowValid.close course entry kept.1 found) on (.inr (.inl listed))
        · rename_i absent
          have outside : base ∉ path := List.idxOf?_eq_none_iff.mp absent
          split
          · rename_i done
            exact follows.extend nowValid (.refl path now) (.inr (.inr done))
          · rename_i open_
            have nextApart : ∀ other ∈ path ++ [base], other ∉ now.done := by
              intro other member
              rcases List.mem_append.mp member with before | last
              · exact fun done => (follows.goes.avoids other done).elim (apart other before) fun new => new before
              · exact List.mem_singleton.mp last ▸ open_
            have room : session.size < (path ++ [base]).length + bound := by
              rw [List.length_append, List.length_singleton]
              omega
            have arrives := ih (course.step sane entry outside kept.1) room nowValid nextApart
            have on := arrives.goes
            rw [List.erase_append_right _ outside] at on
            simp only [List.erase_cons_head, List.append_nil] at on
            exact follows.extend arrives.valid on (.inr (.inr arrives.reached))
    obtain ⟨lastValid, goes, covers⟩ := fold
    have member := course.trail.last_mem
    have fresh : id ∉ last.done := fun done =>
      (goes.avoids id done).elim (apart id member) fun new => new member
    exact ⟨lastValid.leave fresh covers, List.mem_cons_self, goes.leave course.distinct id⟩

/-- All walks together are done with every explicit parallel. -/
theorem Sane.exists_walk (sane : session.Sane graph) : ∃ walk : Walk, walk.Valid session ∧
    walk.circular.toList = session.circularEdges ∧
    ∀ parallel ∈ session.parallels, parallel.isExplicit → parallel.id ∈ walk.done := by
  let roots := (session.parallels.filter Parallel.isExplicit).map Parallel.id
  let inv (seen : List ParallelId) (walk : Walk) : Prop := walk.Valid session ∧ ∀ root ∈ seen, root ∈ walk.done
  have fold : inv roots (roots.foldl (fun walk root =>
      if root ∈ walk.done then walk
      else session.walkFrom (session.size + 1) [root] [] root walk) ⟨[], ∅⟩) := by
    refine foldl_invariant inv ⟨⟨trivial, by simp, by simp⟩, by simp⟩ ?_
    rintro seen root rest walk split ⟨valid, done⟩
    have listed : root ∈ roots := by simp [split]
    split
    · rename_i already
      refine ⟨valid, fun other member => ?_⟩
      rcases List.mem_append.mp member with before | last
      · exact done other before
      · exact List.mem_singleton.mp last ▸ already
    · rename_i open_
      obtain ⟨parallel, among, rfl⟩ := List.mem_map.mp listed
      obtain ⟨id, found⟩ := exists_of_mem (List.mem_filter.mp among).1
      have bound : parallel.id.index < session.size := sane.numbers id parallel found ▸ lt_of_parallel? found
      have room : session.size < [parallel.id].length + (session.size + 1) := by
        rw [List.length_singleton]
        omega
      have course : Course session [parallel.id] [] parallel.id :=
        ⟨.start parallel.id, List.nodup_singleton _, by simpa using bound, by simp⟩
      have arrives := sane.walkFrom_spec course room valid (by simpa using open_)
      refine ⟨arrives.valid, fun other member => ?_⟩
      rcases List.mem_append.mp member with before | last
      · exact arrives.goes.done (done other before)
      · exact List.mem_singleton.mp last ▸ arrives.reached
  refine ⟨_, fold.1, rfl, fun parallel member explicit => fold.2 parallel.id ?_⟩
  exact List.mem_map_of_mem (List.mem_filter.mpr ⟨member, explicit⟩)

/-- The edges found are on cycles, and none of them was cruft. -/
theorem Sane.of_circular (sane : session.Sane graph) (found : edge ∈ session.circularEdges) :
    session.OnCycle edge ∧ session.cruft.reason? (.edge edge) = none := by
  obtain ⟨walk, valid, circular, _⟩ := sane.exists_walk
  have listed : edge ∈ walk.circular := by
    rw [OrderedSet.mem_def, circular]
    exact found
  refine ⟨valid.cyclic edge listed, ?_⟩
  simpa [Cruft.hasEdge, Cruft.has] using valid.clean edge listed

/-- Edges that are not on the cycles found lead back to no parallel that the walk is done with. -/
theorem Finished.acyclic {circular : OrderedSet EdgeId} {ids : List ParallelId} {R : ParallelId → ParallelId → Prop}
    (finished : session.Finished circular ids)
    (leads : ∀ id base, R id base → ∃ edge, (edge, base) ∈ session.baseEntriesOf id ∧
      session.cruft.hasEdge edge = false ∧ edge ∉ circular) :
    (∀ id ∈ ids, ∀ base, R id base → base ∈ ids) ∧ ∀ id ∈ ids, ¬Relation.TransGen R id id := by
  induction ids with
  | nil => simp
  | cons first rest ih =>
    obtain ⟨fresh, onward, finished⟩ := finished
    obtain ⟨closed, acyclic⟩ := ih finished
    have later {base : ParallelId} (step : R first base) : base ∈ rest := by
      obtain ⟨edge, entry, clean, absent⟩ := leads first base step
      exact onward (edge, base) entry clean absent
    have stays {id other : ParallelId} (member : id ∈ rest) (path : Relation.ReflTransGen R id other) :
        other ∈ rest := by
      induction path with
      | refl => exact member
      | tail _ step ih => exact closed _ ih _ step
    refine ⟨fun id member base step => ?_, fun id member cycle => ?_⟩
    · rcases List.mem_cons.mp member with rfl | among
      · exact List.mem_cons_of_mem _ (later step)
      · exact List.mem_cons_of_mem _ (closed id among base step)
    · rcases List.mem_cons.mp member with rfl | among
      · obtain ⟨base, step, back⟩ := Relation.TransGen.head'_iff.mp cycle
        exact fresh (stays (later step) back)
      · exact acyclic id among cycle

end OutlineTypes.Session
