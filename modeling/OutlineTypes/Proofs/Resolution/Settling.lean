import OutlineTypes.Proofs.Resolution.Annotations

/-! Settling. A raking brings everything that it begins to its end, and once the child of a descent is raked
all that was laid on the way to it is. So going down one name is an advance from one orderly session to
another, with nothing new left to rake. -/
namespace OutlineTypes.Session

variable {drill : Driller} {scene : Scene} {session next last : Session} {id : ParallelId} {limit : Nat}
  {flight : List TypePath} {path : TypePath} {parallel : Parallel} {name : Name}

section Rake

theorem not_mem_settled (sane : session.Sane scene.graph) (found : session.parallel? id = some parallel)
    (unraked : parallel.raked = false) : id ∉ session.settled := by
  intro settled
  obtain ⟨again, there, raked⟩ := sane.settled id settled
  cases found.symm.trans there
  simp [unraked] at raked

theorem parallel?_markRaked_of_ne {other : ParallelId} (apart : other ≠ id) :
    (session.markRaked id).parallel? other = session.parallel? other := by
  rw [markRaked, parallel?_modify, if_neg apart]

theorem steady_markRaked (sane : session.Sane scene.graph) (found : session.parallel? id = some parallel)
    (unraked : parallel.raked = false) : Steady session (session.markRaked id) :=
  steady_modify (not_mem_settled sane found unraked) _

theorem orderly_markRaked (sane : session.Sane scene.graph) (orderly : session.Orderly scene)
    (found : session.parallel? id = some parallel) (unraked : parallel.raked = false) :
    (session.markRaked id).Orderly scene := by
  refine orderly.revise sane (sane_markRaked sane id) (steady_markRaked sane found unraked) rfl
    (revised_modify session id · _) (fun other before there => ?_) fun _ _ _ _ _ _ _ _ => rfl
  split
  · exact ⟨rfl, rfl, fun _ => rfl, fun h => by contradiction, orderly.shorter other before there⟩
  · exact ⟨rfl, rfl, fun h => h, orderly.pristine other before there, orderly.shorter other before there⟩

theorem basesOf_markRaked (session : Session) (id other : ParallelId) :
    (session.markRaked id).basesOf other = session.basesOf other := by
  simp only [basesOf, markRaked, revised_modify]
  cases session.parallel? other with
  | none => rfl
  | some parallel =>
    simp only [Option.map_some]
    split <;> rfl

/-- A raking that began with this parallel and has answered it brings it to rest. -/
theorem Advances.settle (sane : session.Sane scene.graph) (found : session.parallel? id = some parallel)
    (unraked : parallel.raked = false) (advances : Advances scene (some id) (session.markRaked id) last)
    (raked : ∀ edge ∈ last.edgesOf id, ∃ other, last.parallel? edge = some other ∧ other.raked)
    (done : last.Done scene id) (judged : Judged scene session last id)
    (reckons : session.Balanced scene → last.Reckoned scene (last.Blames scene id)) :
    Advances scene none session { last with settled := last.settled ++ [id] } := by
  obtain ⟨settledSane, grows⟩ := sane.settle advances.sane advances.grows found unraked
  have before {other : ParallelId} {again : Parallel} (there : session.parallel? other = some again)
      (done : again.raked) : (session.markRaked id).parallel? other = some again ∧ some id ≠ some other := by
    have apart : other ≠ id := by
      rintro rfl
      cases found.symm.trans there
      simp [unraked] at done
    exact ⟨(parallel?_markRaked_of_ne apart).trans there, by simpa [eq_comm] using apart⟩
  refine ⟨sane, settledSane, advances.orderly.settle raked done, grows, by simp, ?_, ?_, ?_, advances.nodes, ?_,
    advances.marks, advances.prepared, advances.remembers, ?_, fun other => ?_, fun other settled absent => ?_,
    fun _ balanced => (reckons balanced).settle⟩
  · intro other again there done _
    obtain ⟨marked, apart⟩ := before there done
    exact advances.kept other again marked done apart
  · intro other now there done
    rcases advances.ended other now there done with settled | ⟨again, marked, begun⟩
    · exact .inl (List.mem_append_left _ settled)
    · by_cases here : other = id
      · exact .inl (List.mem_append_right _ (List.mem_singleton.mpr here))
      · exact .inr ⟨again, (parallel?_markRaked_of_ne here).symm.trans marked, begun⟩
  · intro other now there absent
    obtain ⟨done, born, mirrored⟩ := advances.fresh other now there (by
      rw [parallel?_markRaked_of_ne, absent]
      rintro rfl
      rw [found] at absent
      contradiction)
    exact ⟨done, born, mirrored.congr rfl rfl⟩
  · intro other again there done _ resolved explicit
    obtain ⟨marked, apart⟩ := before there done
    exact advances.edges other again marked done apart resolved explicit
  · intro other again now there present
    obtain ⟨marked, known, same⟩ := exists_modified id (fun parallel => { parallel with raked := true }) there
    rw [advances.containers other marked now known present]
    rcases same with rfl | ⟨_, rfl⟩ <;> rfl
  · rw [← basesOf_markRaked session id other]
    exact advances.bases other
  · rcases List.mem_append.mp settled with during | new
    · have earlier := advances.judged other during absent
      exact (earlier.weaken fun _ => (steady_markRaked sane found unraked).deep).congr rfl
    · cases List.mem_singleton.mp new
      exact judged.congr rfl

variable (coherent : scene.graph.Coherent) (obliges : Obliges scene flight limit drill)

theorem Workable.markRaked (workable : Workable scene flight limit session)
    (found : session.parallel? id = some parallel) (unraked : parallel.raked = false) :
    Workable scene flight limit (session.markRaked id) where
  sane := sane_markRaked workable.sane id
  orderly := orderly_markRaked workable.sane workable.orderly found unraked
  under := workable.under
  busy := workable.busy.extends (extends_markRaked session id)
  above other member absent := by
    refine workable.above other member ?_
    cases cached : session.lookup? other with
    | none => rfl
    | some known =>
      have kept := (extends_markRaked session id).lookup? workable.sane (sane_markRaked workable.sane id) cached
      rw [kept] at absent
      contradiction

/-- Where single parallels can be raked, so can all of these that a parallel overrides. -/
theorem rakeEach_ensures {rake : Session → ParallelId → Except Fatal Session} {edges : List ParallelId}
    (one : ∀ {session other parallel}, Workable scene flight limit session →
      session.parallel? other = some parallel → parallel.path.length ≤ limit →
        Ensures (rake session other) fun next =>
          Advances scene none session next ∧ ∃ now, next.parallel? other = some now ∧ now.raked)
    (workable : Workable scene flight limit session) (found : session.parallel? id = some parallel)
    (raked : parallel.raked) (short : parallel.path.length ≤ limit) (overridden : edges ⊆ parallel.edges.toList) :
    Ensures (edges.foldlM rake session) fun next => Advances scene none session next ∧
      ∀ edge ∈ edges, ∃ other, next.parallel? edge = some other ∧ other.raked := by
  refine Ensures.foldlM (fun done state => Advances scene none session state ∧
    ∀ edge ∈ done, ∃ other, state.parallel? edge = some other ∧ other.raked)
      ⟨.refl workable.sane workable.orderly, by simp⟩ ?_
  rintro done edge rest state split ⟨advances, reached⟩
  have still := advances.kept id _ found raked (by simp)
  have member : edge ∈ parallel.branches := List.mem_append_left _ (overridden (by simp [split]))
  obtain ⟨other, standing, _⟩ := advances.sane.branches id _ still edge member
  have shorter := advances.orderly.shorter id _ still edge member other standing
  refine (one (workable.advance advances) standing (shorter.trans short)).mono fun result h => ?_
  refine ⟨advances.trans h.1, fun beside among => ?_⟩
  rcases List.mem_append.mp among with before | new
  · obtain ⟨known, present, done⟩ := reached beside before
    exact ⟨known, h.1.kept beside known present done (by simp), done⟩
  · exact List.mem_singleton.mp new ▸ h.2

include coherent obliges in
theorem rakeWithin_ensures (bound : Nat) (workable : Workable scene flight limit session)
    (found : session.parallel? id = some parallel) (short : parallel.path.length ≤ limit) :
    Ensures (rakeWithin drill scene bound id session) fun next =>
      Advances scene none session next ∧ ∃ now, next.parallel? id = some now ∧ now.raked := by
  induction bound generalizing id session parallel with
  | zero => exact .error _
  | succ bound ih =>
    rw [rakeWithin]
    refine (parallelOf_ensures session id).bind fun again there => ?_
    cases found.symm.trans there
    split
    · rename_i raked
      exact .pure ⟨.refl workable.sane workable.orderly, parallel, found, raked⟩
    · rename_i waiting
      have unraked : parallel.raked = false := by simpa using waiting
      have sane := workable.sane
      have marked := workable.markRaked found unraked
      have here := parallel?_markRaked found
      refine (rakeEach_ensures (fun workable there short => ih workable there short) marked here rfl short
        (List.Subset.refl _)).bind fun mid h => ?_
      obtain ⟨advances, raked⟩ := h
      have still := advances.kept id _ here rfl (by simp)
      have outside : id ∉ session.settled := not_mem_settled sane found unraked
      have waits : id ∉ (session.markRaked id).settled := outside
      have unsettled := advances.grows.not_mem_settled here rfl waits
      have pristine : ({ parallel with raked := true } : Parallel).baseEntries = [] :=
        workable.orderly.pristine id parallel found unraked
      refine (rakeExplicit_ensures coherent obliges (marked.advance advances) still rfl unsettled pristine
        short).bind fun last h => ?_
      obtain ⟨further, done, judged, reckons⟩ := h
      have all := (advances.weaken here rfl waits).trans further
      obtain ⟨now, present, _, edges, begun⟩ := further.grows.keeps id _ still
      have before (other : ParallelId) (finished : session.Deep other) : mid.Deep other :=
        (advances.steady advances.before).deep ((steady_markRaked sane found unraked).deep finished)
      have ledger (balanced : session.Balanced scene) : last.Reckoned scene (last.Blames scene id) :=
        reckons (advances.balances rfl (balanced.steady (steady_markRaked sane found unraked) rfl rfl rfl))
      refine .pure ⟨Advances.settle sane found unraked all (fun edge member => ?_) done (judged.weaken before) ledger,
        now, present, begun rfl⟩
      rw [edgesOf_eq present, edges] at member
      obtain ⟨known, standing, done⟩ := raked edge member
      obtain ⟨after, there, _, _, kept⟩ := further.grows.keeps edge known standing
      exact ⟨after, there, kept done⟩

end Rake

section Descent

variable {start child : ParallelId}

theorem Laid.settled_or_raked (laid : Laid scene session child next) (advances : Advances scene none next last)
    {id : ParallelId} {now : Parallel} (found : last.parallel? id = some now) (raked : now.raked) :
    id ∈ last.settled ∨ ∃ before, session.parallel? id = some before ∧ before.raked := by
  rcases advances.ended id now found raked with settled | ⟨between, there, begun⟩
  · exact .inl settled
  · cases known : session.parallel? id with
    | some old =>
      cases laid.old_of_found known there
      exact .inr ⟨between, rfl, begun⟩
    | none => simp [(laid.fresh id between there known).1] at begun

/-- What is new settles, from the child on along what it overrides. -/
theorem Laid.raked_of_connected (laid : Laid scene session child next) (advances : Advances scene none next last)
    (raked : ∃ now, last.parallel? child = some now ∧ now.raked) (absent : session.parallel? child = none)
    (path : Relation.ReflTransGen (fun a b => b ∈ next.edgesOf a ∧ session.parallel? b = none) child id) :
    ∃ now, last.parallel? id = some now ∧ now.raked := by
  induction path with
  | refl => exact raked
  | @tail before id path step ih =>
    have new : session.parallel? before = none := by
      cases path with
      | refl => exact absent
      | tail _ step => exact step.2
    obtain ⟨now, found, done⟩ := ih
    have settled := (laid.settled_or_raked advances found done).resolve_right fun ⟨_, known, _⟩ => by
      simp [new] at known
    obtain ⟨between, there, listed⟩ := List.mem_flatMap.mp step.1
    obtain ⟨again, present, _, edges, _⟩ := advances.grows.keeps before between (Option.mem_toList.mp there)
    refine advances.orderly.edgesRaked before settled id ?_
    rw [edgesOf_eq present, edges]
    exact listed

/-- Raking a parallel brings all that was laid on the way to it to rest. -/
theorem Laid.advance (laid : Laid scene session child next) (sane : session.Sane scene.graph)
    (advances : Advances scene none next last)
    (raked : ∃ now, last.parallel? child = some now ∧ now.raked) : Advances scene none session last := by
  have steady := laid.steady sane
  refine ⟨sane, advances.sane, advances.orderly, laid.grows.trans advances.grows, by simp, ?_,
    fun id parallel found done => laid.settled_or_raked advances found done, ?_, ?_, ?_, ?_, ?_, ?_, ?_, ?_, ?_,
    fun _ balanced => ?_⟩
  · intro id parallel found done _
    exact advances.kept id parallel (laid.old id parallel found) done (by simp)
  · intro id parallel found absent
    cases between : next.parallel? id with
    | none => exact advances.fresh id parallel found between
    | some before =>
      obtain ⟨new, path⟩ := laid.connected id before between absent
      obtain ⟨now, there, done⟩ := laid.raked_of_connected advances raked new path
      cases found.symm.trans there
      obtain ⟨again, present, same, edges, _⟩ := advances.grows.keeps id before between
      cases found.symm.trans present
      obtain ⟨_, born, mirrored⟩ := laid.fresh id before between absent
      rw [same]
      exact ⟨done, advances.born laid.sane (laid.orderly.enclosed id before between) born,
        (mirrored.steady between laid.sane advances.sane laid.orderly (advances.steady laid.sane)
          advances.grows).revise same edges (advances.containers id before parallel between found)⟩
  · intro node
    rw [advances.nodes, steady.nodes]
  · intro id parallel found done _ resolved explicit edge member
    rw [advances.edges id parallel (laid.old id parallel found) done (by simp) resolved explicit edge member,
      laid.rest]
  · intro edge
    have same := advances.marks edge
    rwa [show next.cruft = session.cruft by rw [laid.rest]] at same
  · rw [advances.prepared, laid.rest]
  · have remembers := advances.remembers
    rwa [laid.rest] at remembers
  · exact fun id parallel now found => advances.containers id parallel now (laid.old id parallel found)
  · intro id base member
    obtain ⟨parallel, found, listed⟩ := List.mem_flatMap.mp member
    refine advances.bases id (List.mem_flatMap.mpr ⟨parallel, ?_, listed⟩)
    exact Option.mem_toList.mpr (laid.old id parallel (Option.mem_toList.mp found))
  · intro id settled absent
    refine (advances.judged id settled ?_).weaken fun _ => steady.deep
    rwa [laid.rest]
  · exact advances.balances rfl (balanced.steady steady (by rw [laid.rest]) (by rw [laid.rest]) (by rw [laid.rest]))

/-- A root parallel is laid on its own. -/
theorem insert_laid (sane : session.Sane scene.graph) (orderly : session.Orderly scene)
    (absent : session.lookup? path = none) (root : path.container? = none) {node : NodeId}
    (sound : session.soundNode? scene path = some node) :
    Ensures (session.insert path none (some node)) fun result =>
      Laid scene session result.1 result.2 ∧ result.2.lookup? path = some result.1 := by
  have stands : ∀ id, some node = some id → ∃ other ∈ scene.graph.nodes, other.id = id ∧ other.path = path := by
    intro id same
    cases same
    exact exists_node_of_soundNode? sound
  refine ((sane.insert_succeeds absent none (some node) stands).ensures.and
    (insert_ensures session path none (some node))).mono fun result h => ?_
  obtain ⟨id, next⟩ := result
  obtain ⟨⟨inserted, nextSane, grows⟩, number, rest, split⟩ := h
  simp only at number rest split nextSane grows ⊢
  let new : Parallel := ⟨id, path, none, ∅, some ⟨node, ∅, none⟩, false⟩
  have here : next.parallel? id = some new := (split id new).mpr (.inr ⟨rfl, rfl⟩)
  have enlarges : Enlarges scene session next :=
    ⟨nextSane, grows, rest, fun other parallel found => (split other parallel).mpr (.inl found)⟩
  have only {other : ParallelId} {parallel : Parallel} (found : next.parallel? other = some parallel)
      (fresh : session.parallel? other = none) : other = id ∧ parallel = new := by
    rcases (split other parallel).mp found with before | same
    · rw [fresh] at before
      contradiction
    · exact same
  have noContainer {outer : TypePath} (container : path.container? = some outer) : False := by
    rw [root] at container
    contradiction
  refine ⟨⟨enlarges, ?_, ?_, ?_⟩, nextSane.lookup?_path here⟩
  · refine enlarges.orderly_next sane orderly (fun other parallel found fresh => ?_) ?_
    · obtain ⟨rfl, rfl⟩ := only found fresh
      refine ⟨fun outer container => (noContainer container).elim, sound.symm, fun _ => rfl, rfl, ?_⟩
      intro branch member
      simp [new, Parallel.branches, Parallel.bases, Parallel.baseEntries] at member
      simp [EmptyCollection.emptyCollection, OrderedMap.empty] at member
    · intro other below last stands fresh
      obtain ⟨around, parallel, _, found, same⟩ := stands
      obtain ⟨rfl, rfl⟩ := only found fresh
      exact (noContainer ((congrArg TypePath.container? same).trans (TypePath.container?_child _ _))).elim
  · intro other parallel found fresh
    obtain ⟨rfl, rfl⟩ := only found fresh
    refine ⟨rfl, fun outer container => (noContainer container).elim, by rw [root]; rfl, fun edge => ?_⟩
    refine iff_of_false (OrderedSet.not_mem_empty edge) ?_
    rintro ⟨_, _, _, ⟨around, parallel, _, known, same⟩, _⟩
    cases found.symm.trans known
    exact noContainer ((congrArg TypePath.container? same).trans (TypePath.container?_child _ _))
  · intro other parallel found fresh
    obtain ⟨rfl, rfl⟩ := only found fresh
    exact ⟨fresh, .refl⟩

/-- The drills under way that have no parallel yet go to this path or to longer ones. -/
def Ahead (session : Session) (path : TypePath) : Prop :=
  ∀ other ∈ session.inFlight, session.lookup? other = none → other = path ∨ path.length < other.length

theorem Laid.workable (laid : Laid scene session child next) (sane : session.Sane scene.graph)
    (busy : session.Busy) (ahead : session.Ahead path) (cached : next.lookup? path = some child) :
    Workable scene session.inFlight path.length next where
  sane := laid.sane
  orderly := laid.orderly
  under := laid.grows.inFlight
  busy := busy.extends laid.grows
  above other member absent := by
    rw [laid.grows.inFlight] at member
    have before : session.lookup? other = none := by
      cases known : session.lookup? other with
      | none => rfl
      | some id =>
        rw [laid.lookup? sane known] at absent
        contradiction
    refine (ahead other member before).resolve_left ?_
    rintro rfl
    rw [cached] at absent
    contradiction

variable (coherent : scene.graph.Coherent)

include coherent in
theorem Laid.rake_ensures (laid : Laid scene session child next) (sane : session.Sane scene.graph)
    (obliges : Obliges scene session.inFlight path.length drill) (busy : session.Busy) (ahead : session.Ahead path)
    (cached : next.lookup? path = some child) : Ensures (next.rake drill scene child) fun last =>
      Advances scene none session last ∧ last.lookup? path = some child := by
  obtain ⟨parallel, found, same⟩ := laid.sane.lookup?_eq_some cached
  refine (rakeWithin_ensures coherent obliges _ (laid.workable sane busy ahead cached) found
    (by rw [same])).mono fun last h => ?_
  exact ⟨laid.advance sane h.1 h.2, h.1.lookup? laid.sane cached⟩

theorem ChildOf.lookup? (stands : next.ChildOf name start child) (sane : next.Sane scene.graph)
    (found : next.parallel? start = some parallel) : next.lookup? (parallel.path.child name) = some child := by
  obtain ⟨around, inner, outer, present, same⟩ := stands
  cases found.symm.trans outer
  exact same ▸ sane.lookup?_path present

end Descent

end OutlineTypes.Session
