import OutlineTypes.Proofs.Resolution.Answers

/-! Annotations. An explicit parallel is raked edge by edge. Each edge that is no cruft gets a base among its
successors, and the contract takes that base into account. -/
namespace OutlineTypes.Session

variable {drill : Driller} {scene : Scene} {session next : Session} {id : ParallelId} {limit : Nat}
  {flight : List TypePath} {path : TypePath} {candidate : Successor} {candidates : List Successor}
  {contract : Option Contract} {parallel : Parallel} {node : Node} {edge : Edge}

/-- The sound successors of an edge are attainable from the parallel that is raked. -/
theorem attainable_of_mem (coherent : scene.graph.Coherent) (sane : session.Sane scene.graph)
    (orderly : session.Orderly scene) (found : session.parallel? id = some parallel)
    (member : node ∈ scene.graph.nodes) (path : node.path = parallel.path)
    (outbound : edge ∈ scene.graph.outbounds node.id) (listed : candidate ∈ edge.successors)
    (sound : session.cruft.hasNode candidate.node = false) : Attainable scene session parallel.path candidate := by
  obtain ⟨bound, other, present, same, at_⟩ := coherent.mem_successors member outbound listed
  rw [path] at bound at_
  refine ⟨other, present, same, ⟨by rw [at_]; rfl, ?_, same ▸ sound⟩, ?_⟩
  · rw [at_]
    exact Nat.le.intro (TypePath.length_inScope bound)
  · rw [at_]
    exact orderly.enclosed_inScope sane found edge.subject bound

theorem Fits.meant (coherent : scene.graph.Coherent) (sane : session.Sane scene.graph)
    (orderly : session.Orderly scene) {base : ParallelId} (fits : Fits scene session path candidates base)
    (among : candidates ⊆ edge.successors) : session.Meant edge base ∧
      ∃ other, session.parallel? base = some other ∧ other.path.document = path.document ∧
        other.path.length ≤ path.length := by
  obtain ⟨candidate, listed, node, member, same, nearby, cached⟩ := fits
  obtain ⟨other, found, at_⟩ := sane.lookup?_eq_some cached
  refine ⟨⟨candidate, among listed, other, found, ?_⟩, other, found, at_ ▸ nearby.document, at_ ▸ nearby.length⟩
  rw [orderly.kinds base other found, at_, soundNode?, coherent.nodeAt?_eq_some_iff.mpr ⟨member, rfl⟩, ← same]
  simp [nearby.sound]

theorem mem_entries_insert {bases : OrderedMap EdgeId ParallelId} {key : EdgeId} {base : ParallelId}
    {entry : EdgeId × ParallelId} : entry ∈ (bases.insert key base).entries ↔
      entry = (key, base) ∨ entry ∈ bases.entries ∧ entry.1 ≠ key := by
  obtain ⟨entries, nodup⟩ := bases
  simp only [OrderedMap.insert]
  induction entries with
  | nil => simp [OrderedMap.put]
  | cons first rest ih =>
    rw [List.map_cons, List.nodup_cons] at nodup
    have apart : ∀ other ∈ rest, other.1 ≠ first.1 := fun other member same =>
      nodup.1 (same ▸ List.mem_map_of_mem member)
    unfold OrderedMap.put
    split
    · rename_i here
      simp only [List.mem_cons]
      constructor
      · rintro (rfl | later)
        · exact .inl rfl
        · exact .inr ⟨.inr later, here ▸ apart entry later⟩
      · rintro (rfl | ⟨rfl | later, other⟩)
        · exact .inl rfl
        · exact absurd here other
        · exact .inr later
    · rename_i other
      simp only [List.mem_cons, ih nodup.2]
      constructor
      · rintro (rfl | rfl | ⟨later, different⟩)
        · exact .inr ⟨.inl rfl, other⟩
        · exact .inl rfl
        · exact .inr ⟨.inr later, different⟩
      · rintro (rfl | ⟨rfl | later, different⟩)
        · exact .inr (.inl rfl)
        · exact .inl rfl
        · exact .inr (.inr ⟨later, different⟩)

theorem Answered.skip {edges : List Edge} {bases : OrderedMap EdgeId ParallelId}
    (answered : session.Answered edges bases) (cruft : session.cruft.hasEdge edge.id = true) :
    session.Answered (edges ++ [edge]) bases where
  answers other member sound := by
    rcases List.mem_append.mp member with before | last
    · exact answered.answers other before sound
    · rw [List.mem_singleton.mp last, cruft] at sound
      contradiction
  asked entry member := by
    obtain ⟨sound, other, listed, same, meant⟩ := answered.asked entry member
    exact ⟨sound, other, List.mem_append_left _ listed, same, meant⟩

theorem Answered.answer {edges : List Edge} {bases : OrderedMap EdgeId ParallelId}
    (answered : session.Answered edges bases) (sound : session.cruft.hasEdge edge.id = false)
    (apart : ∀ other ∈ edges, other.id ≠ edge.id) {base : ParallelId} (meant : session.Meant edge base) :
    session.Answered (edges ++ [edge]) (bases.insert edge.id base) where
  answers other member clean := by
    rcases List.mem_append.mp member with before | last
    · obtain ⟨found, listed⟩ := answered.answers other before clean
      exact ⟨found, mem_entries_insert.mpr (.inr ⟨listed, apart other before⟩)⟩
    · rw [List.mem_singleton.mp last]
      exact ⟨base, mem_entries_insert.mpr (.inl rfl)⟩
  asked entry member := by
    rcases mem_entries_insert.mp member with rfl | ⟨before, _⟩
    · exact ⟨sound, edge, List.mem_append_right _ List.mem_cons_self, rfl, meant⟩
    · obtain ⟨clean, other, listed, same, meant⟩ := answered.asked entry before
      exact ⟨clean, other, List.mem_append_left _ listed, same, meant⟩

section SetBase

variable {resolved : Resolved} {base : ParallelId} {other : Parallel} {key : EdgeId}

theorem mem_bases_setBase_iff (explicit : parallel.explicit = some resolved)
    (fresh : ∀ entry ∈ resolved.bases.entries, entry.1 ≠ key) {again : ParallelId} :
    again ∈ (parallel.setBase key base).bases ↔ again = base ∨ again ∈ parallel.bases := by
  simp only [Parallel.bases, Parallel.baseEntries, Parallel.setBase, Parallel.mapResolved, explicit,
    Option.map_some, List.mem_map, mem_entries_insert]
  constructor
  · rintro ⟨entry, rfl | ⟨listed, _⟩, rfl⟩
    · exact .inl rfl
    · exact .inr ⟨entry, listed, rfl⟩
  · rintro (rfl | ⟨entry, listed, rfl⟩)
    · exact ⟨(key, again), .inl rfl, rfl⟩
    · exact ⟨entry, .inr ⟨listed, fresh entry listed⟩, rfl⟩

theorem tidy_setBase (orderly : session.Orderly scene) (found : session.parallel? id = some parallel)
    (raked : parallel.raked) (standing : session.parallel? base = some other)
    (length : other.path.length ≤ parallel.path.length) (key : EdgeId) :
    Tidy session parallel (parallel.setBase key base) where
  path := rfl
  node := node_mapResolved (fun resolved => { resolved with bases := resolved.bases.insert key base })
    (fun _ => rfl) parallel
  raked := fun h => h
  pristine unraked := by
    have same : (parallel.setBase key base).raked = parallel.raked := rfl
    rw [same, raked] at unraked
    contradiction
  shorter branch member again present := by
    rcases mem_bases_setBase member with rfl | before
    · cases standing.symm.trans present
      exact length
    · exact orderly.shorter id parallel found branch before again present

/-- The parallel under way gets the base of an edge that had none. -/
theorem advances_setBase (sane : session.Sane scene.graph) (orderly : session.Orderly scene)
    (found : session.parallel? id = some parallel) (raked : parallel.raked) (unsettled : id ∉ session.settled)
    (explicit : parallel.explicit = some resolved) (fresh : ∀ entry ∈ resolved.bases.entries, entry.1 ≠ key)
    (standing : session.parallel? base = some other) (document : other.path.document = parallel.path.document)
    (length : other.path.length ≤ parallel.path.length) :
    Advances scene (some id) session (session.modify id (·.setBase key base)) ∧
      ∀ again, again ∈ (session.modify id (·.setBase key base)).basesOf id ↔
        again ∈ base :: session.basesOf id := by
  have members {again : ParallelId} :
      again ∈ (parallel.setBase key base).bases ↔ again = base ∨ again ∈ parallel.bases :=
    mem_bases_setBase_iff explicit fresh
  refine ⟨advances_modify sane orderly found raked unsettled
    (mild_setBase sane found ⟨other, standing, document⟩ key)
    (tidy_setBase orderly found raked standing length key) (fun _ => rfl) (fun _ => rfl) (fun _ h => h)
    (fun _ => rfl) fun again before => members.mpr (.inr before), fun again => ?_⟩
  rw [List.mem_cons]
  simpa [basesOf, parallel?_modify, found] using members

end SetBase

/-- What the fold over the edges of a node keeps, from the contract that it began with on: those that are
done are answered, and what the contract says of their bases holds. -/
structure Answering (scene : Scene) (session : Session) (contract : Option Contract) (id : ParallelId)
    (node : Node) (done : List Edge) (state : Option Contract × Session) : Prop where
  advances : Advances scene (some id) session state.2
  answered : ∃ parallel resolved, state.2.parallel? id = some parallel ∧ parallel.raked ∧
    parallel.path = node.path ∧ parallel.explicit = some resolved ∧ resolved.node = node.id ∧
    state.2.Answered done resolved.bases
  contracted : state.1.isSome = contract.isSome
  verdict : ∀ now, state.1 = some now → Verdict session state.2 id (state.2.basesOf id) now

namespace Answering

variable {done rest : List Edge} {state : Option Contract × Session} (coherent : scene.graph.Coherent)
  (obliges : Obliges scene flight limit drill)

theorem deep (answering : Answering scene session contract id node done state) (other : ParallelId)
    (finished : session.Deep other) : state.2.Deep other :=
  (answering.advances.steady answering.advances.before).deep finished

theorem skip (answering : Answering scene session contract id node done state)
    (cruft : state.2.cruft.hasEdge edge.id = true) :
    Answering scene session contract id node (done ++ [edge]) state := by
  obtain ⟨advances, ⟨parallel, resolved, found, raked, path, explicit, same, answered⟩, contracted, verdict⟩ :=
    answering
  exact ⟨advances, ⟨parallel, resolved, found, raked, path, explicit, same, answered.skip cruft⟩, contracted,
    verdict⟩

include coherent in
/-- An edge that is condemned asks for no answer. -/
theorem condemn (answering : Answering scene session contract id node done state)
    (outbound : edge ∈ scene.graph.outbounds node.id) (apart : ∀ other ∈ done, other.id ≠ edge.id) :
    Answering scene session contract id node (done ++ [edge])
      (state.1, state.2.condemn scene (.edge edge.id) .unresolved) := by
  have deep := answering.deep
  obtain ⟨advances, ⟨parallel, resolved, found, raked, path, explicit, same, answered⟩, contracted, verdict⟩ :=
    answering
  have condemned := advances_condemn coherent.toFramed advances.sane advances.orderly found
    (advances.unsettled id rfl) explicit (same ▸ outbound)
  have marked (other : EdgeId) := hasEdge_condemn_edge state.2 scene edge.id other .unresolved
  have kept : (state.2.condemn scene (.edge edge.id) .unresolved).Answered done resolved.bases := by
    refine answered.mono (fun other before => ?_) fun other again there => ⟨again, there, rfl⟩
    simp [marked, apart other before]
  refine ⟨advances.trans condemned, ⟨parallel, resolved, found, raked, path, explicit, same, ?_⟩, contracted,
    fun now current => ?_⟩
  · exact kept.skip (by simp [marked])
  · exact (verdict now current).advance condemned advances.orderly found deep

include coherent in
/-- The base that is chosen for an edge answers it, and the contract has weighed it. -/
theorem answer {before after : Option Contract} {now : Session}
    (answering : Answering scene session contract id node done (before, now))
    (outbound : edge ∈ scene.graph.outbounds node.id) (among : done ⊆ scene.graph.outbounds node.id)
    (apart : ∀ other ∈ done, other.id ≠ edge.id) (sound : now.cruft.hasEdge edge.id = false)
    (chosen : Advances scene none now next) {base : ParallelId} (fits : Fits scene next node.path candidates base)
    (successors : candidates ⊆ edge.successors) (weighed : Option.Rel (Weighed session next base) before after) :
    Answering scene session contract id node (done ++ [edge])
      (after, next.modify id (·.setBase edge.id base)) := by
  have deep := answering.deep
  obtain ⟨advances, ⟨parallel, resolved, found, raked, path, explicit, same, answered⟩, contracted, verdict⟩ :=
    answering
  have unsettled := advances.unsettled id rfl
  have there := chosen.kept id parallel found raked (by simp)
  have still := chosen.grows.not_mem_settled found raked unsettled
  obtain ⟨meant, other, standing, document, length⟩ := fits.meant coherent chosen.sane chosen.orderly successors
  rw [← path] at document length
  have fresh : ∀ entry ∈ resolved.bases.entries, entry.1 ≠ edge.id := by
    intro entry listed
    obtain ⟨_, before, member, equal, _⟩ := answered.asked entry listed
    exact equal ▸ apart before member
  obtain ⟨set, bases⟩ := advances_setBase chosen.sane chosen.orderly there raked still explicit fresh standing
    document length
  refine ⟨(advances.trans (chosen.weaken found raked unsettled)).trans set,
    ⟨parallel.setBase edge.id base, { resolved with bases := resolved.bases.insert edge.id base }, ?_,
      raked, path, ?_, same, ?_⟩, ?_, ?_⟩
  · rw [parallel?_modify, if_pos rfl, there]
    rfl
  · simp only [Parallel.setBase, Parallel.mapResolved, explicit, Option.map_some]
  · have clear : next.cruft.hasEdge edge.id = false := by
      rw [chosen.edges id parallel found raked (by simp) resolved explicit edge (same ▸ outbound)]
      exact sound
    have earlier := chosen.answered advances.orderly found raked explicit (same ▸ among) answered
    refine (earlier.answer clear apart meant).mono (fun _ _ => rfl) fun again there present => ?_
    obtain ⟨last, known, _, node⟩ := set.keeps chosen.orderly present
    exact ⟨last, known, node⟩
  · rw [← contracted]
    cases weighed <;> rfl
  · have same : next.basesOf id = now.basesOf id := by simp only [basesOf, found, there]
    have nextDeep (other : ParallelId) (finished : session.Deep other) : next.Deep other :=
      (chosen.steady chosen.before).deep (deep other finished)
    intro last current
    cases weighed with
    | none => contradiction
    | some weighed =>
      cases current
      have carried := (verdict _ rfl).advance chosen advances.orderly found deep
      exact ((carried.weigh weighed).advance set chosen.orderly there nextDeep).congr fun again => by
        rw [bases, same]

include coherent obliges in
/-- Each edge gets an answer, or turns out to be cruft, and the ledger stays balanced. -/
theorem rakeEdge_ensures (answering : Answering scene session contract id node done state)
    (balances : session.Balanced scene → state.2.Balanced scene)
    (workable : Workable scene flight limit session) (short : node.path.length ≤ limit)
    (member : node ∈ scene.graph.nodes) (split : scene.graph.outbounds node.id = done ++ edge :: rest) :
    Ensures (rakeEdge drill scene id state edge) fun next =>
      Answering scene session contract id node (done ++ [edge]) next ∧
        (session.Balanced scene → next.2.Balanced scene) := by
  have outbound : edge ∈ scene.graph.outbounds node.id := by simp [split]
  have among : done ⊆ scene.graph.outbounds node.id := split ▸ List.subset_append_left _ _
  have apart : ∀ other ∈ done, other.id ≠ edge.id := by
    have unique : ((scene.graph.outbounds node.id).map Edge.id).Nodup :=
      coherent.edgeIds.sublist (List.filter_sublist.map _)
    rw [split, List.map_append, List.map_cons, List.nodup_append] at unique
    exact fun other before => unique.2.2 _ (List.mem_map_of_mem before) _ List.mem_cons_self
  unfold rakeEdge
  simp only
  split
  · rename_i marked
    exact .pure ⟨answering.skip marked, balances⟩
  · rename_i clean
    split
    · exact .pure ⟨answering.condemn coherent outbound apart, fun balanced => (balances balanced).condemn edge.id rfl⟩
    · rename_i some_
      let candidates := edge.successors.filter fun candidate => !state.2.cruft.hasNode candidate.node
      have nowWorkable := workable.advance answering.advances
      obtain ⟨parallel, _, found, raked, path, _⟩ := answering.answered
      have attainable : ∀ candidate ∈ candidates, Attainable scene state.2 node.path candidate := by
        intro candidate listed
        obtain ⟨successor, clean⟩ := List.mem_filter.mp listed
        rw [← path]
        exact attainable_of_mem coherent nowWorkable.sane nowWorkable.orderly found member path.symm outbound
          successor (by simpa using clean)
      have nonempty : candidates ≠ [] := fun empty => some_ (List.isEmpty_iff.mpr empty)
      refine (chooseBase_ensures coherent obliges short nowWorkable attainable nonempty answering.deep state.1
        fun before current => (answering.verdict before current).known).bind fun result h => ?_
      obtain ⟨base, after, next⟩ := result
      obtain ⟨chosen, base, rfl, fits, weighed⟩ := h
      have unsettled := chosen.grows.not_mem_settled found raked (answering.advances.unsettled id rfl)
      refine .pure ⟨answering.answer coherent outbound among apart (by simpa using clean) chosen fits
        List.filter_sublist.subset weighed, fun balanced => ?_⟩
      exact (chosen.balances rfl (balances balanced)).steady (steady_modify unsettled _) rfl rfl rfl

end Answering

/-- Once an explicit parallel is raked, its annotations are answered. -/
def Done (scene : Scene) (session : Session) (id : ParallelId) : Prop :=
  ∀ parallel, session.parallel? id = some parallel → ∀ resolved, parallel.explicit = some resolved →
    session.Answered (scene.graph.outbounds resolved.node) resolved.bases

theorem bases_setContract (contract : Option Contract) (parallel : Parallel) :
    (parallel.setContract contract).bases = parallel.bases := by
  cases parallel with | mk id path container edges explicit raked =>
  cases explicit <;> rfl

theorem parallel?_setContract (found : session.parallel? id = some parallel) {resolved : Resolved}
    (explicit : parallel.explicit = some resolved) (contract : Option Contract) :
    (session.modify id (Parallel.setContract contract)).parallel? id = some (parallel.setContract contract) ∧
      (parallel.setContract contract).explicit = some { resolved with contract } := by
  constructor
  · rw [parallel?_modify, if_pos rfl, found, Option.map_some]
  · simp only [Parallel.setContract, Parallel.mapResolved, explicit, Option.map_some]

theorem tidy_setContract (orderly : session.Orderly scene) (found : session.parallel? id = some parallel)
    (raked : parallel.raked) (contract : Option Contract) :
    Tidy session parallel (parallel.setContract contract) where
  path := rfl
  node := node_mapResolved (fun resolved => { resolved with contract }) (fun _ => rfl) parallel
  raked := fun h => h
  pristine unraked := by
    have same : (parallel.setContract contract).raked = parallel.raked := rfl
    rw [same, raked] at unraked
    contradiction
  shorter branch member := by
    refine orderly.shorter id parallel found branch ?_
    rwa [Parallel.branches, bases_setContract] at member

/-- A contract begins with nothing satisfied, where the parallel is to be checked. -/
theorem contractOf_ensures (sane : session.Sane scene.graph) (found : session.parallel? id = some parallel) :
    Ensures (session.contractOf scene id parallel) fun contract =>
      (scene.checksContracts → parallel.isApex = false → contract.isSome) ∧
        ∀ now, contract = some now → Verdict session session id [] now := by
  unfold contractOf
  split
  · rw [sane.conditionsOf_eq ⟨parallel, found, rfl⟩]
    exact .pure ⟨fun _ _ => rfl, fun now current => Option.some.inj current ▸ .start sane id⟩
  · rename_i unchecked
    refine .pure ⟨fun checks overrides => absurd ?_ unchecked, fun _ current => by contradiction⟩
    simp [checks, overrides]

variable (coherent : scene.graph.Coherent) (obliges : Obliges scene flight limit drill)

include coherent obliges in
/-- The first edges of a node are answered one after another. -/
theorem rakeEdges_ensures (workable : Workable scene flight limit session)
    (found : session.parallel? id = some parallel) (raked : parallel.raked) (unsettled : id ∉ session.settled)
    (pristine : parallel.baseEntries = []) (short : parallel.path.length ≤ limit) {resolved : Resolved}
    (explicit : parallel.explicit = some resolved) (member : node ∈ scene.graph.nodes)
    (same : resolved.node = node.id) (path : parallel.path = node.path)
    (verdict : ∀ now, contract = some now → Verdict session session id [] now) {front back : List Edge}
    (outbounds : scene.graph.outbounds node.id = front ++ back) :
    Ensures (front.foldlM (rakeEdge drill scene id) (contract, session)) fun state =>
      Answering scene session contract id node front state ∧
        (session.Balanced scene → state.2.Balanced scene) := by
  have empty : resolved.bases.entries = [] := by
    simpa [Parallel.baseEntries, explicit] using pristine
  have none : session.basesOf id = [] := by simp [basesOf, found, Parallel.bases, pristine]
  refine Ensures.foldlM (fun done state => Answering scene session contract id node done state ∧
    (session.Balanced scene → state.2.Balanced scene)) ⟨?_, fun h => h⟩ fun done edge rest state split h => ?_
  · exact ⟨(Advances.refl workable.sane workable.orderly).weaken found raked unsettled, ⟨parallel, resolved, found,
      raked, path, explicit, same, by simp, by simp [empty]⟩, rfl, none ▸ verdict⟩
  · rw [split, List.append_assoc] at outbounds
    exact h.1.rakeEdge_ensures coherent obliges h.2 workable (path ▸ short) member outbounds

/-- The rakings under way and the faults that are noted make no difference to the answers. -/
theorem Answering.report {done : List Edge} {raking : List ParallelId} {after : Option Contract}
    {last noted : Session} (answering : Answering scene { session with raking } contract id node done (after, last))
    (same : noted = { last with raking := session.raking, faults := noted.faults })
    (more : last.faults.faults <+: noted.faults.faults) :
    Answering scene session contract id node done (after, noted) := by
  obtain ⟨advances, ⟨parallel, resolved, found, raked, path, explicit, meant, answered⟩, contracted, verdict⟩ :=
    answering
  have outer : Advances scene (some id) session { last with raking := session.raking } := by
    have inFlight : last.inFlight = session.inFlight := advances.grows.inFlight
    have reframed := advances.reframe
    rwa [← inFlight] at reframed
  refine ⟨outer.report same more, ⟨parallel, resolved, ?_, raked, path, explicit, meant, ?_⟩, contracted, ?_⟩
  all_goals rw [same]
  · exact found
  · exact ⟨answered.answers, answered.asked⟩
  · intro now current
    obtain ⟨known, demanded, complete, satisfied, unmet⟩ := verdict now current
    exact ⟨known, demanded, complete, satisfied, unmet⟩

/-- Once all edges of a node are answered, its contract can be set. -/
theorem Answering.setContract {state : Option Contract × Session}
    (answering : Answering scene session contract id node (scene.graph.outbounds node.id) state)
    (known : session.parallel? id = some parallel)
    (checked : scene.checksContracts → parallel.isApex = false → contract.isSome) :
    Advances scene (some id) session (state.2.modify id (Parallel.setContract state.1)) ∧
      (state.2.modify id (Parallel.setContract state.1)).Done scene id ∧
      Judged scene session (state.2.modify id (Parallel.setContract state.1)) id := by
  have deep := answering.deep
  obtain ⟨advances, ⟨now, resolved, found, raked, _, explicit, same, answered⟩, contracted, verdict⟩ := answering
  have set := advances_modify advances.sane advances.orderly found raked
    (advances.unsettled id rfl) (mild_setContract advances.sane found state.1)
    (tidy_setContract advances.orderly found raked state.1) (fun _ => rfl) (fun _ => rfl) (fun _ h => h)
    (fun _ => rfl) (by rw [bases_setContract]; exact List.Subset.refl _)
  obtain ⟨here, stands⟩ := parallel?_setContract found explicit state.1
  refine ⟨advances.trans set, ?_, ?_⟩
  · intro final standing chosen explicit
    cases here.symm.trans standing
    cases stands.symm.trans explicit
    simp only [same]
    refine answered.mono (fun _ _ => rfl) fun other again known => ?_
    obtain ⟨kept, standing, _, node⟩ := set.keeps advances.orderly known
    exact ⟨kept, standing, node⟩
  · intro final chosen standing explicit checks overrides
    cases here.symm.trans standing
    cases stands.symm.trans explicit
    obtain ⟨_, present, _, edges, _⟩ := advances.grows.keeps id parallel known
    cases found.symm.trans present
    have apex : now.isApex = parallel.isApex := by simp only [Parallel.isApex, edges]
    have some_ := checked checks (apex.symm.trans overrides)
    rw [← contracted] at some_
    obtain ⟨last, current⟩ := Option.isSome_iff_exists.mp some_
    refine ⟨last, current, ((verdict last current).advance set advances.orderly found deep).congr fun base => ?_⟩
    simp [basesOf, here, found, bases_setContract]

/-- A contract that is set is what the report was about. -/
theorem Answering.reckon {done : List Edge} {state : Option Contract × Session}
    (answering : Answering scene session contract id node done state) (framed : scene.graph.Framed)
    (member : node ∈ scene.graph.nodes) (reckoned : state.2.Reckoned scene (Owes node state.1)) :
    (state.2.modify id (Parallel.setContract state.1)).Reckoned scene
      ((state.2.modify id (Parallel.setContract state.1)).Blames scene id) := by
  obtain ⟨advances, ⟨now, resolved, found, _, _, explicit, same, _⟩, _⟩ := answering
  obtain ⟨here, stands⟩ := parallel?_setContract found explicit state.1
  have set := reckoned.steady (steady_modify (advances.unsettled id rfl) (Parallel.setContract state.1)) rfl rfl rfl
  exact set.owing fun statement => (owes_iff_blames framed.nodeIds member here stands same).symm

include coherent obliges in
theorem rakeExplicit_ensures (workable : Workable scene flight limit session)
    (found : session.parallel? id = some parallel) (raked : parallel.raked) (unsettled : id ∉ session.settled)
    (pristine : parallel.baseEntries = []) (short : parallel.path.length ≤ limit) :
    Ensures (rakeExplicit drill scene id session) fun next =>
      Advances scene (some id) session next ∧ next.Done scene id ∧ Judged scene session next id ∧
        (session.Balanced scene → next.Reckoned scene (next.Blames scene id)) := by
  unfold rakeExplicit
  refine (parallelOf_ensures session id).bind fun again there => ?_
  cases found.symm.trans there
  cases explicit : parallel.explicit with
  | none =>
    refine .pure ⟨(Advances.refl workable.sane workable.orderly).weaken found raked unsettled, ?_, ?_,
      fun balanced => balanced.owing fun _ => iff_false_intro (not_blames_of_implicit found explicit)⟩
    · intro again present resolved stands
      cases found.symm.trans present
      rw [explicit] at stands
      contradiction
    · intro again resolved present stands
      cases found.symm.trans present
      rw [explicit] at stands
      contradiction
  | some resolved =>
    obtain ⟨node, member, same, path⟩ := workable.sane.explicit id parallel found resolved explicit
    simp only [← same, coherent.node?_id member]
    refine (contractOf_ensures workable.sane found).bind fun contract h => ?_
    obtain ⟨checked, verdict⟩ := h
    let begun : Session := { session with raking := id :: session.raking }
    have begunWorkable : Workable scene flight limit begun := workable.begin_ found raked unsettled
    refine (rakeEdges_ensures coherent obliges begunWorkable found raked unsettled pristine short explicit member
      same.symm path.symm (fun now current => (verdict now current).reframe) (List.append_nil _).symm).bind
      fun state h => ?_
    obtain ⟨after, last⟩ := state
    obtain ⟨answering, balances⟩ := h
    have unwound : last.raking.drop 1 = session.raking := by
      rw [answering.advances.grows.raking]
      rfl
    simp only [unwound] at answering ⊢
    have ledger (balanced : session.Balanced scene) : { last with raking := session.raking }.Balanced scene := by
      have begunBalanced : begun.Balanced scene := balanced.congr rfl rfl rfl rfl
      exact (balances begunBalanced).congr rfl rfl rfl rfl
    refine ((reportViolation_ensures _ scene parallel.path node after).and
      (reportViolation_reckons _ member parallel.path after)).bind fun noted h => ?_
    obtain ⟨⟨rest, more⟩, reckons⟩ := h
    have reported := answering.report rest more
    obtain ⟨advances, done, judged⟩ := reported.setContract found checked
    exact .pure ⟨advances, done, judged, fun balanced =>
      reported.reckon coherent.toFramed member (reckons (ledger balanced))⟩

end OutlineTypes.Session
