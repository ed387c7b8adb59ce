import OutlineTypes.Proofs.Resolution.Rest

/-! Tasks. The work of a drill falls into tasks, each begun by another: a path is gone down name by name, every
layer is raked, raking resolves edges, and an edge drills its candidates. A task comes with the session in which
it begins, so what is kept from task to task holds wherever a drill gets to. -/
namespace OutlineTypes.Session

section Tasks

/-- A candidate that was drilled. -/
structure Trial where
  candidate : Successor
  outcome : Outcome
  /-- What the drill left. -/
  session : Session

/-- Candidates are drilled one after another. -/
inductive Trials (drill : Driller) (scene : Scene) : Session → List Trial → Session → Prop where
  | nil (session : Session) : Trials drill scene session [] session
  | cons {session last : Session} {trial : Trial} {trials : List Trial}
      (drilled : session.drillCandidate drill scene trial.candidate = .ok (trial.outcome, trial.session))
      (rest : Trials drill scene trial.session trials last) : Trials drill scene session (trial :: trials) last

/-- The sound successors of an edge, nearest first. -/
def candidatesOf (session : Session) (edge : Edge) : List Successor :=
  edge.successors.filter fun candidate => !session.cruft.hasNode candidate.node

/-- The contract by which one of these candidates is chosen, where the nearest will not do. -/
def weighing (contract : Option Contract) (candidates : List Successor) : Option Contract :=
  match contract, candidates with
  | some contract, _ :: _ :: _ => some contract
  | _, _ => none

/-- The search for a base goes on after this candidate. -/
def Trial.Fails (contract : Option Contract) (trial : Trial) : Prop :=
  ∀ base, trial.outcome = .resolved base → ∃ weighed, contract = some weighed ∧ weighed.hasUnsatisfied ∧
    weighed.gain (trial.session.lineage base) = 0

/-- A part of the work of a drill. The bound is that of the drills inside it. -/
inductive Task where
  | drill (bound : Nat) (path : TypePath) (session : Session)
  /-- Goes down along the names and rakes each layer. -/
  | follow (bound : Nat) (names : List Name) (start : ParallelId) (session : Session)
  | descent (start : ParallelId) (name : Name) (session : Session)
  | rake (bound depth : Nat) (id : ParallelId) (session : Session)
  /-- Resolves the edges of a parallel, after all that it overrides. -/
  | answer (bound : Nat) (id : ParallelId) (session : Session)
  | edge (bound : Nat) (id : ParallelId) (contract : Option Contract) (session : Session) (edge : Edge)

/-- The session in which a drill of the path is under way. -/
def enter (session : Session) (path : TypePath) : Session :=
  { session with inFlight := path :: session.inFlight }

namespace Task

/-- The first task begins the second one, in the session that all it did before has left. -/
inductive Starts (scene : Scene) : Task → Task → Prop where
  /-- A drill goes on from the longest prefix that has a parallel. -/
  | resume {bound : Nat} {path : TypePath} {session : Session} {length : Nat} {id : ParallelId}
      (absent : session.lookup? path = none) (free : path ∉ session.inFlight)
      (cached : (session.enter path).longestCached? path = some (length, id)) :
      Starts scene (.drill (bound + 1) path session)
        (.follow bound (path.names.drop length) id (session.enter path))
  /-- Where no prefix has one, the root parallel is made and raked first. -/
  | surface {bound : Nat} {path : TypePath} {session : Session} {node : NodeId} {result : ParallelId × Session}
      (absent : session.lookup? path = none) (free : path ∉ session.inFlight)
      (uncached : (session.enter path).longestCached? path = none)
      (sound : (session.enter path).soundNode? scene (path.upTo 1) = some node)
      (inserted : (session.enter path).insert (path.upTo 1) none (some node) = .ok result) :
      Starts scene (.drill (bound + 1) path session) (.rake bound (result.2.size + 1) result.1 result.2)
  | surfaced {bound : Nat} {path : TypePath} {session next : Session} {id : ParallelId}
      (absent : session.lookup? path = none) (free : path ∉ session.inFlight)
      (uncached : (session.enter path).longestCached? path = none)
      (done : (session.enter path).surface (drillWithin scene bound) scene path = .ok (some id, next)) :
      Starts scene (.drill (bound + 1) path session) (.follow bound (path.names.drop 1) id next)
  | descend {bound : Nat} {name : Name} {rest : List Name} {start : ParallelId} {session : Session} :
      Starts scene (.follow bound (name :: rest) start session) (.descent start name session)
  | rakeChild {bound : Nat} {name : Name} {rest : List Name} {start child : ParallelId} {session next : Session}
      (descended : session.descend scene start name = .ok (some child, next)) :
      Starts scene (.follow bound (name :: rest) start session) (.rake bound (next.size + 1) child next)
  | follow {bound : Nat} {name : Name} {rest : List Name} {start child : ParallelId}
      {session next last : Session} (descended : session.descend scene start name = .ok (some child, next))
      (raked : next.rake (drillWithin scene bound) scene child = .ok last) :
      Starts scene (.follow bound (name :: rest) start session) (.follow bound rest child last)
  | override {bound depth : Nat} {id edge : ParallelId} {session next : Session} {parallel : Parallel}
      {front back : List ParallelId} (found : session.parallel? id = some parallel)
      (unraked : parallel.raked = false) (split : parallel.edges.toList = front ++ edge :: back)
      (raked : front.foldlM (fun session edge => rakeWithin (drillWithin scene bound) scene depth edge session)
        (session.markRaked id) = .ok next) :
      Starts scene (.rake bound (depth + 1) id session) (.rake bound depth edge next)
  | answer {bound depth : Nat} {id : ParallelId} {session next : Session} {parallel : Parallel}
      (found : session.parallel? id = some parallel) (unraked : parallel.raked = false)
      (raked : parallel.edges.toList.foldlM
        (fun session edge => rakeWithin (drillWithin scene bound) scene depth edge session)
        (session.markRaked id) = .ok next) :
      Starts scene (.rake bound (depth + 1) id session) (.answer bound id next)
  | edge {bound : Nat} {id : ParallelId} {session : Session} {parallel : Parallel} {resolved : Resolved}
      {node : Node} {contract : Option Contract} {front back : List Edge} {edge : Edge}
      {state : Option Contract × Session} (found : session.parallel? id = some parallel)
      (explicit : parallel.explicit = some resolved) (stands : scene.graph.node? resolved.node = some node)
      (demanded : session.contractOf scene id parallel = .ok contract)
      (split : scene.graph.outbounds node.id = front ++ edge :: back)
      (raked : front.foldlM (rakeEdge (drillWithin scene bound) scene id)
        (contract, { session with raking := id :: session.raking }) = .ok state) :
      Starts scene (.answer bound id session) (.edge bound id state.1 state.2 edge)
  /-- None of the candidates before it has ended the search. -/
  | candidate {bound : Nat} {id : ParallelId} {contract : Option Contract} {session next : Session} {edge : Edge}
      {trials : List Trial} {candidate : Successor} {back : List Successor} {node : Node}
      (sound : session.cruft.hasEdge edge.id = false)
      (split : session.candidatesOf edge = trials.map Trial.candidate ++ candidate :: back)
      (tried : Trials (drillWithin scene bound) scene session trials next)
      (failed : ∀ trial ∈ trials, trial.Fails (weighing contract (session.candidatesOf edge)))
      (stands : scene.graph.node? candidate.node = some node) :
      Starts scene (.edge bound id contract session edge) (.drill bound node.path next)

/-- The second task is the first one or belongs to its work. -/
def Within (scene : Scene) : Task → Task → Prop := Relation.ReflTransGen (Starts scene)

end Task

end Tasks

variable {scene : Scene} {session next last : Session} {id start child : ParallelId} {path outer : TypePath}
  {parallel : Parallel} {name : Name} {names rest : List Name} {limit less bound depth : Nat}

section Poised

/-- The rakings under way are of paths that are no shorter than this. -/
def Tall (session : Session) (limit : Nat) : Prop :=
  ∀ id ∈ session.raking, ∃ parallel, session.parallel? id = some parallel ∧ limit ≤ parallel.path.length

theorem Tall.mono (tall : session.Tall limit) (le : less ≤ limit) : session.Tall less := by
  intro id member
  obtain ⟨parallel, found, long⟩ := tall id member
  exact ⟨parallel, found, le.trans long⟩

theorem Tall.extends (tall : session.Tall limit) (grows : Extends session next) : next.Tall limit := by
  intro id member
  obtain ⟨parallel, found, long⟩ := tall id (grows.raking ▸ member)
  obtain ⟨now, present, path, _⟩ := grows.keeps id parallel found
  exact ⟨now, present, path ▸ long⟩

/-- Raking can go on up to paths of this length, inside rakings of paths that are no shorter. -/
structure Poised (scene : Scene) (limit : Nat) (session : Session) : Prop
    extends Workable scene session.inFlight limit session where
  tall : session.Tall limit

theorem Poised.mono (poised : Poised scene limit session) (le : less ≤ limit) : Poised scene less session where
  toWorkable := { poised.toWorkable with
    above := fun other member absent => Nat.lt_of_le_of_lt le (poised.above other member absent) }
  tall := poised.tall.mono le

theorem Poised.advance {free : Option ParallelId} (poised : Poised scene limit session)
    (advances : Advances scene free session next) : Poised scene limit next where
  toWorkable := { poised.toWorkable.advance advances with under := rfl }
  tall := poised.tall.extends advances.grows

theorem AtRest.poised (rest : session.AtRest scene) (limit : Nat) : Poised scene limit session := by
  constructor
  · constructor
    · exact rest.sane
    · exact rest.orderly
    · rfl
    · simp [Above, rest.idle]
    · simp [Busy, rest.quiet]
  · simp [Tall, rest.quiet]

end Poised

section Entered

/-- A drill of the path has begun, inside drills and rakings of paths that are no shorter. -/
structure Entered (scene : Scene) (path : TypePath) (session : Session) : Prop where
  sane : session.Sane scene.graph
  orderly : session.Orderly scene
  busy : session.Busy
  ahead : session.Ahead path
  tall : session.Tall path.length

theorem Poised.enter (poised : Poised scene path.length session) : Entered scene path (session.enter path) where
  sane := poised.sane.congr rfl rfl
  orderly := poised.orderly.congr rfl rfl rfl
  busy := poised.busy
  ahead other member absent := by
    rcases List.mem_cons.mp member with rfl | before
    · exact .inl rfl
    · exact .inr (poised.above other before absent)
  tall := poised.tall

theorem Entered.advance (entered : Entered scene path session) (advances : Advances scene none session next) :
    Entered scene path next where
  sane := advances.sane
  orderly := advances.orderly
  busy := entered.busy.extends advances.grows
  ahead other member absent := by
    refine entered.ahead other (advances.grows.inFlight ▸ member) ?_
    cases cached : session.lookup? other with
    | none => rfl
    | some id =>
      rw [advances.lookup? entered.sane cached] at absent
      contradiction
  tall := entered.tall.extends advances.grows

/-- What was laid on the way to a path can be raked. -/
theorem Entered.poised_of_laid (entered : Entered scene path session) (laid : Laid scene session child next)
    (inside : Inside path outer) (cached : next.lookup? outer = some child) :
    ∃ parallel, next.parallel? child = some parallel ∧ Poised scene parallel.path.length next := by
  obtain ⟨parallel, found, rfl⟩ := laid.sane.lookup?_eq_some cached
  have workable := laid.workable entered.sane entered.busy (entered.ahead.inside inside) cached
  have tall := (entered.tall.extends laid.grows).mono inside.length_le
  exact ⟨parallel, found, { workable with under := rfl }, tall⟩

/-- A drill has come down to a parallel, with these names left. A drill inside another one goes down one name at
most, below a parallel that is raked to the end with all below it. -/
structure Heading (scene : Scene) (path : TypePath) (names : List Name) (start : ParallelId) (session : Session) :
    Prop extends Entered scene path session where
  stands : ∃ parallel, session.parallel? start = some parallel ∧ path.document = parallel.path.document ∧
    path.names = parallel.path.names ++ names
  free : session.AllSettled ∨ names.length ≤ 1 ∧ (names ≠ [] → session.Deep start)

variable (entered : Entered scene path session) (free : session.AllSettled ∨ session.Enclosed path)

include entered free in
theorem Entered.resume {length : Nat} (found : session.longestCached? path = some (length, id)) :
    Heading scene path (path.names.drop length) id session := by
  have spec := longestCached?_spec session path
  rw [found] at spec
  obtain ⟨positive, shorter, cached, _⟩ := spec
  obtain ⟨parallel, there, same⟩ := entered.sane.lookup?_eq_some cached
  refine ⟨entered, ⟨parallel, there, ?_, ?_⟩, free.imp_right fun enclosed => ?_⟩
  · rw [same]
    rfl
  · rw [same, TypePath.names_upTo path positive, List.take_append_drop]
  · cases container : path.container? with
    | none =>
      have single := (upTo_one_of_container? container).1
      omega
    | some outer =>
      obtain ⟨around, known, deep⟩ := enclosed outer container
      cases found.symm.trans (longestCached?_container container known)
      rw [drop_length_pred container]
      exact ⟨Nat.le_refl 1, fun _ => deep⟩

include entered in
theorem Entered.surface (absent : session.lookup? (path.upTo 1) = none) {node : NodeId}
    (sound : session.soundNode? scene (path.upTo 1) = some node) {result : ParallelId × Session}
    (inserted : session.insert (path.upTo 1) none (some node) = .ok result) :
    ∃ parallel, result.2.parallel? result.1 = some parallel ∧ Poised scene parallel.path.length result.2 := by
  obtain ⟨laid, cached⟩ := insert_laid entered.sane entered.orderly absent (container?_upTo_one path) sound
    result inserted
  exact entered.poised_of_laid laid (inside_upTo_one path) cached

include entered in
theorem Entered.surface_advances (coherent : scene.graph.Coherent) (absent : session.lookup? (path.upTo 1) = none)
    (done : session.surface (drillWithin scene bound) scene path = .ok (some id, next)) :
    Advances scene none session next ∧ next.lookup? (path.upTo 1) = some id :=
  surface_ensures coherent (obliges_drillWithin coherent bound _ _) entered.sane entered.orderly entered.busy
    (entered.ahead.inside (inside_upTo_one path)) absent _ done

include entered free in
theorem Entered.surfaced (coherent : scene.graph.Coherent) (absent : session.lookup? (path.upTo 1) = none)
    (uncached : session.longestCached? path = none)
    (done : session.surface (drillWithin scene bound) scene path = .ok (some id, next)) :
    Heading scene path (path.names.drop 1) id next := by
  obtain ⟨advances, cached⟩ := entered.surface_advances coherent absent done
  obtain ⟨parallel, found, same⟩ := advances.sane.lookup?_eq_some cached
  refine ⟨entered.advance advances, ⟨parallel, found, ?_, ?_⟩, ?_⟩
  · rw [same]
    rfl
  · rw [same]
    exact (List.take_append_drop 1 path.names).symm
  · refine free.imp (fun settled => settled.advance advances) fun enclosed => ?_
    cases container : path.container? with
    | none =>
      have finished : path.names.drop 1 = [] :=
        List.drop_eq_nil_of_le (Nat.le_of_eq (upTo_one_of_container? container).1)
      simp [finished]
    | some outer =>
      obtain ⟨around, known, _⟩ := enclosed outer container
      rw [longestCached?_container container known] at uncached
      contradiction

end Entered

section Heading

variable (heading : Heading scene path (name :: rest) start session)
include heading

theorem Heading.deep : session.Deep start := by
  obtain ⟨parallel, found, _⟩ := heading.stands
  rcases heading.free with settled | ⟨_, deep⟩
  · exact settled.deep heading.sane found
  · exact deep (List.cons_ne_nil name rest)

/-- The path lies inside the child that is gone down to. -/
theorem Heading.inside (found : session.parallel? start = some parallel) :
    Inside path (parallel.path.child name) := by
  obtain ⟨again, there, document, names⟩ := heading.stands
  cases found.symm.trans there
  refine ⟨document, rest, ?_⟩
  rw [names, TypePath.names_child, List.append_assoc, List.singleton_append]

theorem Heading.laid (descended : session.descend scene start name = .ok (some child, next)) :
    Laid scene session child next ∧ ∃ outer, Inside path outer ∧ next.lookup? outer = some child ∧
      ∃ parallel, session.parallel? start = some parallel ∧ outer = parallel.path.child name := by
  obtain ⟨parallel, found, _⟩ := heading.stands
  obtain ⟨laid, stands⟩ := heading.orderly.descend_ensures heading.sane heading.deep name _ descended
  exact ⟨laid, parallel.path.child name, heading.inside found,
    stands.lookup? laid.sane (laid.old start parallel found), parallel, found, rfl⟩

theorem Heading.rakeChild (descended : session.descend scene start name = .ok (some child, next)) :
    ∃ parallel, next.parallel? child = some parallel ∧ Poised scene parallel.path.length next := by
  obtain ⟨laid, outer, inside, cached, _⟩ := heading.laid descended
  exact heading.poised_of_laid laid inside cached

/-- Going down one name and raking what that laid leaves nothing new to rake. -/
theorem Heading.advances (coherent : scene.graph.Coherent)
    (descended : session.descend scene start name = .ok (some child, next))
    (raked : next.rake (drillWithin scene bound) scene child = .ok last) :
    Advances scene none session last ∧ ∃ parallel, session.parallel? start = some parallel ∧
      last.lookup? (parallel.path.child name) = some child := by
  obtain ⟨laid, outer, inside, cached, parallel, found, rfl⟩ := heading.laid descended
  obtain ⟨advances, known⟩ := laid.rake_ensures coherent heading.sane (obliges_drillWithin coherent bound _ _)
    heading.busy (heading.ahead.inside inside) cached _ raked
  exact ⟨advances, parallel, found, known⟩

theorem Heading.follow (coherent : scene.graph.Coherent)
    (descended : session.descend scene start name = .ok (some child, next))
    (raked : next.rake (drillWithin scene bound) scene child = .ok last) : Heading scene path rest child last := by
  obtain ⟨advances, parallel, found, known⟩ := heading.advances coherent descended raked
  have inside := heading.inside found
  obtain ⟨below, there, same⟩ := advances.sane.lookup?_eq_some known
  refine ⟨heading.advance advances, ⟨below, there, ?_, ?_⟩, ?_⟩
  · rw [same]
    exact inside.1
  · obtain ⟨again, present, _, names⟩ := heading.stands
    cases found.symm.trans present
    rw [same, names, TypePath.names_child, List.append_assoc, List.singleton_append]
  · refine heading.free.imp (fun settled => settled.advance advances) fun last => ?_
    have finished : rest = [] := by simpa using last.1
    simp [finished]

end Heading

section Raking

/-- An edge of a parallel that is being raked is next. -/
structure Facing (scene : Scene) (id : ParallelId) (contract : Option Contract) (session : Session) (edge : Edge)
    (parallel : Parallel) (node : Node) : Prop where
  poised : Poised scene parallel.path.length session
  found : session.parallel? id = some parallel
  member : node ∈ scene.graph.nodes
  path : node.path = parallel.path
  outbound : edge ∈ scene.graph.outbounds node.id
  checked : scene.checksContracts → parallel.isApex = false → contract.isSome

variable (coherent : scene.graph.Coherent)

include coherent in
/-- Raking what a parallel overrides advances the session in which its own raking has begun. -/
theorem Poised.rakeEach_advances (poised : Poised scene parallel.path.length session)
    (found : session.parallel? id = some parallel) (unraked : parallel.raked = false) {edges : List ParallelId}
    (overridden : edges ⊆ parallel.edges.toList)
    (raked : edges.foldlM (fun session edge => rakeWithin (drillWithin scene bound) scene depth edge session)
      (session.markRaked id) = .ok next) :
    Advances scene none (session.markRaked id) next ∧
      ∀ edge ∈ edges, ∃ other, next.parallel? edge = some other ∧ other.raked :=
  rakeEach_ensures (fun workable there short => rakeWithin_ensures coherent (obliges_drillWithin coherent bound _ _)
    depth workable there short) (poised.markRaked found unraked) (parallel?_markRaked found) rfl (Nat.le_refl _)
      overridden next raked

include coherent in
/-- A raking goes on from each parallel that is overridden to the next. -/
theorem Poised.rakeEach (poised : Poised scene parallel.path.length session)
    (found : session.parallel? id = some parallel) (unraked : parallel.raked = false) {edges : List ParallelId}
    (overridden : edges ⊆ parallel.edges.toList)
    (raked : edges.foldlM (fun session edge => rakeWithin (drillWithin scene bound) scene depth edge session)
      (session.markRaked id) = .ok next) :
    next.parallel? id = some { parallel with raked := true } ∧ id ∉ next.settled ∧
      Poised scene parallel.path.length next := by
  have here := parallel?_markRaked found
  have outside : id ∉ session.settled := not_mem_settled poised.sane found unraked
  have waits : id ∉ (session.markRaked id).settled := outside
  have marked := poised.markRaked found unraked
  obtain ⟨advances, _⟩ := poised.rakeEach_advances coherent found unraked overridden raked
  refine ⟨advances.kept id _ here rfl (by simp), advances.grows.not_mem_settled here rfl waits, ?_⟩
  have tall := poised.tall.extends ((extends_markRaked session id).trans advances.grows)
  exact ⟨{ marked.advance advances with under := rfl }, tall⟩

include coherent in
theorem Poised.override (poised : Poised scene parallel.path.length session)
    (found : session.parallel? id = some parallel) (unraked : parallel.raked = false) {edge : ParallelId}
    {front back : List ParallelId} (split : parallel.edges.toList = front ++ edge :: back)
    (raked : front.foldlM (fun session edge => rakeWithin (drillWithin scene bound) scene depth edge session)
      (session.markRaked id) = .ok next) :
    ∃ other, next.parallel? edge = some other ∧ Poised scene other.path.length next := by
  obtain ⟨there, _, now⟩ := poised.rakeEach coherent found unraked (by simp [split]) raked
  have member : edge ∈ ({ parallel with raked := true } : Parallel).branches :=
    List.mem_append_left _ (by simp [split])
  obtain ⟨other, standing, _⟩ := now.sane.branches id _ there edge member
  exact ⟨other, standing, now.mono (now.orderly.shorter id _ there edge member other standing)⟩

theorem Poised.begin_ (poised : Poised scene parallel.path.length session)
    (found : session.parallel? id = some parallel) (raked : parallel.raked) (unsettled : id ∉ session.settled) :
    Poised scene parallel.path.length { session with raking := id :: session.raking } := by
  refine ⟨poised.toWorkable.begin_ found raked unsettled, fun other listed => ?_⟩
  rcases List.mem_cons.mp listed with rfl | before
  · exact ⟨parallel, found, Nat.le_refl _⟩
  · exact poised.tall other before

include coherent in
/-- The edges of a parallel are answered one after another. -/
theorem Poised.answering (poised : Poised scene parallel.path.length session)
    (found : session.parallel? id = some parallel) (raked : parallel.raked) (unsettled : id ∉ session.settled)
    (pristine : parallel.baseEntries = []) {resolved : Resolved} (explicit : parallel.explicit = some resolved)
    {node : Node} (stands : scene.graph.node? resolved.node = some node) {contract : Option Contract}
    (demanded : session.contractOf scene id parallel = .ok contract) {front back : List Edge}
    (split : scene.graph.outbounds node.id = front ++ back) {state : Option Contract × Session}
    (done : front.foldlM (rakeEdge (drillWithin scene bound) scene id)
      (contract, { session with raking := id :: session.raking }) = .ok state) :
    node.path = parallel.path ∧
      Answering scene { session with raking := id :: session.raking } contract id node front state := by
  obtain ⟨member, same⟩ := coherent.node?_eq_some_iff.mp stands
  obtain ⟨other, among, number, path⟩ := poised.sane.explicit id parallel found resolved explicit
  cases eq_of_key_eq coherent.nodeIds among member (number.trans same.symm)
  obtain ⟨_, verdict⟩ := contractOf_ensures poised.sane found contract demanded
  obtain ⟨answering, _⟩ := rakeEdges_ensures coherent (obliges_drillWithin coherent bound _ _)
    (poised.begin_ found raked unsettled).toWorkable found raked unsettled pristine (Nat.le_refl _) explicit member
      same.symm path.symm (fun now current => (verdict now current).reframe) split state done
  exact ⟨path, answering⟩

include coherent in
theorem Poised.edge (poised : Poised scene parallel.path.length session)
    (found : session.parallel? id = some parallel) (raked : parallel.raked) (unsettled : id ∉ session.settled)
    (pristine : parallel.baseEntries = []) {resolved : Resolved} (explicit : parallel.explicit = some resolved)
    {node : Node} (stands : scene.graph.node? resolved.node = some node) {contract : Option Contract}
    (demanded : session.contractOf scene id parallel = .ok contract) {front back : List Edge} {edge : Edge}
    (split : scene.graph.outbounds node.id = front ++ edge :: back) {state : Option Contract × Session}
    (done : front.foldlM (rakeEdge (drillWithin scene bound) scene id)
      (contract, { session with raking := id :: session.raking }) = .ok state) :
    ∃ now, Facing scene id state.1 state.2 edge now node := by
  obtain ⟨path, answering⟩ := poised.answering coherent found raked unsettled pristine explicit stands demanded split
    done
  obtain ⟨checked, _⟩ := contractOf_ensures poised.sane found contract demanded
  obtain ⟨now, _, there, _, at_, _⟩ := answering.answered
  have samePath : now.path = parallel.path := at_.trans path
  refine ⟨now, ?_, there, (coherent.node?_eq_some_iff.mp stands).1, at_.symm, by simp [split],
    fun checks overrides => ?_⟩
  · rw [samePath]
    exact (poised.begin_ found raked unsettled).advance answering.advances
  · obtain ⟨_, present, _, edges, _⟩ := answering.advances.grows.keeps id parallel found
    cases there.symm.trans present
    rw [answering.contracted]
    exact checked checks (by simpa only [Parallel.isApex, edges] using overrides)

variable {contract : Option Contract} {edge : Edge} {node : Node} {candidate : Successor} {trials : List Trial}

include coherent in
theorem Facing.attainable (facing : Facing scene id contract session edge parallel node)
    (listed : candidate ∈ session.candidatesOf edge) : Attainable scene session parallel.path candidate := by
  obtain ⟨among, sound⟩ := List.mem_filter.mp listed
  exact attainable_of_mem coherent facing.poised.sane facing.poised.orderly facing.found facing.member facing.path
    facing.outbound among (by simpa using sound)

include coherent in
/-- A candidate stands in a scope around the parallel. -/
theorem Facing.inScope (facing : Facing scene id contract session edge parallel node)
    (listed : candidate ∈ session.candidatesOf edge) {other : Node}
    (stands : scene.graph.node? candidate.node = some other) : candidate.longitude < parallel.path.length ∧
      other.path = parallel.path.inScope candidate.longitude edge.subject := by
  obtain ⟨near, found, member, number, scope⟩ :=
    coherent.mem_successors facing.member facing.outbound (List.mem_filter.mp listed).1
  rw [← number, coherent.node?_id member] at stands
  cases stands
  rw [← facing.path]
  exact ⟨near, scope⟩

include coherent in
/-- Drilling candidates of a parallel advances the session. -/
theorem Trials.advances (tried : Trials (drillWithin scene bound) scene session trials next)
    (poised : Poised scene path.length session)
    (attainable : ∀ trial ∈ trials, Attainable scene session path trial.candidate) :
    Advances scene none session next := by
  induction tried with
  | nil session => exact .refl poised.sane poised.orderly
  | @cons session last trial trials drilled _ ih =>
    obtain ⟨advances, _⟩ := drillCandidate_ensures coherent (obliges_drillWithin coherent bound _ _) (Nat.le_refl _)
      poised.toWorkable (attainable trial List.mem_cons_self) (List.mem_singleton_self _) _ drilled
    refine advances.trans (ih (poised.advance advances) fun other member => ?_)
    exact (attainable other (List.mem_cons_of_mem _ member)).advance poised.sane advances

include coherent in
theorem Facing.advances (facing : Facing scene id contract session edge parallel node)
    {back : List Successor} (split : session.candidatesOf edge = trials.map Trial.candidate ++ back)
    (tried : Trials (drillWithin scene bound) scene session trials next) : Advances scene none session next := by
  refine tried.advances coherent facing.poised fun trial member => facing.attainable coherent ?_
  rw [split]
  exact List.mem_append_left _ (List.mem_map_of_mem member)

include coherent in
theorem Facing.drills (facing : Facing scene id contract session edge parallel node)
    {back : List Successor} (split : session.candidatesOf edge = trials.map Trial.candidate ++ candidate :: back)
    (tried : Trials (drillWithin scene bound) scene session trials next) {other : Node}
    (stands : scene.graph.node? candidate.node = some other) :
    Poised scene other.path.length next ∧ next.Enclosed other.path := by
  have advances := facing.advances coherent split tried
  have listed : candidate ∈ session.candidatesOf edge := by simp [split]
  obtain ⟨again, member, same, nearby, enclosed⟩ := facing.attainable coherent listed
  rw [← same, coherent.node?_id member] at stands
  cases stands
  exact ⟨(facing.poised.advance advances).mono nearby.length, advances.enclosed facing.poised.sane enclosed⟩

end Raking

section Returns

variable {trials : List Trial} {drill : Driller}

theorem exists_drillNew (absent : session.lookup? path = none) (free : path ∉ session.inFlight)
    {result : Outcome × Session} (done : drillWithin scene (bound + 1) path session = .ok result) :
    ∃ result, drillNew (drillWithin scene bound) scene path (session.enter path) = .ok result := by
  unfold drillWithin at done
  simp only [absent, if_neg free] at done
  obtain ⟨mid, drilled, _⟩ := exists_ok_of_bind done
  exact ⟨mid, drilled⟩

theorem lineage_of_lineageOf {lineage : List ParallelId} (done : session.lineageOf id = .ok lineage) :
    lineage = session.lineage id := by
  unfold lineageOf present at done
  split at done
  · contradiction
  · exact (Except.ok.inj done).symm

/-- A search by contract that has come past these candidates has not ended with them. -/
theorem Trials.satisfying {contract : Contract} {further : List Successor}
    (tried : Trials drill scene session trials next) (failed : ∀ trial ∈ trials, trial.Fails (some contract))
    {fallback circular : Option ParallelId} {result : Option ParallelId × Contract × Session}
    (done : satisfying drill scene contract fallback circular session
      (trials.map Trial.candidate ++ further) = .ok result) :
    ∃ fallback circular, Session.satisfying drill scene contract fallback circular next further = .ok result := by
  induction tried generalizing fallback circular with
  | nil session => exact ⟨fallback, circular, done⟩
  | @cons session last trial trials drilled _ ih =>
    have others : ∀ other ∈ trials, other.Fails (some contract) := fun other member =>
      failed other (List.mem_cons_of_mem _ member)
    rw [List.map_cons, List.cons_append, Session.satisfying, drilled, ok_bind] at done
    simp only at done
    split at done
    · rename_i base outcome
      obtain ⟨_, same, unsatisfied, nothing⟩ := failed trial List.mem_cons_self base outcome
      cases same
      rw [if_pos unsatisfied] at done
      obtain ⟨lineage, listed, onward⟩ := exists_ok_of_bind done
      rw [lineage_of_lineageOf listed, nothing] at onward
      exact ih others onward
    · exact ih others done
    · exact ih others done

theorem Trials.nearest {further : List Successor} (tried : Trials drill scene session trials next)
    (failed : ∀ trial ∈ trials, trial.Fails none) {circular : Option ParallelId}
    {result : Option ParallelId × Session}
    (done : nearest drill scene circular session (trials.map Trial.candidate ++ further) = .ok result) :
    ∃ circular, Session.nearest drill scene circular next further = .ok result := by
  induction tried generalizing circular with
  | nil session => exact ⟨circular, done⟩
  | @cons session last trial trials drilled _ ih =>
    have others : ∀ other ∈ trials, other.Fails none := fun other member =>
      failed other (List.mem_cons_of_mem _ member)
    rw [List.map_cons, List.cons_append, Session.nearest, drilled, ok_bind] at done
    simp only at done
    split at done
    · rename_i base outcome
      obtain ⟨_, same, _⟩ := failed trial List.mem_cons_self base outcome
      contradiction
    · exact ih others done
    · exact ih others done

theorem chooseBase_of_weighing {contract : Option Contract} {weighed : Contract} {candidates : List Successor}
    (weighs : weighing contract candidates = some weighed) :
    session.chooseBase drill scene contract candidates = do
      let (base, contract, session) ← session.satisfying drill scene weighed none none candidates
      return (base, some contract, session) := by
  unfold weighing at weighs
  split at weighs
  · cases weighs
    rfl
  · contradiction

theorem chooseBase_of_not_weighing {contract : Option Contract} {candidates : List Successor}
    (weighs : weighing contract candidates = none) :
    session.chooseBase drill scene contract candidates = do
      let (base, session) ← session.nearest drill scene none candidates
      return (base, ← session.accept contract base, session) := by
  unfold weighing at weighs
  split at weighs
  · contradiction
  · rename_i several
    unfold chooseBase
    split
    · exact absurd rfl (several _ _ _ _ rfl)
    · rfl

/-- A sound edge with sound successors gets the base that is chosen among them. -/
theorem rakeEdge_of_candidates {contract : Option Contract} {edge : Edge}
    (sound : session.cruft.hasEdge edge.id = false) (some_ : session.candidatesOf edge ≠ []) :
    rakeEdge drill scene id (contract, session) edge = do
      let (base, contract, session) ← session.chooseBase drill scene contract (session.candidatesOf edge)
      match base with
      | none => return (contract, session)
      | some base => return (contract, session.modify id (Parallel.setBase edge.id base)) := by
  have unmarked : ¬session.cruft.hasEdge edge.id := by simp [sound]
  have nonempty : ¬(session.candidatesOf edge).isEmpty := by simpa using some_
  exact (if_neg unmarked).trans (if_neg nonempty)

/-- A choice that has come past candidates goes on with the next. -/
theorem Trials.drills_next {contract : Option Contract} {candidate : Successor} {back : List Successor}
    (tried : Trials drill scene session trials next)
    (failed : ∀ trial ∈ trials, trial.Fails (weighing contract (trials.map Trial.candidate ++ candidate :: back)))
    {result : Option ParallelId × Option Contract × Session}
    (done : session.chooseBase drill scene contract (trials.map Trial.candidate ++ candidate :: back) = .ok result) :
    ∃ result, next.drillCandidate drill scene candidate = .ok result := by
  cases weighs : weighing contract (trials.map Trial.candidate ++ candidate :: back) with
  | some weighed =>
    rw [chooseBase_of_weighing weighs] at done
    obtain ⟨_, searched, _⟩ := exists_ok_of_bind done
    obtain ⟨fallback, circular, further⟩ := tried.satisfying (weighs ▸ failed) searched
    rw [Session.satisfying] at further
    obtain ⟨drilled, here, _⟩ := exists_ok_of_bind further
    exact ⟨drilled, here⟩
  | none =>
    rw [chooseBase_of_not_weighing weighs] at done
    obtain ⟨_, searched, _⟩ := exists_ok_of_bind done
    obtain ⟨circular, further⟩ := tried.nearest (weighs ▸ failed) searched
    rw [Session.nearest] at further
    obtain ⟨drilled, here, _⟩ := exists_ok_of_bind further
    exact ⟨drilled, here⟩

end Returns

namespace Task

/-- What holds of the session whenever a task begins. -/
def Ready (scene : Scene) : Task → Prop
  | drill _ path session => Poised scene path.length session ∧ (session.AllSettled ∨ session.Enclosed path)
  | follow _ names start session => ∃ path, Heading scene path names start session
  | descent start _ session => session.Sane scene.graph ∧ session.Deep start
  | rake _ _ id session =>
    ∃ parallel, session.parallel? id = some parallel ∧ Poised scene parallel.path.length session
  | answer _ id session =>
    ∃ parallel, session.parallel? id = some parallel ∧ parallel.raked ∧ id ∉ session.settled ∧
      parallel.baseEntries = [] ∧ Poised scene parallel.path.length session
  | edge _ id contract session asked => ∃ parallel node, Facing scene id contract session asked parallel node

/-- Every task begins those of its work as they need it. -/
theorem Starts.ready (coherent : scene.graph.Coherent) {outer inner : Task} (starts : Starts scene outer inner)
    (ready : outer.Ready scene) : inner.Ready scene := by
  cases starts with
  | resume _ _ cached =>
    obtain ⟨poised, free⟩ := ready
    exact ⟨_, poised.enter.resume free cached⟩
  | surface absent _ uncached sound inserted =>
    exact ready.1.enter.surface (lookup?_of_longestCached?_eq_none absent uncached) sound inserted
  | surfaced absent _ uncached done =>
    obtain ⟨poised, free⟩ := ready
    exact ⟨_, poised.enter.surfaced free coherent (lookup?_of_longestCached?_eq_none absent uncached) uncached done⟩
  | descend =>
    obtain ⟨_, heading⟩ := ready
    exact ⟨heading.sane, heading.deep⟩
  | rakeChild descended =>
    obtain ⟨_, heading⟩ := ready
    exact heading.rakeChild descended
  | follow descended raked =>
    obtain ⟨path, heading⟩ := ready
    exact ⟨path, heading.follow coherent descended raked⟩
  | override found unraked split raked =>
    obtain ⟨_, there, poised⟩ := ready
    cases found.symm.trans there
    exact poised.override coherent found unraked split raked
  | @answer _ _ id _ _ parallel found unraked raked =>
    obtain ⟨_, there, poised⟩ := ready
    cases found.symm.trans there
    obtain ⟨present, unsettled, now⟩ := poised.rakeEach coherent found unraked (List.Subset.refl _) raked
    have pristine : ({ parallel with raked := true } : Parallel).baseEntries = [] :=
      poised.orderly.pristine id parallel found unraked
    exact ⟨_, present, rfl, unsettled, pristine, now⟩
  | @edge _ _ _ _ _ node _ _ _ _ _ found explicit stands demanded split raked =>
    obtain ⟨_, there, begun, unsettled, pristine, poised⟩ := ready
    cases found.symm.trans there
    obtain ⟨now, facing⟩ := poised.edge coherent found begun unsettled pristine explicit stands demanded split raked
    exact ⟨now, node, facing⟩
  | candidate _ split tried _ stands =>
    obtain ⟨_, _, facing⟩ := ready
    obtain ⟨poised, enclosed⟩ := facing.drills coherent split tried stands
    exact ⟨poised, .inr enclosed⟩

/-- The work of the task ends, and not in a fatal error. -/
def Returns (scene : Scene) : Task → Prop
  | drill bound path session => ∃ result, drillWithin scene bound path session = .ok result
  | follow bound names start session =>
    ∃ result, descendAlong (drillWithin scene bound) scene names start session = .ok result
  | descent start name session => ∃ result, session.descend scene start name = .ok result
  | rake bound depth id session =>
    ∃ result, rakeWithin (drillWithin scene bound) scene depth id session = .ok result
  | answer bound id session => ∃ result, rakeExplicit (drillWithin scene bound) scene id session = .ok result
  | edge bound id contract session asked =>
    ∃ result, rakeEdge (drillWithin scene bound) scene id (contract, session) asked = .ok result

/-- A task that ends has brought all that it began to an end. -/
theorem Starts.returns {outer inner : Task} (starts : Starts scene outer inner) (returns : outer.Returns scene) :
    inner.Returns scene := by
  cases starts with
  | resume absent free cached =>
    obtain ⟨_, done⟩ := returns
    obtain ⟨result, drilled⟩ := exists_drillNew absent free done
    simp only [drillNew, cached] at drilled
    exact ⟨result, drilled⟩
  | surface absent free uncached sound inserted =>
    obtain ⟨_, done⟩ := returns
    obtain ⟨_, drilled⟩ := exists_drillNew absent free done
    simp only [drillNew, uncached] at drilled
    obtain ⟨_, surfaced, _⟩ := exists_ok_of_bind drilled
    simp only [Session.surface, sound, inserted, ok_bind] at surfaced
    obtain ⟨last, raked, _⟩ := exists_ok_of_bind surfaced
    exact ⟨last, raked⟩
  | surfaced absent free uncached surfaced =>
    obtain ⟨_, done⟩ := returns
    obtain ⟨result, drilled⟩ := exists_drillNew absent free done
    simp only [drillNew, uncached, surfaced, ok_bind] at drilled
    exact ⟨result, drilled⟩
  | descend =>
    obtain ⟨_, done⟩ := returns
    rw [descendAlong] at done
    obtain ⟨result, descended, _⟩ := exists_ok_of_bind done
    exact ⟨result, descended⟩
  | rakeChild descended =>
    obtain ⟨_, done⟩ := returns
    rw [descendAlong, descended, ok_bind] at done
    obtain ⟨last, raked, _⟩ := exists_ok_of_bind done
    exact ⟨last, raked⟩
  | follow descended raked =>
    obtain ⟨result, done⟩ := returns
    rw [descendAlong, descended, ok_bind] at done
    simp only [raked, ok_bind] at done
    exact ⟨result, done⟩
  | override found unraked split raked =>
    obtain ⟨_, done⟩ := returns
    simp only [rakeWithin, parallelOf, found, ok_bind, unraked, Bool.false_eq_true, ↓reduceIte] at done
    obtain ⟨_, all, _⟩ := exists_ok_of_bind done
    rw [split] at all
    exact exists_step_of_foldlM all raked
  | answer found unraked raked =>
    obtain ⟨_, done⟩ := returns
    simp only [rakeWithin, parallelOf, found, ok_bind, unraked, Bool.false_eq_true, ↓reduceIte] at done
    obtain ⟨mid, all, further⟩ := exists_ok_of_bind done
    cases raked.symm.trans all
    obtain ⟨last, answered, _⟩ := exists_ok_of_bind further
    exact ⟨last, answered⟩
  | edge found explicit stands demanded split raked =>
    obtain ⟨_, done⟩ := returns
    simp only [rakeExplicit, parallelOf, found, ok_bind, explicit, stands, demanded] at done
    obtain ⟨_, all, _⟩ := exists_ok_of_bind done
    rw [split] at all
    exact exists_step_of_foldlM all raked
  | candidate sound split tried failed stands =>
    obtain ⟨_, done⟩ := returns
    rw [rakeEdge_of_candidates sound (by simp [split])] at done
    obtain ⟨_, chosen, _⟩ := exists_ok_of_bind done
    rw [split] at chosen failed
    obtain ⟨result, drilled⟩ := tried.drills_next failed chosen
    simp only [drillCandidate, stands] at drilled
    exact ⟨result, drilled⟩

/-- However deep in the work of a drill a task is begun, it begins as it needs it. -/
theorem Within.ready (coherent : scene.graph.Coherent) {outer inner : Task} (within_ : Within scene outer inner)
    (ready : outer.Ready scene) : inner.Ready scene := by
  induction within_ with
  | refl => exact ready
  | tail _ starts ih => exact starts.ready coherent ih

theorem Within.returns {outer inner : Task} (within_ : Within scene outer inner) (returns : outer.Returns scene) :
    inner.Returns scene := by
  induction within_ with
  | refl => exact returns
  | tail _ starts ih => exact starts.returns ih

end Task

theorem AtRest.ready (rest : session.AtRest scene) (bound : Nat) (path : TypePath) :
    (Task.drill bound path session).Ready scene :=
  ⟨rest.poised _, .inl rest.settled⟩

end OutlineTypes.Session
