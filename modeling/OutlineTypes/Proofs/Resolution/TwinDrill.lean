import OutlineTypes.Proofs.Resolution.TwinRaking
import OutlineTypes.Resolution.Drill

/-! Drilling twin sessions. A drill of a path of a paired document and one of the path with the same names come to
twin parallels and leave twin sessions. -/
namespace OutlineTypes

open OutlineTypes.Graph

variable {pairs : Pairing} {first second : Scene} {roll : List ParallelId}

open Session (LayerEntry)

section Layers

/-- The same child of the same container. -/
structure TwinEntries (roll : List ParallelId) (entry twin : LayerEntry) : Prop where
  container : Numbered roll entry.container twin.container
  child : Numbered roll entry.child twin.child
  created : twin.created = entry.created

/-- The same layer in twin sessions. -/
structure TwinLayers (pairs : Pairing) (first second : Scene) (roll : List ParallelId)
    (state other : Session × List LayerEntry) : Prop where
  sessions : TwinRuns pairs first second roll state.1 other.1
  layer : List.Forall₂ (TwinEntries (pairs.ids state.1)) state.2 other.2

theorem TwinEntries.mono {more : List ParallelId} {entry twin : LayerEntry} (twins : TwinEntries roll entry twin)
    (grown : roll <+: more) : TwinEntries more entry twin :=
  ⟨twins.container.mono grown, twins.child.mono grown, twins.created⟩

theorem childOf?_related (unique : Relator.BiUnique (Numbered roll)) {layer others : List LayerEntry}
    (twins : List.Forall₂ (TwinEntries roll) layer others) {container around : ParallelId}
    (same : Numbered roll container around) :
    Option.Rel (Numbered roll) (Session.childOf? layer container) (Session.childOf? others around) := by
  unfold Session.childOf?
  induction twins with
  | nil => exact .none
  | cons alike _ ih =>
    have met := eq_iff_of_biUnique unique alike.container same
    simp only [List.find?_cons, decide_eq_decide.mpr met]
    split
    · exact .some alike.child
    · exact ih

end Layers

namespace TwinSessions

variable {session twin : Session} {id number : ParallelId}

section Descents

theorem hasChildNode (scenes : TwinScenes pairs first second)
    (twins : TwinSessions pairs first second session twin) (name : Name)
    (same : Numbered (pairs.ids session) id number) :
    twin.hasChildNode second name number = session.hasChildNode first name id := by
  obtain ⟨parallel, other, here, there, alike⟩ := twins.exists_parallels same
  have below : pairs.SamePath (parallel.path.child name) (other.path.child name) :=
    Paired.samePath_of_names alike.path rfl rfl (by simp only [TypePath.child, Paired.names_of_samePath alike.path])
  simp only [Session.hasChildNode, here, there, Option.any_some]
  rcases eq_none_or_exists_of_rel (twins.soundNode? scenes below) with
    ⟨here, there⟩ | ⟨_, _, here, there, _⟩ <;> rw [here, there]
  rfl

/-- Marks that stand for the same parallels in both sessions do so with more parallels marked in both. -/
theorem contains_insertAll (twins : TwinSessions pairs first second session twin) {marks again : Marks}
    (alike : ∀ id number, Numbered (pairs.ids session) id number → again.contains number.index = marks.contains id.index)
    {ids numbers : List ParallelId} (same : List.Forall₂ (Numbered (pairs.ids session)) ids numbers)
    (numbered : Numbered (pairs.ids session) id number) :
    (again.insertAll (numbers.map ParallelId.index)).contains number.index =
      (marks.insertAll (ids.map ParallelId.index)).contains id.index := by
  simp only [Marks.contains_insertAll, ParallelId.mem_map_index, alike id number numbered,
    decide_mem_of_biUnique twins.biUnique same numbered]

theorem markReaching (twins : TwinSessions pairs first second session twin)
    {links others : List (ParallelId × List ParallelId)}
    (same : List.Forall₂ (fun link other => Numbered (pairs.ids session) link.1 other.1 ∧
      List.Forall₂ (Numbered (pairs.ids session)) link.2 other.2) links others) (bound : Nat) {marks again : Marks}
    (alike : ∀ id number, Numbered (pairs.ids session) id number → again.contains number.index = marks.contains id.index)
    (id number : ParallelId) (numbered : Numbered (pairs.ids session) id number) :
    (Session.markReaching others bound again).contains number.index =
      (Session.markReaching links bound marks).contains id.index := by
  induction bound generalizing marks again with
  | zero => exact alike id number numbered
  | succ bound ih =>
    have grown := List.rel_filter (p := fun link : ParallelId × List ParallelId =>
        !marks.contains link.1.index && link.2.any fun branch => marks.contains branch.index)
      (q := fun link => !again.contains link.1.index && link.2.any fun branch => again.contains branch.index)
      (fun link other linked => by simp only [alike _ _ linked.1, any_of_forall₂ alike linked.2]) same
    simp only [Session.markReaching]
    generalize List.filter _ links = more at grown ⊢
    generalize List.filter _ others = moreToo at grown ⊢
    cases grown with
    | nil => exact alike id number numbered
    | @cons link other more moreToo linked rest =>
      have found : List.Forall₂ (Numbered (pairs.ids session)) ((link :: more).map Prod.fst)
          ((other :: moreToo).map Prod.fst) := by
        rw [List.forall₂_map_left_iff, List.forall₂_map_right_iff]
        exact .cons linked.1 (rest.imp fun _ _ linked => linked.1)
      refine ih fun id number numbered => ?_
      have marked := twins.contains_insertAll alike found numbered
      rwa [List.map_map, List.map_map] at marked

theorem reaching (scenes : TwinScenes pairs first second)
    (twins : TwinSessions pairs first second session twin) (name : Name) {lineage others : List ParallelId}
    (same : List.Forall₂ (Numbered (pairs.ids session)) lineage others) :
    List.Forall₂ (Numbered (pairs.ids session)) (session.reaching first name lineage)
      (twin.reaching second name others) := by
  have links : List.Forall₂ (fun link other => Numbered (pairs.ids session) link.1 other.1 ∧
      List.Forall₂ (Numbered (pairs.ids session)) link.2 other.2)
      (lineage.map fun id => (id, session.branchesOf id)) (others.map fun id => (id, twin.branchesOf id)) := by
    rw [List.forall₂_map_left_iff, List.forall₂_map_right_iff]
    exact same.imp fun id number same => ⟨same, twins.branchesOf id number same⟩
  have start : List.Forall₂ (Numbered (pairs.ids session)) (lineage.filter (session.hasChildNode first name))
      (others.filter (twin.hasChildNode second name)) :=
    List.rel_filter (fun _ _ same => by simp only [twins.hasChildNode scenes name same]) same
  have blank (id number : ParallelId) (_ : Numbered (pairs.ids session) id number) :
      (∅ : Marks).contains number.index = (∅ : Marks).contains id.index := by
    rw [Marks.contains_empty, Marks.contains_empty]
  have marked := twins.markReaching links lineage.length fun _ _ numbered =>
    twins.contains_insertAll blank start numbered
  simp only [Session.reaching, List.length_map, ← same.length_eq]
  exact List.rel_filter (fun id number numbered => by simp only [marked id number numbered]) same

theorem enterLayer (scenes : TwinScenes pairs first second) (name : Name) {state other : Session × List LayerEntry}
    (twins : TwinLayers pairs first second roll state other) {container around : ParallelId}
    (same : Numbered (pairs.ids state.1) container around) :
    Lockstep (TwinLayers pairs first second roll) (Session.enterLayer first name state container)
      (Session.enterLayer second name other around) := by
  obtain ⟨session, layer⟩ := state
  obtain ⟨twin, others⟩ := other
  obtain ⟨sessions, layers⟩ := twins
  have twins := sessions.toTwinSessions
  refine (twins.parallelOf same).bind fun parallel opposite alike => ?_
  have below : pairs.SamePath (parallel.path.child name) (opposite.path.child name) :=
    Paired.samePath_of_names alike.path rfl rfl (by simp only [TypePath.child, Paired.names_of_samePath alike.path])
  rcases eq_none_or_exists_of_rel (twins.lookup? scenes below) with
    ⟨here, there⟩ | ⟨child, twinChild, here, there, met⟩ <;> simp only [here, there]
  · refine (twins.insert scenes below (.some same) (twins.soundNode? scenes below)).bind ?_
    rintro ⟨child, next⟩ ⟨twinChild, last⟩ ⟨created, runs⟩
    refine .ok ⟨runs.since sessions.grown, List.rel_append (layers.imp fun _ _ alike => alike.mono runs.grown) ?_⟩
    exact .cons ⟨same.mono runs.grown, created, rfl⟩ .nil
  · exact .ok ⟨sessions, List.rel_append layers (.cons ⟨same, met, rfl⟩ .nil)⟩

theorem wire (twins : TwinSessions pairs first second session twin) {layer others : List LayerEntry}
    (layers : List.Forall₂ (TwinEntries (pairs.ids session)) layer others) {entry opposite : LayerEntry}
    (same : TwinEntries (pairs.ids session) entry opposite) :
    TwinRuns pairs first second (pairs.ids session) (Session.wire layer session entry)
      (Session.wire others twin opposite) := by
  have unique := twins.biUnique
  have overridden : List.Forall₂ (Numbered (pairs.ids session))
      (((session.branchesOf entry.container).filterMap (Session.childOf? layer)).filter (· ≠ entry.child))
      (((twin.branchesOf opposite.container).filterMap (Session.childOf? others)).filter (· ≠ opposite.child)) := by
    refine List.rel_filter (fun _ _ alike => ?_)
      (List.rel_filterMap (fun _ _ alike => childOf?_related unique layers alike) (twins.branchesOf _ _ same.container))
    simp only [decide_not, Bool.not_eq_true', decide_eq_false_iff_not, eq_iff_of_biUnique unique alike same.child]
  simp only [Session.wire, same.created]
  split
  · refine twins.modify same.child (fun _ => rfl) (fun _ => rfl) fun _ _ alike => ?_
    exact { alike with edges := OrderedSet.rel_insertAll unique alike.edges overridden }
  · exact twins.run

theorem wireAll (twins : TwinRuns pairs first second roll session twin) {layer others : List LayerEntry}
    (layers : List.Forall₂ (TwinEntries roll) layer others) {entries opposites : List LayerEntry}
    (same : List.Forall₂ (TwinEntries roll) entries opposites) :
    TwinRuns pairs first second roll (entries.foldl (Session.wire layer) session)
      (opposites.foldl (Session.wire others) twin) := by
  induction same generalizing session twin with
  | nil => exact twins
  | cons alike _ ih =>
    have grown := twins.grown
    have wired := twins.toTwinSessions.wire (layers.imp fun _ _ alike => alike.mono grown) (alike.mono grown)
    exact ih (wired.since grown)

theorem descend (scenes : TwinScenes pairs first second) (twins : TwinSessions pairs first second session twin)
    (same : Numbered (pairs.ids session) id number) (name : Name) :
    Lockstep (TwinResults pairs first second (fun roll => Option.Rel (Numbered roll)) (pairs.ids session))
      (session.descend first id name) (twin.descend second number name) := by
  have unique := twins.biUnique
  refine (twins.lineageOf same).bind fun lineage others lines => ?_
  have containers := twins.reaching scenes name lines
  simp only
  generalize session.reaching first name lineage = some at containers ⊢
  generalize twin.reaching second name others = rest at containers ⊢
  simp only [List.rel_mem unique same containers]
  split
  · exact .ok ⟨.none, twins.run⟩
  · have started : TwinLayers pairs first second (pairs.ids session) (session, []) (twin, []) := ⟨twins.run, .nil⟩
    refine (Lockstep.foldlM containers started fun state other container around layers alike =>
      enterLayer scenes name layers (alike.mono layers.sessions.grown)).bind ?_
    rintro ⟨next, layer⟩ ⟨last, opposites⟩ ⟨sessions, layers⟩
    have wired := wireAll sessions.toTwinSessions.run layers layers
    refine .ok ⟨?_, wired.since sessions.grown⟩
    have child := childOf?_related sessions.biUnique layers (same.mono sessions.grown)
    exact rel_option_mono (fun _ _ alike => alike.mono wired.grown) child

end Descents

section Drills

variable {drill again : Driller} {path other : TypePath}

theorem longestCached? (scenes : TwinScenes pairs first second) (twins : TwinSessions pairs first second session twin)
    (same : pairs.SamePath path other) :
    Option.Rel (fun found again => again.1 = found.1 ∧ Numbered (pairs.ids session) found.2 again.2)
      (session.longestCached? path) (twin.longestCached? other) := by
  unfold Session.longestCached?
  rw [Paired.length_of_samePath same]
  generalize ((List.range path.length).drop 1).reverse = lengths
  induction lengths with
  | nil => exact .none
  | cons length rest ih =>
    have front : pairs.SamePath (path.upTo length) (other.upTo length) :=
      Paired.samePath_of_names same rfl rfl (by simp only [TypePath.upTo, Paired.names_of_samePath same])
    rcases eq_none_or_exists_of_rel (twins.lookup? scenes front) with ⟨here, there⟩ | ⟨_, _, here, there, alike⟩
    · simpa only [List.findSome?_cons, here, there, Option.map_none] using ih
    · simp only [List.findSome?_cons, here, there, Option.map_some]
      exact .some ⟨rfl, alike⟩

theorem surface (scenes : TwinScenes pairs first second) (drills : TwinDrillers pairs first second drill again)
    (twins : TwinSessions pairs first second session twin) (same : pairs.SamePath path other) :
    Lockstep (TwinResults pairs first second (fun roll => Option.Rel (Numbered roll)) (pairs.ids session))
      (Session.surface drill first path session) (Session.surface again second other twin) := by
  have root : pairs.SamePath (path.upTo 1) (other.upTo 1) :=
    Paired.samePath_of_names same rfl rfl (by simp only [TypePath.upTo, Paired.names_of_samePath same])
  unfold Session.surface
  rcases eq_none_or_exists_of_rel (twins.soundNode? scenes root) with
    ⟨here, there⟩ | ⟨node, opposite, here, there, nodes⟩ <;> simp only [here, there]
  · exact .ok ⟨.none, twins.run⟩
  · refine (twins.insert scenes root .none (.some nodes)).bindResults fun id number next last twins grown same => ?_
    refine (twins.rake scenes drills same).bind fun next last raked => ?_
    exact .ok ⟨.some (same.mono raked.grown), raked⟩

theorem descendAlong (scenes : TwinScenes pairs first second)
    (drills : TwinDrillers pairs first second drill again)
    (twins : TwinSessions pairs first second session twin) (names : List Name)
    (same : Numbered (pairs.ids session) id number) :
    Lockstep (TwinResults pairs first second TwinOutcomes (pairs.ids session))
      (Session.descendAlong drill first names id session) (Session.descendAlong again second names number twin) := by
  induction names generalizing id number session twin with
  | nil => exact .ok ⟨.resolved same, twins.run⟩
  | cons name names ih =>
    refine (twins.descend scenes same name).bindResults fun child below next last twins grown alike => ?_
    cases alike with
    | none => exact .ok ⟨.unpopulated, twins.run⟩
    | some alike =>
      refine (twins.rake scenes drills alike).bind fun next last raked => ?_
      exact (ih raked.toTwinSessions (alike.mono raked.grown)).mono fun _ _ h => h.since raked.grown

theorem drillNew (scenes : TwinScenes pairs first second)
    (drills : TwinDrillers pairs first second drill again) :
    TwinDrillers pairs first second (Session.drillNew drill first) (Session.drillNew again second) := by
  intro path other session twin same twins
  have names := Paired.names_of_samePath same
  unfold Session.drillNew
  rcases eq_none_or_exists_of_rel (twins.longestCached? scenes same) with
    ⟨here, there⟩ | ⟨found, opposite, here, there, length, alike⟩
  · simp only [here, there, names]
    refine (twins.surface scenes drills same).bindResults fun id number next last twins grown alike => ?_
    cases alike with
    | none => exact .ok ⟨.unpopulated, twins.run⟩
    | some alike => exact twins.descendAlong scenes drills _ alike
  · simp only [here, there, names, length]
    exact twins.descendAlong scenes drills _ alike

/-- A drill of a path that is not known yet, if its inner drills are in lockstep. -/
theorem drillWithin_of_inner (scenes : TwinScenes pairs first second) (bound limit : Nat)
    (inner : ∀ less fewer, bound = less + 1 → limit = fewer + 1 →
      TwinDrillers pairs first second (Session.drillWithin first less) (Session.drillWithin second fewer)) :
    TwinDrillers pairs first second (Session.drillWithin first bound) (Session.drillWithin second limit) := by
  intro path other session twin same twins
  unfold Session.drillWithin
  rcases eq_none_or_exists_of_rel (twins.lookup? scenes same) with ⟨here, there⟩ | ⟨id, number, here, there, alike⟩
  · have flying : other ∈ twin.inFlight ↔ path ∈ session.inFlight :=
      (List.rel_mem scenes.paired.biUnique_samePath same twins.inFlight).symm
    simp only [here, there, flying]
    split
    · exact .ok ⟨.circular, twins.run⟩
    · cases bound with
      | zero => exact .error_left _
      | succ less =>
        cases limit with
        | zero => exact .error_right _
        | succ fewer =>
          have begun : TwinSessions pairs first second { session with inFlight := path :: session.inFlight }
              { twin with inFlight := other :: twin.inFlight } :=
            { twins with inFlight := .cons same twins.inFlight }
          refine (drillNew scenes (inner less fewer rfl rfl) path other _ _ same begun).bind ?_
          rintro ⟨outcome, next⟩ ⟨opposite, last⟩ ⟨alike, sessions⟩
          exact .ok ⟨alike, { sessions with inFlight := List.forall₂_drop 1 sessions.inFlight }⟩
  · have under : number ∈ twin.raking ↔ id ∈ session.raking := (List.rel_mem twins.biUnique alike twins.raking).symm
    simp only [here, there, under]
    split
    · exact .ok ⟨.circular, twins.run⟩
    · exact .ok ⟨.resolved alike, twins.run⟩

/-- The bounds may differ, as a drill that meets its bound does not end. -/
theorem drillWithin (scenes : TwinScenes pairs first second) (bound limit : Nat) :
    TwinDrillers pairs first second (Session.drillWithin first bound) (Session.drillWithin second limit) := by
  induction bound generalizing limit with
  | zero => exact drillWithin_of_inner scenes 0 limit fun less fewer none _ => by contradiction
  | succ bound ih =>
    refine drillWithin_of_inner scenes (bound + 1) limit fun less fewer more _ => ?_
    obtain rfl := Nat.succ.inj more
    exact ih fewer

end Drills

end TwinSessions

end OutlineTypes
