import OutlineTypes.Proofs.Resolution.Drill

/-! A driller in place of another. What resolution comes to with one driller it comes to with any that ends
in the same results, so watching the drills under way and a wider bound change nothing. -/
namespace OutlineTypes.Session

variable {drill other : Driller} {scene : Scene} {session : Session}

/-- Whatever the driller ends in, the other one ends in too. -/
def DrillsAs (drill other : Driller) : Prop :=
  ∀ path session, Refines (drill path session) (other path session)

theorem refines_drillCandidate (as : DrillsAs drill other) (candidate : Successor) :
    Refines (session.drillCandidate drill scene candidate)
      (session.drillCandidate other scene candidate) := by
  unfold drillCandidate
  split
  · exact .refl _
  · exact as _ _

theorem refines_nearest (as : DrillsAs drill other) (circular : Option ParallelId)
    (candidates : List Successor) :
    Refines (nearest drill scene circular session candidates)
      (nearest other scene circular session candidates) := by
  induction candidates generalizing circular session with
  | nil => exact .refl _
  | cons candidate rest ih =>
    rw [nearest, nearest]
    refine (refines_drillCandidate as candidate).bind fun result => ?_
    obtain ⟨outcome, next⟩ := result
    cases outcome with
    | resolved base => exact .refl _
    | circular => exact ih _
    | unpopulated => exact ih _

theorem refines_satisfying (as : DrillsAs drill other) (contract : Contract)
    (fallback circular : Option ParallelId) (candidates : List Successor) :
    Refines (satisfying drill scene contract fallback circular session candidates)
      (satisfying other scene contract fallback circular session candidates) := by
  induction candidates generalizing fallback circular session with
  | nil => exact .refl _
  | cons candidate rest ih =>
    rw [satisfying, satisfying]
    refine (refines_drillCandidate as candidate).bind fun result => ?_
    obtain ⟨outcome, next⟩ := result
    cases outcome with
    | resolved base =>
      simp only
      split
      · refine (Refines.refl _).bind fun lineage => ?_
        split
        · exact .refl _
        · exact ih _ _
      · exact .refl _
    | circular => exact ih _ _
    | unpopulated => exact ih _ _

theorem refines_chooseBase (as : DrillsAs drill other) (contract : Option Contract)
    (candidates : List Successor) :
    Refines (session.chooseBase drill scene contract candidates)
      (session.chooseBase other scene contract candidates) := by
  unfold chooseBase
  split
  · exact (refines_satisfying as _ _ _ _).bind fun _ => .refl _
  · exact (refines_nearest as _ _).bind fun _ => .refl _

theorem refines_rakeEdge (as : DrillsAs drill other) (id : ParallelId)
    (state : Option Contract × Session) (edge : Edge) :
    Refines (rakeEdge drill scene id state edge) (rakeEdge other scene id state edge) := by
  unfold rakeEdge
  simp only
  split
  · exact .refl _
  · split
    · exact .refl _
    · exact (refines_chooseBase as _ _).bind fun _ => .refl _

theorem refines_rakeExplicit (as : DrillsAs drill other) (id : ParallelId) :
    Refines (rakeExplicit drill scene id session) (rakeExplicit other scene id session) := by
  unfold rakeExplicit
  refine (Refines.refl _).bind fun parallel => ?_
  split
  · exact .refl _
  · split
    · exact .refl _
    · refine (Refines.refl _).bind fun contract => ?_
      refine (Refines.foldlM _ fun state edge _ => refines_rakeEdge as id state edge).bind fun _ => .refl _

theorem refines_rakeWithin (as : DrillsAs drill other) (bound : Nat) (id : ParallelId) :
    Refines (rakeWithin drill scene bound id session) (rakeWithin other scene bound id session) := by
  induction bound generalizing id session with
  | zero => exact .refl _
  | succ bound ih =>
    rw [rakeWithin, rakeWithin]
    refine (Refines.refl _).bind fun parallel => ?_
    split
    · exact .refl _
    · refine (Refines.foldlM _ fun _ edge _ => ih edge).bind fun _ => ?_
      exact (refines_rakeExplicit as id).bind fun _ => .refl _

theorem refines_descendAlong (as : DrillsAs drill other) (names : List Name) (id : ParallelId) :
    Refines (descendAlong drill scene names id session) (descendAlong other scene names id session) := by
  induction names generalizing id session with
  | nil => exact .refl _
  | cons name rest ih =>
    rw [descendAlong, descendAlong]
    refine (Refines.refl _).bind fun result => ?_
    obtain ⟨child, next⟩ := result
    cases child with
    | none => exact .refl _
    | some child => exact (refines_rakeWithin as _ child).bind fun _ => ih child

theorem refines_surface (as : DrillsAs drill other) (path : TypePath) :
    Refines (session.surface drill scene path) (session.surface other scene path) := by
  unfold surface
  simp only
  split
  · exact .refl _
  · refine (Refines.refl _).bind fun result => ?_
    exact (refines_rakeWithin as _ _).bind fun _ => .refl _

theorem refines_drillNew (as : DrillsAs drill other) :
    DrillsAs (drillNew drill scene) (drillNew other scene) := by
  intro path session
  unfold drillNew
  split
  · exact refines_descendAlong as _ _
  · refine (refines_surface as path).bind fun result => ?_
    obtain ⟨id, next⟩ := result
    cases id with
    | none => exact .refl _
    | some id => exact refines_descendAlong as _ id

/-- A watched drill that ends is a drill, within any bound that is not smaller. -/
theorem refines_drillWatched {watch : List TypePath → Bool} {bound wider : Nat} (le : bound ≤ wider) :
    DrillsAs (drillWatched scene watch bound) (drillWithin scene wider) := by
  intro path session
  unfold drillWatched drillWithin
  cases cached : session.lookup? path with
  | some id => exact .refl _
  | none =>
    by_cases flying : path ∈ session.inFlight
    · simp only [flying, ↓reduceIte]
      exact .refl _
    · simp only [flying, ↓reduceIte]
      cases bound with
      | zero => split <;> exact fun _ ended => by contradiction
      | succ bound =>
        obtain ⟨wider, rfl⟩ : ∃ less, wider = less + 1 := ⟨wider - 1, by omega⟩
        split
        · exact (refines_drillNew (refines_drillWatched (by omega)) path _).bind fun _ => .refl _
        · exact fun _ ended => by contradiction

end OutlineTypes.Session
