import OutlineTypes.Proofs.Resolution.Advance

/-! Answers. Whatever an annotation may mean lies in a container around the parallel that is raked, and all
below that container is settled. So every candidate has a parallel once it is drilled, and of candidates
that are sound one is always chosen, whose lineage the contract takes into account. -/
namespace OutlineTypes.Session

variable {drill : Driller} {scene : Scene} {origin session next : Session} {id : ParallelId} {limit : Nat}
  {flight : List TypePath} {path : TypePath} {candidate : Successor} {candidates : List Successor}
  {contract : Contract}

/-- The drills under way that have no parallel yet go to longer paths than this. -/
def Above (session : Session) (limit : Nat) : Prop :=
  ∀ path ∈ session.inFlight, session.lookup? path = none → limit < path.length

/-- The rakings under way have begun and not ended. -/
def Busy (session : Session) : Prop := ∀ id ∈ session.raking, id ∉ session.settled ∧
  ∃ parallel, session.parallel? id = some parallel ∧ parallel.raked

theorem Busy.extends (busy : session.Busy) (grows : Extends session next) : next.Busy := by
  intro id member
  obtain ⟨unsettled, parallel, found, raked⟩ := busy id (grows.raking ▸ member)
  obtain ⟨now, present, _, _, still⟩ := grows.keeps id parallel found
  exact ⟨grows.not_mem_settled found raked unsettled, now, present, still raked⟩

/-- Raking can go on from here, up to paths of this length. -/
structure Workable (scene : Scene) (flight : List TypePath) (limit : Nat) (session : Session) : Prop where
  sane : session.Sane scene.graph
  orderly : session.Orderly scene
  under : session.inFlight = flight
  above : session.Above limit
  busy : session.Busy

/-- The raking of a parallel is under way with the others. -/
theorem Workable.begin_ (workable : Workable scene flight limit session) (found : session.parallel? id = some parallel)
    (raked : parallel.raked) (unsettled : id ∉ session.settled) :
    Workable scene flight limit { session with raking := id :: session.raking } where
  sane := workable.sane.congr rfl rfl
  orderly := workable.orderly.congr rfl rfl rfl
  under := workable.under
  above := workable.above
  busy other listed := by
    rcases List.mem_cons.mp listed with rfl | before
    · exact ⟨unsettled, parallel, found, raked⟩
    · exact workable.busy other before

theorem Workable.advance {free : Option ParallelId} (workable : Workable scene flight limit session)
    (advances : Advances scene free session next) : Workable scene flight limit next where
  sane := advances.sane
  orderly := advances.orderly
  under := advances.grows.inFlight.trans workable.under
  busy := workable.busy.extends advances.grows
  above other member absent := by
    rw [advances.grows.inFlight] at member
    refine workable.above other member ?_
    cases cached : session.lookup? other with
    | none => rfl
    | some again =>
      rw [advances.lookup? workable.sane cached] at absent
      contradiction

/-- The node stands in a scope around the path, and is sound. -/
structure Nearby (session : Session) (path : TypePath) (node : Node) : Prop where
  document : node.path.document = path.document
  length : node.path.length ≤ path.length
  sound : session.cruft.hasNode node.id = false

/-- The candidate is a sound node in a scope around the path, and its container is enclosed. -/
def Attainable (scene : Scene) (session : Session) (path : TypePath) (candidate : Successor) : Prop :=
  ∃ node ∈ scene.graph.nodes, node.id = candidate.node ∧ session.Nearby path node ∧ session.Enclosed node.path

/-- The base is the parallel of one of the candidates. -/
def Fits (scene : Scene) (session : Session) (path : TypePath) (candidates : List Successor)
    (base : ParallelId) : Prop :=
  ∃ candidate ∈ candidates, ∃ node ∈ scene.graph.nodes, node.id = candidate.node ∧
    session.Nearby path node ∧ session.lookup? node.path = some base

/-- The driller finds the parallel of every sound node whose container is enclosed, up to a length. -/
def Obliges (scene : Scene) (flight : List TypePath) (limit : Nat) (drill : Driller) : Prop :=
  ∀ node ∈ scene.graph.nodes, node.path.length ≤ limit → ∀ session, Workable scene flight limit session →
    session.cruft.hasNode node.id = false → session.Enclosed node.path →
      Ensures (drill node.path session) fun result => Advances scene none session result.2 ∧
        ∃ id, result.2.lookup? node.path = some id ∧
          (result.1 = .resolved id ∨ result.1 = .circular ∧ id ∈ session.raking)

section Candidates

theorem Nearby.advance {free : Option ParallelId} {node : Node} (nearby : session.Nearby path node)
    (advances : Advances scene free session next) : next.Nearby path node :=
  ⟨nearby.document, nearby.length, (advances.nodes node.id).trans nearby.sound⟩

theorem Attainable.advance (attainable : Attainable scene session path candidate)
    (sane : session.Sane scene.graph) (advances : Advances scene none session next) :
    Attainable scene next path candidate := by
  obtain ⟨node, member, same, nearby, enclosed⟩ := attainable
  exact ⟨node, member, same, nearby.advance advances, advances.enclosed sane enclosed⟩

theorem Fits.advance {base : ParallelId} (fits : Fits scene session path candidates base)
    (sane : session.Sane scene.graph) (advances : Advances scene none session next) :
    Fits scene next path candidates base := by
  obtain ⟨candidate, listed, node, member, same, nearby, cached⟩ := fits
  exact ⟨candidate, listed, node, member, same, nearby.advance advances, advances.lookup? sane cached⟩

/-- A base that was found, if any, fits. -/
def Fitting (scene : Scene) (session : Session) (path : TypePath) (candidates : List Successor)
    (base : Option ParallelId) : Prop := ∀ id, base = some id → Fits scene session path candidates id

theorem Fitting.advance {base : Option ParallelId} (fitting : Fitting scene session path candidates base)
    (sane : session.Sane scene.graph) (advances : Advances scene none session next) :
    Fitting scene next path candidates base :=
  fun id found => (fitting id found).advance sane advances

/-- A base that was passed over, if any, fits and has nothing in its lineage that the contract misses. -/
def Passing (scene : Scene) (origin session : Session) (path : TypePath) (candidates : List Successor)
    (contract : Contract) (base : Option ParallelId) : Prop :=
  ∀ id, base = some id → Fits scene session path candidates id ∧
    (origin.Deep id → ∀ condition ∈ contract.unsatisfied, ¬session.Below id condition)

theorem Passing.advance {base : Option ParallelId}
    (passing : Passing scene origin session path candidates contract base)
    (deep : ∀ other, origin.Deep other → session.Deep other) (advances : Advances scene none session next) :
    Passing scene origin next path candidates contract base := by
  intro id found
  obtain ⟨fits, unmet⟩ := passing id found
  refine ⟨fits.advance advances.before advances, fun finished condition member below => ?_⟩
  have steady := advances.steady advances.before
  exact unmet finished condition member ((steady.below_iff (deep id finished)).mp below)

theorem forall_orElse {P : ParallelId → Prop} {first second : Option ParallelId}
    (h : ∀ id, first = some id → P id) (k : ∀ id, second = some id → P id) :
    ∀ id, (first <|> second) = some id → P id := by
  cases first with
  | none => exact k
  | some id => exact h

variable (coherent : scene.graph.Coherent) (obliges : Obliges scene flight limit drill)
  (short : path.length ≤ limit)

include coherent obliges short in
theorem drillCandidate_ensures (workable : Workable scene flight limit session)
    (attainable : Attainable scene session path candidate) (listed : candidate ∈ candidates) :
    Ensures (session.drillCandidate drill scene candidate) fun result =>
      Advances scene none session result.2 ∧ ∃ id, Fits scene result.2 path candidates id ∧
        result.2.cached? scene candidate = some id ∧
        (result.1 = .resolved id ∨ result.1 = .circular ∧ id ∈ session.raking) := by
  obtain ⟨node, member, same, nearby, enclosed⟩ := attainable
  simp only [drillCandidate, cached?, ← same, coherent.node?_id member, Option.bind_some]
  refine (obliges node member (nearby.length.trans short) session workable nearby.sound enclosed).mono ?_
  intro result h
  obtain ⟨advances, id, cached, outcome⟩ := h
  exact ⟨advances, id, ⟨candidate, listed, node, member, same, nearby.advance advances, cached⟩, cached, outcome⟩

include coherent obliges short in
theorem nearest_ensures {all : List Successor} (workable : Workable scene flight limit session)
    (attainable : ∀ candidate ∈ candidates, Attainable scene session path candidate)
    (among : candidates ⊆ all) {circular : Option ParallelId} (fitting : Fitting scene session path all circular)
    (some_ : candidates = [] → circular.isSome) :
    Ensures (nearest drill scene circular session candidates) fun result =>
      Advances scene none session result.2 ∧ ∃ base, result.1 = some base ∧ Fits scene result.2 path all base := by
  induction candidates generalizing session circular with
  | nil =>
    obtain ⟨base, found⟩ := Option.isSome_iff_exists.mp (some_ rfl)
    exact .ok ⟨.refl workable.sane workable.orderly, base, found, fitting base found⟩
  | cons candidate rest ih =>
    rw [nearest]
    refine (drillCandidate_ensures coherent obliges short workable (attainable candidate List.mem_cons_self)
      (among List.mem_cons_self)).bind fun result h => ?_
    obtain ⟨outcome, next⟩ := result
    obtain ⟨advances, id, fits, cached, came⟩ := h
    rcases came with resolved | ⟨met, _⟩
    · cases resolved
      exact .pure ⟨advances, id, rfl, fits⟩
    · cases met
      have again : Fitting scene next path all (circular <|> next.cached? scene candidate) := by
        refine forall_orElse (fitting.advance workable.sane advances) fun other found => ?_
        cases cached.symm.trans found
        exact fits
      refine (ih (workable.advance advances) (fun other member => ?_) ?_ again fun _ => ?_).mono ?_
      · exact (attainable other (List.mem_cons_of_mem _ member)).advance workable.sane advances
      · exact fun other member => among (List.mem_cons_of_mem _ member)
      · rw [cached]
        cases circular <;> rfl
      · exact fun result h => ⟨advances.trans h.1, h.2⟩

theorem Fits.lineageOf_ensures {base : ParallelId} (fits : Fits scene session path candidates base)
    (sane : session.Sane scene.graph) :
    Ensures (session.lineageOf base) fun lineage => ∀ other, other ∈ lineage ↔ session.Below base other := by
  obtain ⟨_, _, node, _, _, _, cached⟩ := fits
  have held := sane.holds_of_lookup? cached
  rw [sane.lineageOf_eq held]
  exact .ok fun other => sane.mem_lineage_iff held

include coherent obliges short in
theorem satisfying_ensures {all : List Successor} (workable : Workable scene flight limit session)
    (attainable : ∀ candidate ∈ candidates, Attainable scene session path candidate)
    (among : candidates ⊆ all) (deep : ∀ other, origin.Deep other → session.Deep other)
    {fallback circular : Option ParallelId}
    (fallbackPasses : Passing scene origin session path all contract fallback)
    (circularPasses : Passing scene origin session path all contract circular)
    (some_ : candidates = [] → (fallback <|> circular).isSome) :
    Ensures (satisfying drill scene contract fallback circular session candidates) fun result =>
      Advances scene none session result.2.2 ∧ ∃ base, result.1 = some base ∧
        Fits scene result.2.2 path all base ∧ Weighed origin result.2.2 base contract result.2.1 := by
  induction candidates generalizing session fallback circular with
  | nil =>
    obtain ⟨base, found⟩ := Option.isSome_iff_exists.mp (some_ rfl)
    obtain ⟨fits, unmet⟩ := forall_orElse fallbackPasses circularPasses base found
    exact .ok ⟨.refl workable.sane workable.orderly, base, found, fits, weighed_refl unmet⟩
  | cons candidate rest ih =>
    rw [satisfying]
    refine (drillCandidate_ensures coherent obliges short workable (attainable candidate List.mem_cons_self)
      (among List.mem_cons_self)).bind fun result h => ?_
    obtain ⟨outcome, next⟩ := result
    obtain ⟨advances, id, fits, cached, came⟩ := h
    have others : ∀ other ∈ rest, Attainable scene next path other := fun other member =>
      (attainable other (List.mem_cons_of_mem _ member)).advance workable.sane advances
    have inside : rest ⊆ all := fun other member => among (List.mem_cons_of_mem _ member)
    have nextWorkable := workable.advance advances
    have nextDeep (other : ParallelId) (finished : origin.Deep other) : next.Deep other :=
      (advances.steady advances.before).deep (deep other finished)
    have nextFallback := fallbackPasses.advance deep advances
    have nextCircular := circularPasses.advance deep advances
    rcases came with resolved | ⟨met, raking⟩
    · cases resolved
      simp only
      split
      · refine (fits.lineageOf_ensures advances.sane).bind fun lineage listed => ?_
        split
        · exact .pure ⟨advances, id, rfl, fits, weighed_satisfy listed⟩
        · rename_i nothing
          have again : Passing scene origin next path all contract (fallback <|> some id) := by
            refine forall_orElse nextFallback fun other found => ?_
            cases found
            exact ⟨fits, fun _ => not_below_of_gain listed nothing⟩
          refine (ih nextWorkable others inside nextDeep again nextCircular fun _ => ?_).mono ?_
          · cases fallback <;> rfl
          · exact fun result h => ⟨advances.trans h.1, h.2⟩
      · rename_i satisfied
        have nothing : contract.unsatisfied.isEmpty := by
          simpa [Contract.hasUnsatisfied] using satisfied
        exact .pure ⟨advances, id, rfl, fits,
          weighed_refl fun _ condition member => absurd member (OrderedSet.isEmpty_iff.mp nothing condition)⟩
    · cases met
      have again : Passing scene origin next path all contract (circular <|> next.cached? scene candidate) := by
        refine forall_orElse nextCircular fun other found => ?_
        cases cached.symm.trans found
        -- A parallel that is being raked is not raked to the end.
        refine ⟨fits, fun finished => absurd (nextDeep id finished).settled ?_⟩
        exact (nextWorkable.busy id (advances.grows.raking ▸ raking)).1
      refine (ih nextWorkable others inside nextDeep nextFallback again fun _ => ?_).mono ?_
      · rw [cached]
        cases fallback <;> cases circular <;> rfl
      · exact fun result h => ⟨advances.trans h.1, h.2⟩

/-- The lineage of a base that was chosen without regard to the contract counts all the same. -/
theorem Fits.accept_ensures {base : ParallelId} (fits : Fits scene session path candidates base)
    (sane : session.Sane scene.graph) (contract : Option Contract)
    (known : ∀ before, contract = some before → ∀ condition ∈ before.unsatisfied, condition ∈ before.conditions) :
    Ensures (session.accept contract (some base)) (Option.Rel (Weighed origin session base) contract) := by
  cases contract with
  | none => exact .ok .none
  | some contract =>
    unfold accept
    simp only
    split
    · rename_i free
      refine .ok (.some (weighed_refl fun _ condition member => ?_))
      exact absurd (known contract rfl condition member) (OrderedSet.isEmpty_iff.mp free condition)
    · exact (fits.lineageOf_ensures sane).bind fun lineage listed => .pure (.some (weighed_satisfy listed))

include coherent obliges short in
/-- Of candidates that are attainable, one is always chosen. -/
theorem chooseBase_ensures (workable : Workable scene flight limit session)
    (attainable : ∀ candidate ∈ candidates, Attainable scene session path candidate)
    (some_ : candidates ≠ []) (deep : ∀ other, origin.Deep other → session.Deep other) (contract : Option Contract)
    (known : ∀ before, contract = some before → ∀ condition ∈ before.unsatisfied, condition ∈ before.conditions) :
    Ensures (session.chooseBase drill scene contract candidates) fun result =>
      Advances scene none session result.2.2 ∧ ∃ base, result.1 = some base ∧
        Fits scene result.2.2 path candidates base ∧
        Option.Rel (Weighed origin result.2.2 base) contract result.2.1 := by
  unfold chooseBase
  split
  · refine (satisfying_ensures coherent obliges short workable attainable (List.Subset.refl _) deep
      (fun _ found => by contradiction) (fun _ found => by contradiction) (by simp)).bind fun result h => ?_
    obtain ⟨advances, base, found, fits, weighed⟩ := h
    exact .pure ⟨advances, base, found, fits, .some weighed⟩
  · refine (nearest_ensures coherent obliges short workable attainable (List.Subset.refl _)
      (fun _ found => by contradiction) fun none => absurd none some_).bind fun result h => ?_
    obtain ⟨base, next⟩ := result
    obtain ⟨advances, base, rfl, fits⟩ := h
    exact (fits.accept_ensures advances.sane _ known).bind fun after weighed =>
      .pure ⟨advances, base, rfl, fits, weighed⟩

end Candidates

end OutlineTypes.Session
