import OutlineTypes.Proofs.Workspace.Growth

/-! Contracts in the finished session. Whatever a contract demands is demanded there, and what it holds satisfied
lies in the lineage of a base. Of types that were drilled before it misses nothing; of those that are raked in the
same drill it may, since it is weighed before all of them are done. -/
namespace OutlineTypes

namespace Session

variable {earlier session : Session} {id : ParallelId} {contract : Contract}

/-- The contract says of the parallel what the finished session says. -/
structure Exact (session : Session) (id : ParallelId) (contract : Contract) : Prop where
  conditions : ∀ condition, condition ∈ contract.conditions ↔ session.Demands id condition
  unsatisfied : ∀ condition ∈ contract.conditions, condition ∈ contract.unsatisfied ↔
    ∀ base ∈ session.basesOf id, ¬session.Below base condition

/-- The contract of a new parallel is exact if all that it overrides and inherits was there before. -/
theorem Faithful.exact (faithful : Faithful earlier session id contract) (new : earlier.parallel? id = none)
    (overridden : ∀ other, session.Overrides id other → (earlier.parallel? other).isSome)
    (inherited : ∀ base ∈ session.basesOf id, (earlier.parallel? base).isSome) : session.Exact id contract where
  conditions condition := ⟨faithful.demanded condition, faithful.complete new overridden condition⟩
  unsatisfied condition member := by
    refine ⟨fun left base among => faithful.unmet new base among (inherited base among) condition left, ?_⟩
    intro missed
    by_contra met
    obtain ⟨base, among, below⟩ := faithful.satisfied condition member met
    exact missed base among below

end Session

namespace Workspace

/-- After any history and any further requests that change no document, if no cycle was cut, every explicit
parallel that overrides anything has a contract, and it is faithful. -/
theorem history_contracts_faithful (options : Options) (checks : options.checksContracts)
    (requests : List Request) :
    ∃ workspace, (empty options).serveAll requests = .ok workspace ∧
      ∀ further : List Request, (∀ request ∈ further, request.asks) → ∃ last,
        workspace.serveAll further = .ok last ∧ (last.session.Uncut → ∀ id parallel resolved,
          last.session.parallel? id = some parallel → parallel.explicit = some resolved →
            parallel.isApex = false → ∃ contract, resolved.contract = some contract ∧
              Session.Faithful workspace.session last.session id contract) := by
  obtain ⟨workspace, reached, served, synchronised, rested, grown⟩ :=
    (history_succeeds options requests).and_ensures (history_grown options requests).ensures
  refine ⟨workspace, reached, fun further asks => ?_⟩
  obtain ⟨last, onward, _, resumed⟩ := synchronised.serveAll_resumes rested asks
  refine ⟨last, onward, fun uncut id parallel resolved found explicit overrides => ?_⟩
  obtain ⟨start, nothing, outgrows⟩ := grown
  have since := resumed.outgrows _ (Grown.outgrows_self ⟨start, nothing, outgrows⟩)
  have checked : workspace.scene.checksContracts := by
    rw [scene, served.options]
    exact checks
  exact (resumed.outgrows start outgrows).exists_faithful nothing uncut found since outgrows.rest explicit checked
    overrides

/-- The contract of `A/k` demands `t`, which it inherits from `A/x`. -/
def fulfilled : String := "t\nW\n\tk : t\nA : W\n\tx : t\n\tk : x"

/-- Once what it overrides and what it inherits is drilled, a contract is exact. -/
theorem fulfilled_contract_exact : ∃ workspace last parallel resolved contract,
    (empty ⟨4, true⟩).serveAll [.add fulfilled, .resolve ⟨⟨0⟩, ["A", "x"], by decide⟩,
      .resolve ⟨⟨0⟩, ["W", "k"], by decide⟩] = .ok workspace ∧
      (∀ request ∈ [Request.resolve ⟨⟨0⟩, ["A", "k"], by decide⟩], request.asks) ∧
      workspace.serveAll [.resolve ⟨⟨0⟩, ["A", "k"], by decide⟩] = .ok last ∧ last.session.Uncut ∧
      last.session.parallel? ⟨5⟩ = some parallel ∧ parallel.explicit = some resolved ∧
      parallel.isApex = false ∧ resolved.contract = some contract ∧ last.session.Exact ⟨5⟩ contract := by
  obtain ⟨workspace, reached, faithful⟩ := history_contracts_faithful ⟨4, true⟩ rfl
    [.add fulfilled, .resolve ⟨⟨0⟩, ["A", "x"], by decide⟩, .resolve ⟨⟨0⟩, ["W", "k"], by decide⟩]
  obtain ⟨last, onward, contracts⟩ := faithful [.resolve ⟨⟨0⟩, ["A", "k"], by decide⟩] (by decide)
  have evaluated : ((empty ⟨4, true⟩).serveAll [.add fulfilled, .resolve ⟨⟨0⟩, ["A", "x"], by decide⟩,
      .resolve ⟨⟨0⟩, ["W", "k"], by decide⟩]).bind (fun workspace =>
        (workspace.serveAll [.resolve ⟨⟨0⟩, ["A", "k"], by decide⟩]).map fun last =>
          decide (last.session.Uncut ∧ workspace.session.parallel? ⟨5⟩ = none ∧
            (∀ other ∈ last.session.overridden ⟨5⟩, (workspace.session.parallel? other).isSome) ∧
            (∀ base ∈ last.session.basesOf ⟨5⟩, (workspace.session.parallel? base).isSome) ∧
            ((last.session.parallel? ⟨5⟩).any fun parallel => parallel.isExplicit && !parallel.isApex))) =
      .ok true := by
    decide +kernel
  simp only [reached, onward, Except.bind, Except.map, Except.ok.injEq, decide_eq_true_eq, Option.any_eq_true,
    Bool.and_eq_true, Bool.not_eq_true'] at evaluated
  obtain ⟨uncut, new, overridden, inherited, parallel, found, explicit, overrides⟩ := evaluated
  obtain ⟨resolved, stored⟩ := Option.isSome_iff_exists.mp explicit
  obtain ⟨contract, held, faithful⟩ := contracts uncut _ parallel resolved found stored overrides
  obtain ⟨synchronised, rested⟩ := (history_rested _ _).post_of_eq reached
  have sane := ((synchronised.serveAll_rested rested _).post_of_eq onward).1.ready_session.1.sane
  refine ⟨workspace, last, parallel, resolved, contract, reached, by decide, onward, uncut, found, stored,
    overrides, held, faithful.exact new (fun other overrides => ?_) inherited⟩
  exact overridden other (sane.mem_overridden_iff.mpr overrides)

/-- While a drill of `A/Z/x` rakes `A/k`, it finds `A/x`, which waits for its own raking and inherits nothing
yet. -/
def halfway : String := "t\nW\n\tk : t\nA : W\n\tx : t\n\tk : x\n\tB\n\t\tx : k\n\tZ : B, A\n\t\tx"

/-- A contract can be held unsatisfied by what a base inherits once the drill is done. -/
theorem order_of_raking_shows : ¬∀ options requests workspace, options.checksContracts = true →
    (empty options).serveAll requests = .ok workspace → workspace.session.Uncut → ∀ id parallel resolved,
      workspace.session.parallel? id = some parallel → parallel.explicit = some resolved →
        parallel.isApex = false → ∃ contract, resolved.contract = some contract ∧
          workspace.session.Exact id contract := by
  intro exact
  obtain ⟨workspace, reached, _⟩ :=
    history_rested ⟨4, true⟩ [.add halfway, .resolve ⟨⟨0⟩, ["A", "Z", "x"], by decide⟩]
  have evaluated : ((empty ⟨4, true⟩).serveAll
      [.add halfway, .resolve ⟨⟨0⟩, ["A", "Z", "x"], by decide⟩]).map (fun workspace =>
        decide (workspace.session.Uncut ∧ ⟨6⟩ ∈ workspace.session.basesOf ⟨7⟩ ∧
          ⟨9⟩ ∈ workspace.session.branchesOf ⟨6⟩ ∧
          ((workspace.session.parallel? ⟨7⟩).any fun parallel => !parallel.isApex &&
            parallel.explicit.any fun resolved => resolved.contract.any fun contract =>
              ⟨9⟩ ∈ contract.conditions && ⟨9⟩ ∈ contract.unsatisfied))) = .ok true := by
    decide +kernel
  simp only [reached, Except.map, Except.ok.injEq, decide_eq_true_eq, Option.any_eq_true, Bool.and_eq_true,
    Bool.not_eq_true'] at evaluated
  obtain ⟨uncut, base, branch, parallel, found, overrides, resolved, explicit, contract, stored, demanded, left⟩ :=
    evaluated
  obtain ⟨again, held, _, verdict⟩ :=
    exact _ _ workspace rfl reached uncut _ parallel resolved found explicit overrides
  cases stored.symm.trans held
  exact (verdict _ demanded).mp left ⟨6⟩ base (.single branch)

end Workspace
end OutlineTypes
