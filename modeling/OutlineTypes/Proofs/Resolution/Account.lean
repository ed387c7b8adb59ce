import OutlineTypes.Proofs.Document.Renaming
import OutlineTypes.Proofs.Resolution.TwinSessions

/-! Accounts. What a session holds for one document is told with names for nodes and edges and with ranks for
parallels, so that no identity is left in it. Twin sessions have the same accounts of paired documents. -/
namespace OutlineTypes

/-- What is known of an explicit parallel. -/
structure ResolvedAccount where
  /-- The names of the path where the node stands. -/
  node : List Name
  /-- The edge, told by the node that it leads out of and by its subject, and the rank of its base. -/
  bases : List ((List Name × Name) × Nat)
  /-- The ranks of the conditions, and of those that are not satisfied. -/
  contract : Option (List Nat × List Nat)
deriving DecidableEq

/-- A parallel, with ranks among the parallels of its document in place of their numbers. -/
structure ParallelAccount where
  names : List Name
  container : Option Nat
  edges : List Nat
  resolved : Option ResolvedAccount
  raked : Bool
deriving DecidableEq

/-- What a session holds for one document, with parallels and faults in their order. -/
structure Account where
  parallels : List ParallelAccount
  faults : List Fault
deriving DecidableEq

def Fault.rename (f : DocumentId → DocumentId) (fault : Fault) : Fault :=
  { fault with statement := fault.statement.rename f, span := fault.span.map (SpanId.rename f) }

namespace Account

variable (graph : Graph) (roll : List ParallelId)

def ranks? (ids : List ParallelId) : Option (List Nat) := ids.mapM roll.idxOf?

def base? (entry : EdgeId × ParallelId) : Option ((List Name × Name) × Nat) := do
  let edge ← graph.edge? entry.1
  let node ← graph.node? edge.predecessor
  return ((node.path.names, edge.subject), ← roll.idxOf? entry.2)

def contract? (contract : Contract) : Option (List Nat × List Nat) := do
  return (← ranks? roll contract.conditions.toList, ← ranks? roll contract.unsatisfied.toList)

def resolved? (resolved : Resolved) : Option ResolvedAccount := do
  let node ← graph.node? resolved.node
  let bases ← resolved.bases.entries.mapM (base? graph roll)
  return ⟨node.path.names, bases, ← resolved.contract.mapM (contract? roll)⟩

def parallel? (parallel : Parallel) : Option ParallelAccount := do
  let container ← parallel.container.mapM roll.idxOf?
  let edges ← ranks? roll parallel.edges.toList
  return ⟨parallel.path.names, container, edges, ← parallel.explicit.mapM (resolved? graph roll), parallel.raked⟩

end Account

/-- The account of a document. There is none if anything that a parallel of it refers to is not there or is of
another document. -/
def Session.account? (session : Session) (graph : Graph) (document : DocumentId) : Option Account := do
  let own := session.parallels.filter (·.path.document = document)
  let parallels ← own.mapM (Account.parallel? graph (own.map Parallel.id))
  let faults := session.faults.faults.filter (·.statement.document = document)
  return ⟨parallels, faults.map (Fault.rename fun _ => ⟨0⟩)⟩

/-- Both are there, and they are the same. -/
def Agree (x y : Option α) : Prop := ∃ value, x = some value ∧ y = some value

namespace Agree

variable {x y : Option α}

theorem some (value : α) : Agree (Option.some value) (Option.some value) := ⟨value, rfl, rfl⟩

theorem bind {f g : α → Option β} (h : Agree x y) (steps : ∀ value, Agree (f value) (g value)) :
    Agree (x >>= f) (y >>= g) := by
  obtain ⟨value, rfl, rfl⟩ := h
  exact steps value

theorem mapM {R : γ → δ → Prop} {xs : List γ} {ys : List δ} {f : γ → Option α} {g : δ → Option α}
    (lists : List.Forall₂ R xs ys) (each : ∀ x y, R x y → Agree (f x) (g y)) : Agree (xs.mapM f) (ys.mapM g) := by
  induction lists with
  | nil => exact .some []
  | cons same _ ih =>
    rw [List.mapM_cons, List.mapM_cons]
    exact (each _ _ same).bind fun value => ih.bind fun values => .some (value :: values)

theorem mapM_option {R : γ → δ → Prop} {u : Option γ} {v : Option δ} {f : γ → Option α} {g : δ → Option α}
    (related : Option.Rel R u v) (each : ∀ x y, R x y → Agree (f x) (g y)) : Agree (u.mapM f) (v.mapM g) := by
  cases related with
  | none => exact .some none
  | some same =>
    obtain ⟨value, here, there⟩ := each _ _ same
    rw [Option.mapM_some, Option.mapM_some, here, there]
    exact .some (Option.some value)

end Agree

namespace Account

open OutlineTypes.Graph

variable {pairs : Pairing} {first second : Scene} {roll others : List ParallelId}
  (same : List.Forall₂ (Numbered roll) roll others) (distinct : roll.Nodup)
include same distinct

theorem agree_rank {id again : ParallelId} (alike : Numbered roll id again) :
    Agree (roll.idxOf? id) (others.idxOf? again) := by
  have ranks := idxOf?_of_biUnique (biUnique_numbered distinct) same alike
  obtain ⟨rank, found⟩ := Option.isSome_iff_exists.mp (List.isSome_idxOf?.mpr (exists_numbered_iff.mp ⟨again, alike⟩))
  exact ⟨rank, found, ranks.trans found⟩

theorem agree_ranks {ids opposites : List ParallelId} (alike : List.Forall₂ (Numbered roll) ids opposites) :
    Agree (ranks? roll ids) (ranks? others opposites) :=
  .mapM alike fun _ _ => agree_rank same distinct

theorem agree_contract {contract twin : Contract} (twins : TwinContracts roll contract twin) :
    Agree (contract? roll contract) (contract? others twin) :=
  (agree_ranks same distinct twins.conditions).bind fun _ =>
    (agree_ranks same distinct twins.unsatisfied).bind fun _ => .some _

variable (scenes : TwinScenes pairs first second)
include scenes

theorem agree_base {entry twin : EdgeId × ParallelId}
    (edges : TwinEdgeIds pairs first.graph second.graph entry.1 twin.1) (bases : Numbered roll entry.2 twin.2) :
    Agree (base? first.graph roll entry) (base? second.graph others twin) := by
  obtain ⟨edge, opposite, twins, known, knownToo⟩ := edges
  have found := scenes.paired.left.settled.edge?_eq_some_iff.mpr ⟨twins.here, known⟩
  have foundToo := scenes.paired.right.settled.edge?_eq_some_iff.mpr ⟨twins.there, knownToo⟩
  obtain ⟨node, other, here, there, nodes⟩ := scenes.node? twins.predecessor
  have names := Paired.names_of_samePath nodes.path
  simp only [base?, found, foundToo, Option.bind_eq_bind, Option.bind_some, here, there, names, twins.subject]
  exact (agree_rank same distinct bases).bind fun _ => .some _

theorem agree_resolved {resolved twin : Resolved} (twins : TwinResolved pairs first second roll resolved twin) :
    Agree (resolved? first.graph roll resolved) (resolved? second.graph others twin) := by
  obtain ⟨node, other, here, there, nodes⟩ := scenes.node? twins.node
  have names := Paired.names_of_samePath nodes.path
  simp only [resolved?, here, there, Option.bind_eq_bind, Option.bind_some, names]
  refine (Agree.mapM twins.bases fun _ _ met => agree_base same distinct scenes met.1 met.2).bind fun _ => ?_
  exact (Agree.mapM_option twins.contract fun _ _ => agree_contract same distinct).bind fun _ => .some _

theorem agree_parallel {parallel twin : Parallel} (twins : TwinParallels pairs first second roll parallel twin) :
    Agree (parallel? first.graph roll parallel) (parallel? second.graph others twin) := by
  have names := Paired.names_of_samePath twins.path
  simp only [parallel?, names, twins.raked]
  refine (Agree.mapM_option twins.container fun _ _ => agree_rank same distinct).bind fun _ => ?_
  refine (agree_ranks same distinct twins.edges).bind fun _ => ?_
  exact (Agree.mapM_option twins.explicit fun _ _ => agree_resolved same distinct scenes).bind fun _ => .some _

end Account

/-- Twin sessions give the same account of their parallels. -/
theorem TwinSessions.agree_parallels {pairs : Graph.Pairing} {first second : Scene} {session twin : Session}
    (scenes : TwinScenes pairs first second) (twins : TwinSessions pairs first second session twin) :
    Agree ((pairs.parallels session).mapM (Account.parallel? first.graph (pairs.ids session)))
      (twin.parallels.mapM (Account.parallel? second.graph (twin.parallels.map Parallel.id))) := by
  have same : List.Forall₂ (Numbered (pairs.ids session)) (pairs.ids session) (twin.parallels.map Parallel.id) := by
    rw [Graph.Pairing.ids, List.forall₂_map_left_iff, List.forall₂_map_right_iff]
    exact twins.parallels.imp fun _ _ alike => alike.id
  exact .mapM twins.parallels fun _ _ => Account.agree_parallel same twins.distinct scenes

end OutlineTypes
