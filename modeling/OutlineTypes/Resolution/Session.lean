import OutlineTypes.Fault
import OutlineTypes.Identity
import OutlineTypes.Ordered

/-! Contracts: the bases that an override must keep. A contract without conditions is open, and anything
satisfies it. -/
namespace OutlineTypes

structure Contract where
  /-- The required bases. -/
  conditions : OrderedSet ParallelId
  /-- The conditions that no lineage has satisfied yet. -/
  unsatisfied : OrderedSet ParallelId
deriving DecidableEq

namespace Contract

/-- The contract with these conditions, none of them satisfied. -/
def requiring (conditions : List ParallelId) : Contract :=
  ⟨.ofList conditions, .ofList conditions⟩

def isOpen (contract : Contract) : Bool := contract.conditions.isEmpty

def hasUnsatisfied (contract : Contract) : Bool := !contract.unsatisfied.isEmpty

/-- Satisfies the conditions found in a lineage. -/
def satisfy (contract : Contract) (lineage : List ParallelId) : Contract :=
  { contract with unsatisfied := contract.unsatisfied.filter (· ∉ lineage) }

/-- The number of conditions that a lineage would newly satisfy. -/
def gain (contract : Contract) (lineage : List ParallelId) : Nat :=
  contract.unsatisfied.toList.countP (· ∈ lineage)

theorem size_satisfy (contract : Contract) (lineage : List ParallelId) :
    contract.gain lineage + (contract.satisfy lineage).unsatisfied.size =
      contract.unsatisfied.size := by
  simp only [gain, satisfy, OrderedSet.size, OrderedSet.toList_filter, ← List.countP_eq_length_filter]
  rw [List.length_eq_countP_add_countP (· ∈ lineage)]
  simp

end Contract

/-! Parallels: type paths as one session sees them. A parallel is explicit if a sound node stands at its
path; an implicit one only connects what it overrides with what overrides it. -/

/-- What resolution finds out about a declared path. -/
structure Resolved where
  node : NodeId
  /-- The base that each outbound edge was resolved to. -/
  bases : OrderedMap EdgeId ParallelId
  /-- None until raked, and for a parallel that overrides nothing or is not checked. -/
  contract : Option Contract
deriving DecidableEq

structure Parallel where
  id : ParallelId
  path : TypePath
  container : Option ParallelId
  /-- The overridden parallels: the same name in what the container overrides and inherits. -/
  edges : OrderedSet ParallelId
  /-- None for an implicit parallel. -/
  explicit : Option Resolved
  /-- Raking has begun; it ends once all that the parallel overrides is settled. -/
  raked : Bool
deriving DecidableEq

namespace Parallel

def isExplicit (parallel : Parallel) : Bool := parallel.explicit.isSome

/-- Overrides nothing. -/
def isApex (parallel : Parallel) : Bool := parallel.edges.isEmpty

def baseEntries (parallel : Parallel) : List (EdgeId × ParallelId) :=
  match parallel.explicit with
  | some resolved => resolved.bases.entries
  | none => []

/-- The resolved bases; an implicit parallel has none. -/
def bases (parallel : Parallel) : List ParallelId := parallel.baseEntries.map Prod.snd

/-- What the parallel overrides, then what it inherits. -/
def branches (parallel : Parallel) : List ParallelId := parallel.edges.toList ++ parallel.bases

def mapResolved (change : Resolved → Resolved) (parallel : Parallel) : Parallel :=
  { parallel with explicit := parallel.explicit.map change }

def setBase (edge : EdgeId) (base : ParallelId) : Parallel → Parallel :=
  mapResolved fun resolved => { resolved with bases := resolved.bases.insert edge base }

def setContract (contract : Option Contract) : Parallel → Parallel :=
  mapResolved fun resolved => { resolved with contract }

def dropBases (edges : List EdgeId) : Parallel → Parallel :=
  mapResolved fun resolved => { resolved with bases := resolved.bases.filter fun edge _ => edge ∉ edges }

end Parallel

/-! Sessions: everything that resolution finds out about one version of the graph. A path has at most one
parallel, and a parallel keeps its number and its path for good. -/

/-- What a session reads and never changes. -/
structure Scene where
  graph : Graph
  documents : Documents
  /-- Whether overrides must keep the bases of what they override. -/
  checksContracts : Bool
deriving DecidableEq

structure Session where
  version : Nat
  /-- In order of their numbers. -/
  parallels : List Parallel
  cruft : Cruft
  faults : FaultLog
  /-- The paths being drilled, innermost first. -/
  inFlight : List TypePath
  /-- The explicit parallels whose bases are being resolved, innermost first. -/
  raking : List ParallelId
  /-- The parallels that are raked to the end, in the order in which that was done. -/
  settled : List ParallelId
  /-- Whether the faults of single statements were looked for. -/
  prepared : Bool
deriving DecidableEq

namespace Session

def empty (version : Nat) : Session := ⟨version, [], ∅, ∅, [], [], [], false⟩

def size (session : Session) : Nat := session.parallels.length

def parallel? (session : Session) (id : ParallelId) : Option Parallel := session.parallels[id.index]?

/-- The parallel of a path, if the path was drilled. -/
def lookup? (session : Session) (path : TypePath) : Option ParallelId :=
  (session.parallels.find? (·.path = path)).map Parallel.id

/-- A parallel that must be in the session. -/
def parallelOf (session : Session) (id : ParallelId) : Except Fatal Parallel :=
  match session.parallel? id with
  | some parallel => .ok parallel
  | none => .error (.foreignParallel id)

/-- Adds the parallel of a path that has none. -/
def insert (session : Session) (path : TypePath) (container : Option ParallelId)
    (node : Option NodeId) : Except Fatal (ParallelId × Session) :=
  match session.lookup? path with
  | some _ => .error (.duplicateParallel path)
  | none =>
    let id := ParallelId.mk session.size
    let explicit := node.map fun node => ⟨node, ∅, none⟩
    .ok (id, { session with
      parallels := session.parallels ++ [⟨id, path, container, ∅, explicit, false⟩] })

def modify (session : Session) (id : ParallelId) (change : Parallel → Parallel) : Session :=
  { session with parallels := session.parallels.modify id.index change }

/-- Marks cruft and reports it. -/
def condemn (session : Session) (scene : Scene) (target : CruftTarget) (kind : FaultKind) : Session :=
  let (cruft, faults) := Cruft.add target kind scene.graph scene.documents
    (session.cruft, session.faults)
  { session with cruft, faults }

/-- The node at a path, if it is there and sound. -/
def soundNode? (session : Session) (scene : Scene) (path : TypePath) : Option NodeId :=
  match scene.graph.nodeAt? path with
  | some node => if session.cruft.hasNode node.id then none else some node.id
  | none => none

/-! Preparing a session. A statement whose indent mixes tabs and spaces has an unclear place, so all its
spans are cruft, and so are the nodes and edges that rest on such spans alone. -/

/-- The statements whose indent mixes tabs and spaces, with their documents. -/
def misindented (documents : Documents) : List (Document × Statement) :=
  documents.values.flatMap fun document =>
    (document.statements.filter fun statement => statement.mixed && !statement.noop).map (document, ·)

/-- Marks the spans of one misindented statement without a report and reports the statement once. -/
def condemnStatement (session : Session) (place : Document × Statement) : Session :=
  let (document, statement) := place
  { session with
    cruft := statement.spans.foldl (fun cruft span => cruft.mark (.span span.id) .tabs) session.cruft
    faults := session.faults.note (Fault.atStatement? .tabs document statement.id) }

/-- Marks the targets that stand on cruft spans alone. -/
def condemnGroundless (session : Session) (scene : Scene) (targets : List CruftTarget) : Session :=
  let groundless := targets.filter fun target =>
    (Cruft.spansBehind scene.graph target).all session.cruft.hasSpan
  groundless.foldl (fun session target => session.condemn scene target .tabs) session

/-- Looks for the faults of single statements, once, before anything is drilled. -/
def prepare (session : Session) (scene : Scene) : Session :=
  if session.prepared then session
  else
    let session := { session with prepared := true }
    let session := (misindented scene.documents).foldl condemnStatement session
    if session.cruft.isEmpty then session
    else
      let session := session.condemnGroundless scene (scene.graph.nodes.map (.node ·.id))
      session.condemnGroundless scene (scene.graph.edges.map (.edge ·.id))

/-! Lineages and the conditions of contracts. Both follow finished links between parallels: what one
overrides, and what it inherits. -/

def edgesOf (session : Session) (id : ParallelId) : List ParallelId :=
  (session.parallel? id).toList.flatMap (·.edges.toList)

def basesOf (session : Session) (id : ParallelId) : List ParallelId :=
  (session.parallel? id).toList.flatMap Parallel.bases

def branchesOf (session : Session) (id : ParallelId) : List ParallelId :=
  (session.parallel? id).toList.flatMap Parallel.branches

def isExplicit (session : Session) (id : ParallelId) : Bool :=
  (session.parallel? id).any Parallel.isExplicit

/-- The parallel itself, everything it overrides and inherits, and so on. -/
def lineage (session : Session) (id : ParallelId) : List ParallelId :=
  breadthFirst ParallelId.index session.branchesOf session.size [id]

/-- The bases of a parallel, their bases and so on, without the parallel itself. -/
def baseGraph (session : Session) (id : ParallelId) : List ParallelId :=
  depthFirst ParallelId.index session.basesOf session.size (Marks.empty.insert id.index)
    (session.basesOf id).reverse

/-- What a parallel overrides, where implicit parallels pass on to what they override. -/
def overriding (session : Session) (id : ParallelId) : List ParallelId :=
  let onward (other : ParallelId) := if session.isExplicit other then [] else session.edgesOf other
  depthFirst ParallelId.index onward session.size ∅ (session.edgesOf id).reverse

/-- The nearest explicit parallels that a parallel overrides. -/
def overridden (session : Session) (id : ParallelId) : List ParallelId :=
  (session.overriding id).filter session.isExplicit

/-- Everything that the explicit parallels it overrides inherit. -/
def conditions (session : Session) (id : ParallelId) : List ParallelId :=
  distinct ParallelId.index ((session.overridden id).flatMap session.baseGraph)

/-- Parallels that must all be in the session. -/
def present (session : Session) (ids : List ParallelId) : Except Fatal (List ParallelId) :=
  match ids.find? fun id => (session.parallel? id).isNone with
  | some missing => .error (.foreignParallel missing)
  | none => .ok ids

def lineageOf (session : Session) (id : ParallelId) : Except Fatal (List ParallelId) :=
  session.present (session.lineage id)

def conditionsOf (session : Session) (id : ParallelId) : Except Fatal (List ParallelId) := do
  let _ ← session.present (session.overriding id)
  session.present (session.conditions id)

end Session
end OutlineTypes
