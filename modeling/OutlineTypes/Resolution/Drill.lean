import OutlineTypes.Resolution.Session

/-! Raking. Each annotation of an explicit parallel is resolved to a base among the successors of its edge,
and what a parallel overrides is raked before it. Drilling a candidate may build and rake further
parallels, so drilling is a parameter here. -/
namespace OutlineTypes

/-- What came of drilling a path. -/
inductive Outcome where
  | resolved (id : ParallelId)
  /-- Nothing declared stands at the path, anywhere in the lineage of what contains it. -/
  | unpopulated
  /-- The path is being drilled, or its parallel is being raked, further out. -/
  | circular
deriving DecidableEq

namespace Outcome

def parallel? : Outcome → Option ParallelId
  | resolved id => some id
  | unpopulated | circular => none

end Outcome

/-- Drills a path in a session. -/
abbrev Driller := TypePath → Session → Except Fatal (Outcome × Session)

namespace Session

/-- Drills the path of a candidate's node. -/
def drillCandidate (drill : Driller) (scene : Scene) (candidate : Successor) (session : Session) :
    Except Fatal (Outcome × Session) :=
  match scene.graph.node? candidate.node with
  | none => .ok (.unpopulated, session)
  | some node => drill node.path session

/-- The parallel that a candidate's path has already. -/
def cached? (session : Session) (scene : Scene) (candidate : Successor) : Option ParallelId :=
  (scene.graph.node? candidate.node).bind fun node => session.lookup? node.path

/-- The nearest candidate that drills to a parallel. One that is under way itself is taken only if no
other does; `circular` is the nearest such one so far. -/
def nearest (drill : Driller) (scene : Scene) (circular : Option ParallelId) (session : Session) :
    List Successor → Except Fatal (Option ParallelId × Session)
  | [] => .ok (circular, session)
  | candidate :: rest => do
    let (outcome, session) ← session.drillCandidate drill scene candidate
    match outcome with
    | .resolved base => return (some base, session)
    | .circular => nearest drill scene (circular <|> session.cached? scene candidate) session rest
    | .unpopulated => nearest drill scene circular session rest

/-- The nearest candidate whose lineage satisfies a condition that is still unsatisfied, and the contract
with all that this lineage satisfies. If no candidate does, the nearest that drills to a parallel, and the
contract as it was; `fallback` is the nearest such one so far. -/
def satisfying (drill : Driller) (scene : Scene) (contract : Contract)
    (fallback circular : Option ParallelId) (session : Session) :
    List Successor → Except Fatal (Option ParallelId × Contract × Session)
  | [] => .ok (fallback <|> circular, contract, session)
  | candidate :: rest => do
    let (outcome, session) ← session.drillCandidate drill scene candidate
    match outcome with
    | .resolved base =>
      if contract.hasUnsatisfied then
        let lineage ← session.lineageOf base
        if 0 < contract.gain lineage then
          return (some base, contract.satisfy lineage, session)
        else satisfying drill scene contract (fallback <|> some base) circular session rest
      else return (some base, contract, session)
    | .circular =>
      satisfying drill scene contract fallback (circular <|> session.cached? scene candidate)
        session rest
    | .unpopulated => satisfying drill scene contract fallback circular session rest

/-- What a contract comes to once an edge has this base. -/
def accept (session : Session) (contract : Option Contract) (base : Option ParallelId) :
    Except Fatal (Option Contract) :=
  match contract, base with
  | some contract, some base =>
    if contract.isOpen then .ok (some contract)
    else return some (contract.satisfy (← session.lineageOf base))
  | contract, _ => .ok contract

/-- The base of an edge with these candidates, and the contract that this choice leaves. Only a parallel
under contract chooses among several by its contract; all others take the nearest. -/
def chooseBase (drill : Driller) (scene : Scene) (contract : Option Contract)
    (candidates : List Successor) (session : Session) :
    Except Fatal (Option ParallelId × Option Contract × Session) := do
  match contract, candidates with
  | some contract, _ :: _ :: _ =>
    let (base, contract, session) ← satisfying drill scene contract none none session candidates
    return (base, some contract, session)
  | contract, candidates =>
    let (base, session) ← nearest drill scene none session candidates
    return (base, ← session.accept contract base, session)

/-- Resolves one edge of an explicit parallel. An edge without any sound candidate is cruft. -/
def rakeEdge (drill : Driller) (scene : Scene) (id : ParallelId)
    (state : Option Contract × Session) (edge : Edge) : Except Fatal (Option Contract × Session) := do
  let (contract, session) := state
  if session.cruft.hasEdge edge.id then return (contract, session)
  else
    let candidates := edge.successors.filter fun candidate => !session.cruft.hasNode candidate.node
    if candidates.isEmpty then
      return (contract, session.condemn scene (.edge edge.id) .unresolved)
    else
      let (base, contract, session) ← session.chooseBase drill scene contract candidates
      match base with
      | none => return (contract, session)
      | some base => return (contract, session.modify id (Parallel.setBase edge.id base))

/-- What an override is told about conditions that its bases do not satisfy. -/
def violationMessage (session : Session) (path : TypePath) (unsatisfied : List ParallelId) :
    Except Fatal String := do
  let required ← unsatisfied.mapM fun id =>
    return "`" ++ (← session.parallelOf id).path.text ++ "`"
  return "`" ++ path.text ++ "` must inherit " ++ ", ".intercalate required ++
    " like the types it overrides"

/-- Reports conditions left unsatisfied at every statement that declares the node. -/
def reportViolation (session : Session) (scene : Scene) (path : TypePath) (node : Node)
    (contract : Option Contract) : Except Fatal Session :=
  match contract.map (·.unsatisfied.toList) with
  | none | some [] => .ok session
  | some unsatisfied => do
    let message ← session.violationMessage path unsatisfied
    let statements := (OrderedSet.ofList (node.declarations.toList.map SpanId.statement)).toList
    let faults := statements.map fun id =>
      (((scene.documents.find? id.document).bind (Fault.atStatement? .contract · id)).map
        fun fault => { fault with message })
    return { session with faults := faults.foldl FaultLog.note session.faults }

/-- The contract under which a parallel is raked, if it overrides anything and contracts are checked. -/
def contractOf (session : Session) (scene : Scene) (id : ParallelId) (parallel : Parallel) :
    Except Fatal (Option Contract) :=
  if scene.checksContracts && !parallel.isApex then
    return some (Contract.requiring (← session.conditionsOf id))
  else return none

/-- Resolves the bases of an explicit parallel; an implicit one has none. -/
def rakeExplicit (drill : Driller) (scene : Scene) (id : ParallelId) (session : Session) :
    Except Fatal Session := do
  let parallel ← session.parallelOf id
  match parallel.explicit with
  | none => return session
  | some resolved =>
    match scene.graph.node? resolved.node with
    | none => .error (.lostNode parallel.path resolved.node)
    | some node =>
      let contract ← session.contractOf scene id parallel
      let session := { session with raking := id :: session.raking }
      let (contract, session) ← (scene.graph.outbounds node.id).foldlM (rakeEdge drill scene id)
        (contract, session)
      let session := { session with raking := session.raking.drop 1 }
      let session ← session.reportViolation scene parallel.path node contract
      return session.modify id (Parallel.setContract contract)

/-- Rakes a parallel after everything it overrides. The bound limits how deep overriding can nest. -/
def rakeWithin (drill : Driller) (scene : Scene) :
    Nat → ParallelId → Session → Except Fatal Session
  | 0, _, _ => .error .bottomless
  | bound + 1, id, session => do
    let parallel ← session.parallelOf id
    if parallel.raked then return session
    else
      let session := session.modify id fun parallel => { parallel with raked := true }
      let session ← parallel.edges.toList.foldlM
        (fun session edge => rakeWithin drill scene bound edge session) session
      let session ← session.rakeExplicit drill scene id
      return { session with settled := session.settled ++ [id] }

/-- Rakes a parallel and everything it overrides that is not raked yet. -/
def rake (drill : Driller) (scene : Scene) (id : ParallelId) (session : Session) :
    Except Fatal Session :=
  rakeWithin drill scene (session.size + 1) id session

/-! Descents. Going down one name below a parallel builds a layer: a child for every member of its lineage
from which a sound node of that name can be reached. A child overrides the children of what its container
overrides and inherits. -/

/-- A sound node named `name` stands right below the parallel. -/
def hasChildNode (session : Session) (scene : Scene) (name : Name) (id : ParallelId) : Bool :=
  (session.parallel? id).any fun parallel =>
    (session.soundNode? scene (parallel.path.child name)).isSome

/-- Marks the parallels that have a marked branch, round by round until there are no more of them. Each round but
the last marks another one. -/
def markReaching (links : List (ParallelId × List ParallelId)) : Nat → Marks → Marks
  | 0, marks => marks
  | bound + 1, marks =>
    let grown := links.filter fun (id, branches) =>
      !marks.contains id.index && branches.any fun branch => marks.contains branch.index
    if grown.isEmpty then marks
    else markReaching links bound (marks.insertAll (grown.map fun (id, _) => id.index))

/-- The members of a lineage from which branches lead to one with such a node below it, which may be the
member itself. -/
def reaching (session : Session) (scene : Scene) (name : Name) (lineage : List ParallelId) :
    List ParallelId :=
  let links := lineage.map fun id => (id, session.branchesOf id)
  let start := lineage.filter (session.hasChildNode scene name)
  let marks := markReaching links links.length (Marks.insertAll ∅ (start.map ParallelId.index))
  lineage.filter fun id => marks.contains id.index

/-- A member of a layer: the child of one container. -/
structure LayerEntry where
  container : ParallelId
  child : ParallelId
  created : Bool
deriving DecidableEq

/-- The child of one container, created if its path has no parallel. -/
def enterLayer (scene : Scene) (name : Name) (state : Session × List LayerEntry)
    (container : ParallelId) : Except Fatal (Session × List LayerEntry) := do
  let (session, layer) := state
  let path := (← session.parallelOf container).path.child name
  match session.lookup? path with
  | some child => return (session, layer ++ [⟨container, child, false⟩])
  | none =>
    let (child, session) ← session.insert path (some container) (session.soundNode? scene path)
    return (session, layer ++ [⟨container, child, true⟩])

def childOf? (layer : List LayerEntry) (container : ParallelId) : Option ParallelId :=
  (layer.find? (·.container = container)).map LayerEntry.child

/-- Lets a new child override the children of its container's branches. -/
def wire (layer : List LayerEntry) (session : Session) (entry : LayerEntry) : Session :=
  if entry.created then
    let overridden := ((session.branchesOf entry.container).filterMap (childOf? layer)).filter
      (· ≠ entry.child)
    session.modify entry.child fun child => { child with edges := child.edges.insertAll overridden }
  else session

/-- The child of a parallel, if its lineage reaches a sound node of that name. -/
def descend (session : Session) (scene : Scene) (start : ParallelId) (name : Name) :
    Except Fatal (Option ParallelId × Session) := do
  let lineage ← session.lineageOf start
  let containers := session.reaching scene name lineage
  if start ∉ containers then return (none, session)
  else
    let (session, layer) ← containers.foldlM (enterLayer scene name) (session, [])
    return (childOf? layer start, layer.foldl (wire layer) session)

/-! Cutting cycles of bases. A depth-first walk along the bases finds every edge that leads back into the
path that is being walked; that edge and those of the path from there on form a cycle. All of them are
cruft, and the bases they were resolved to are dropped. -/

/-- What a walk has found: the parallels it is done with, and the edges on cycles in order. -/
structure Walk where
  done : List ParallelId
  circular : OrderedSet EdgeId
deriving DecidableEq

def baseEntriesOf (session : Session) (id : ParallelId) : List (EdgeId × ParallelId) :=
  (session.parallel? id).toList.flatMap Parallel.baseEntries

/-- Walks on from a parallel. `path` leads from the start of the walk to the parallel, which it includes,
and `edges` are the edges along it. The bound limits the length of a path. -/
def walkFrom (session : Session) :
    Nat → (path : List ParallelId) → (edges : List EdgeId) → ParallelId → Walk → Walk
  | 0, _, _, _, walk => walk
  | bound + 1, path, edges, id, walk =>
    let walk := (session.baseEntriesOf id).foldl (fun walk (edge, base) =>
      if session.cruft.hasEdge edge || edge ∈ walk.circular then walk
      else match path.idxOf? base with
        | some start => { walk with circular := walk.circular.insertAll (edges.drop start ++ [edge]) }
        | none =>
          if base ∈ walk.done then walk
          else walkFrom session bound (path ++ [base]) (edges ++ [edge]) base walk) walk
    { walk with done := id :: walk.done }

/-- The edges on cycles of bases, in the order in which walks from each explicit parallel find them, with
paths of no more than `bound` parallels. -/
def circularWithin (session : Session) (bound : Nat) : List EdgeId :=
  let roots := (session.parallels.filter Parallel.isExplicit).map Parallel.id
  let walk := roots.foldl (fun walk root =>
    if root ∈ walk.done then walk
    else session.walkFrom bound [root] [] root walk) ⟨[], ∅⟩
  walk.circular.toList

/-- No path has more parallels than there are. -/
def circularEdges (session : Session) : List EdgeId := session.circularWithin (session.size + 1)

/-- Condemns the edges on cycles and drops the bases they were resolved to. -/
def cutCycles (session : Session) (scene : Scene) : Session :=
  let edges := session.circularEdges
  let session := edges.foldl (fun session edge => session.condemn scene (.edge edge) .circular) session
  { session with parallels := session.parallels.map (Parallel.dropBases edges) }

/-! Drilling. A path is resolved name by name from its longest prefix that has a parallel, or else from its
root node. Raking drills further paths, which are always paths of nodes; a path that is under way already
is circular, so drills nest no deeper than there are nodes. -/

/-- The longest proper prefix of a path that has a parallel, with its length. -/
def longestCached? (session : Session) (path : TypePath) : Option (Nat × ParallelId) :=
  ((List.range path.length).drop 1).reverse.findSome? fun length =>
    (session.lookup? (path.upTo length)).map (length, ·)

/-- The root parallel of a path, created and raked, if its node is there and sound. -/
def surface (drill : Driller) (scene : Scene) (path : TypePath) (session : Session) :
    Except Fatal (Option ParallelId × Session) := do
  let root := path.upTo 1
  match session.soundNode? scene root with
  | none => return (none, session)
  | some node =>
    let (id, session) ← session.insert root none (some node)
    return (some id, ← session.rake drill scene id)

/-- Descends from a parallel along the names and rakes each layer. -/
def descendAlong (drill : Driller) (scene : Scene) :
    List Name → ParallelId → Session → Except Fatal (Outcome × Session)
  | [], id, session => .ok (.resolved id, session)
  | name :: rest, id, session => do
    let (child, session) ← session.descend scene id name
    match child with
    | none => return (.unpopulated, session)
    | some child => descendAlong drill scene rest child (← session.rake drill scene child)

/-- Drills a path that has no parallel yet. -/
def drillNew (drill : Driller) (scene : Scene) : Driller := fun path session => do
  match session.longestCached? path with
  | some (length, id) => descendAlong drill scene (path.names.drop length) id session
  | none =>
    let (id, session) ← session.surface drill scene path
    match id with
    | none => return (.unpopulated, session)
    | some id => descendAlong drill scene (path.names.drop 1) id session

/-- Drills a path, with at most `bound` drills of new paths inside one another. -/
def drillWithin (scene : Scene) : Nat → Driller
  | bound, path, session =>
    match session.lookup? path with
    | some id => .ok (if id ∈ session.raking then .circular else .resolved id, session)
    | none =>
      if path ∈ session.inFlight then .ok (.circular, session)
      else match bound with
        | 0 => .error .bottomless
        | bound + 1 => do
          let (outcome, session) ← drillNew (drillWithin scene bound) scene path
            { session with inFlight := path :: session.inFlight }
          return (outcome, { session with inFlight := session.inFlight.drop 1 })

/-- One drill for the path itself and one for each node. -/
def drillBound (scene : Scene) : Nat := scene.graph.nodes.length + 1

/-- Resolves a path in a prepared session: the parallel that stands there, if any. -/
def drill (session : Session) (scene : Scene) (path : TypePath) :
    Except Fatal (Option ParallelId × Session) := do
  let (outcome, session) ← drillWithin scene (drillBound scene) path session
  return (outcome.parallel?, session.cutCycles scene)

end Session
end OutlineTypes
