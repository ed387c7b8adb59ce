import OutlineTypes.Proofs.Arena.Isolation
import OutlineTypes.Proofs.Workspace.Program

/-! Documents do not touch each other. A request that changes one document leaves the nodes and edges of all
others as they are, and what every index has of them; one that removes it leaves nothing of it. -/
namespace OutlineTypes

namespace Workspace

open OutlineTypes.Graph

variable {workspace : Workspace} {id other : DocumentId}

theorem add_fst (workspace : Workspace) (text : String) :
    Ensures (workspace.add text) fun result => result.1 = ⟨workspace.nextDocument⟩ :=
  (Ensures.anything _).bind fun _ _ => .pure rfl

theorem remove_forgets (workspace : Workspace) (id : DocumentId) :
    Ensures (workspace.remove id) fun result => result.2.document? id = none := by
  unfold remove documentOf
  cases found : workspace.document? id with
  | none => exact .pure found
  | some document =>
    refine (Ensures.anything _).bind fun _ _ => .pure ?_
    simp only [document?, OrderedMap.find?_erase, ↓reduceIte]

namespace Synchronised

theorem add_intact (synchronised : workspace.Synchronised) (text : String)
    (apart : other ≠ ⟨workspace.nextDocument⟩) :
    Ensures (workspace.add text) fun result => Intact other workspace.graph result.2.graph := by
  unfold add
  have owner : (workspace.nextOfText text).id = ⟨workspace.nextDocument⟩ := by
    simp only [nextOfText, Document.ofText_eq]
  have keeps : Ensures (workspace.graph.change ((workspace.nextOfText text).replace []) (workspace.nextOfText text) [])
      (Intact other workspace.graph) :=
    synchronised.settled.change_intact (Document.id_replace (workspace.nextOfText text) []).symm
      (fun same => apart (same.symm.trans owner)) []
  exact keeps.bind fun _ h => .pure h

theorem remove_intact (synchronised : workspace.Synchronised) (apart : other ≠ id) :
    Ensures (workspace.remove id) fun result => Intact other workspace.graph result.2.graph := by
  unfold remove documentOf
  cases found : workspace.document? id with
  | none => exact .pure (.refl other workspace.graph)
  | some document =>
    have owner := (synchronised.belongs id document found).owner
    have keeps : Ensures (workspace.graph.change document (document.replace []) [])
        (Intact other workspace.graph) :=
      synchronised.settled.change_intact (document.id_replace []) (fun same => apart (same.symm.trans owner)) []
    exact keeps.bind fun _ h => .pure h

theorem edit_intact (synchronised : workspace.Synchronised) (edits : List Edit) (apart : other ≠ id) :
    Ensures (workspace.edit id edits) fun result => Intact other workspace.graph result.2.graph := by
  unfold edit documentOf
  cases found : workspace.document? id with
  | none => exact .pure (.refl other workspace.graph)
  | some document =>
    have belongs := synchronised.belongs id document found
    obtain ⟨⟨serial, _, counted⟩, _⟩ := belongs.sound.plan_spec edits
    simp only
    generalize document.plan edits = result at counted ⊢
    obtain ⟨plan, after⟩ := result
    obtain rfl : after = _ := counted
    cases plan with
    | error reason => exact .pure (.refl other workspace.graph)
    | ok plan =>
      let counted : Document := { document with nextSerial := serial }
      have keeps : Ensures (workspace.graph.change counted (counted.replace plan.statements) plan.parents)
          (Intact other workspace.graph) :=
        synchronised.settled.change_intact (Document.id_replace counted plan.statements)
          (fun same => apart (same.symm.trans belongs.owner)) plan.parents
      exact keeps.bind fun _ h => .pure h

/-- The graph has nothing of a document that the workspace does not have. -/
theorem not_mem_of_unknown (synchronised : workspace.Synchronised) (unknown : workspace.document? id = none)
    (node : Node) (member : node ∈ workspace.graph.nodes) : node.path.document ≠ id := by
  intro ours
  obtain ⟨document, found⟩ := synchronised.exists_document member
  simp [ours, unknown] at found

end Synchronised

end Workspace

namespace Program

open OutlineTypes.Workspace

variable {program : Program} {id : DocumentId}

/-- What each change does to the arena. -/
structure Isolates (program : Program) : Prop where
  add : ∀ text, ∃ id next, program.workspace.add text = .ok (id, next.workspace) ∧
    program.serve (.add text) = .ok next ∧ Arena.Isolated program.arena id next.arena
  edit : ∀ id edits, ∃ next, program.serve (.edit id edits) = .ok next ∧ Arena.Isolated program.arena id next.arena
  remove : ∀ id, ∃ next, program.serve (.remove id) = .ok next ∧
    Arena.Isolated program.arena id next.arena ∧ next.arena.Lacks id

namespace Tracked

/-- Where a request leaves the graph of other documents as it was, it leaves all the arena has of them. -/
theorem isolated (tracked : program.Tracked) {request : Request} {workspace : Workspace}
    (served : program.workspace.serve request = .ok workspace) (after : workspace.Synchronised)
    (intact : ∀ other, other ≠ id → Graph.Intact other program.workspace.graph workspace.graph) :
    ∃ arena, program.serve request = .ok ⟨workspace, arena⟩ ∧ Arena.Isolated program.arena id arena ∧
      Arena.Tracks arena workspace.graph := by
  obtain ⟨arena, answered, tracks⟩ := tracked.serve_of_workspace served
  have framed := tracked.synchronised.settled.toFramed
  have afterFramed := after.settled.toFramed
  rw [← tracked.tracks.graph_eq] at framed intact
  rw [← tracks.graph_eq] at afterFramed intact
  exact ⟨arena, answered, tracked.tracks.tidy.isolated tracks.tidy framed afterFramed intact, tracks⟩

theorem isolates (tracked : program.Tracked) : program.Isolates where
  add text := by
    obtain ⟨⟨id, workspace⟩, made, after⟩ := tracked.synchronised.add_succeeds text
    obtain rfl : id = ⟨program.workspace.nextDocument⟩ := add_fst program.workspace text _ made
    have served : program.workspace.serve (.add text) = .ok workspace := by rw [Workspace.serve, made]; rfl
    obtain ⟨arena, answered, isolated, _⟩ := tracked.isolated served after.synchronised fun other apart =>
      tracked.synchronised.add_intact text apart _ made
    exact ⟨_, _, made, answered, isolated⟩
  edit id edits := by
    obtain ⟨⟨answer, workspace⟩, made, after⟩ := tracked.synchronised.edit_succeeds id edits
    have served : program.workspace.serve (.edit id edits) = .ok workspace := by rw [Workspace.serve, made]; rfl
    obtain ⟨arena, answered, isolated, _⟩ := tracked.isolated served after.synchronised fun other apart =>
      tracked.synchronised.edit_intact edits apart _ made
    exact ⟨_, answered, isolated⟩
  remove id := by
    obtain ⟨⟨answer, workspace⟩, made, after⟩ := tracked.synchronised.remove_succeeds id
    have served : program.workspace.serve (.remove id) = .ok workspace := by rw [Workspace.serve, made]; rfl
    obtain ⟨arena, answered, isolated, tracks⟩ := tracked.isolated served after.synchronised fun other apart =>
      tracked.synchronised.remove_intact apart _ made
    have framed := after.synchronised.settled.toFramed
    have absent := after.synchronised.not_mem_of_unknown (remove_forgets program.workspace id _ made)
    rw [← tracks.graph_eq] at framed absent
    exact ⟨_, answered, isolated, tracks.tidy.lacks framed absent⟩

end Tracked

/-- After any history, a change of one document leaves all that the arena has of others as it was, and the
removal of a document leaves nothing of it. -/
theorem history_isolates (options : Options) (requests : List Request) :
    ∃ program, (empty options).serveAll requests = .ok program ∧ program.Isolates := by
  obtain ⟨program, reached, tracked, _⟩ := history_tracks options requests
  exact ⟨program, reached, tracked.isolates⟩

end Program
end OutlineTypes
