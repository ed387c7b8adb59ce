import OutlineTypes.Proofs.Ordered
import OutlineTypes.Proofs.Workspace.Synchronisation

/-! Refusals. A request that is answered with an error leaves the workspace as it was, but for the count of
lines read for the document it would have edited; a change that is made is a new version. -/
namespace OutlineTypes.Workspace

/-- All that the workspaces differ in is the count of lines read for one document. -/
structure CountsLines (workspace : Workspace) (id : DocumentId) (next : Workspace) : Prop where
  options : next.options = workspace.options
  graph : next.graph = workspace.graph
  version : next.version = workspace.version
  opened : next.opened = workspace.opened
  nextDocument : next.nextDocument = workspace.nextDocument
  keys : next.documents.keys = workspace.documents.keys
  others : ∀ other, other ≠ id → next.document? other = workspace.document? other
  here : ∀ document, workspace.document? id = some document → ∃ serial, document.nextSerial ≤ serial ∧
    next.document? id = some { document with nextSerial := serial }

/-- Every document has the lines it had, in their places. -/
def SameLines (workspace next : Workspace) : Prop :=
  ∀ id document, workspace.document? id = some document → ∃ now, next.document? id = some now ∧
    now.statements = document.statements ∧ now.text = document.text ∧
      ∀ statement, now.position? statement = document.position? statement

variable {workspace next : Workspace} {id : DocumentId}

namespace CountsLines

theorem refl (workspace : Workspace) (id : DocumentId) : CountsLines workspace id workspace :=
  ⟨rfl, rfl, rfl, rfl, rfl, rfl, fun _ _ => rfl, fun document found =>
    ⟨document.nextSerial, Nat.le_refl _, found⟩⟩

theorem sameLines (counts : CountsLines workspace id next) : SameLines workspace next := by
  intro other document found
  by_cases same : other = id
  · subst same
    obtain ⟨serial, _, present⟩ := counts.here document found
    exact ⟨_, present, rfl, rfl, fun _ => rfl⟩
  · exact ⟨document, (counts.others other same).trans found, rfl, rfl, fun _ => rfl⟩

end CountsLines

theorem Synchronised.Refused.countsLines (refused : Synchronised.Refused workspace id next) :
    CountsLines workspace id next := by
  rcases refused with rfl | ⟨document, serial, found, later, rfl⟩
  · exact .refl next id
  · refine ⟨rfl, rfl, rfl, rfl, rfl, ?_, fun other apart => ?_, fun again present => ?_⟩
    · simp only [OrderedMap.keys, OrderedMap.entries_insert found, List.map_map]
      refine List.map_congr_left fun entry _ => ?_
      simp only [Function.comp]
      split
      · exact Eq.symm ‹_›
      · rfl
    · simp only [document?, OrderedMap.find?_insert]
      exact if_neg apart
    · cases found.symm.trans present
      refine ⟨serial, later, ?_⟩
      simp only [document?, OrderedMap.find?_insert, ↓reduceIte]

/-- What each request that may be refused does. -/
structure AllOrNothing (workspace : Workspace) : Prop where
  add : ∀ text, Succeeds (workspace.add text) fun result => result.2.version = workspace.version + 1
  remove : ∀ id, Succeeds (workspace.remove id) fun result => match result.1 with
    | .error _ => result.2 = workspace
    | .ok _ => result.2.version = workspace.version + 1
  edit : ∀ id edits, Succeeds (workspace.edit id edits) fun result => match result.1 with
    | .error _ => CountsLines workspace id result.2 ∧ SameLines workspace result.2
    | .ok () => result.2.version = workspace.version + 1
  /-- No edits are a change, too. -/
  editNothing : ∀ id document, workspace.document? id = some document →
    Succeeds (workspace.edit id []) fun result => result.1 = .ok ()
  drill : ∀ document text, Succeeds (workspace.drill document text) fun result => match result.1 with
    | .error _ => result.2 = workspace
    | .ok _ => result.2.version = workspace.version
  path : ∀ document text, workspace.serve (.path document text) = .ok workspace

namespace Synchronised

theorem editNothing_succeeds (synchronised : workspace.Synchronised) {document : Document}
    (found : workspace.document? id = some document) :
    Succeeds (workspace.edit id []) fun result => result.1 = .ok () := by
  obtain ⟨⟨answer, next⟩, made, _⟩ := synchronised.edit_decides id []
  refine ⟨⟨answer, next⟩, made, ?_⟩
  simp only [edit, documentOf, found, Document.plan, Draft.applyAll] at made
  cases changed : workspace.graph.change _ _ _ with
  | error reason =>
    rw [changed] at made
    contradiction
  | ok graph =>
    rw [changed] at made
    cases made
    rfl

theorem drill_decides (synchronised : workspace.Synchronised) (document : DocumentId) (text : String) :
    Succeeds (workspace.drill document text) fun result => match result.1 with
      | .error _ => result.2 = workspace
      | .ok _ => result.2.version = workspace.version := by
  unfold drill
  cases workspace.path document text with
  | error reason => exact .pure rfl
  | ok path =>
    have keeps : Ensures (workspace.resolve path) fun result => result.2.version = workspace.version :=
      (Ensures.anything _).bind fun _ _ => .pure rfl
    exact ((synchronised.resolve_succeeds path).and_ensures keeps).bind fun result h => .pure h.2

theorem allOrNothing (synchronised : workspace.Synchronised) : AllOrNothing workspace where
  add text := (synchronised.add_revises text).mono fun _ h => h.1.version
  remove id := by
    refine (synchronised.remove_decides id).mono fun ⟨answer, next⟩ decided => ?_
    cases answer with
    | error reason => exact decided
    | ok document => exact decided.2.version
  edit id edits := by
    refine (synchronised.edit_decides id edits).mono fun ⟨answer, next⟩ decided => ?_
    cases answer with
    | error reason =>
      have counts := Refused.countsLines decided
      exact ⟨counts, counts.sameLines⟩
    | ok _ =>
      obtain ⟨_, _, revised⟩ := decided
      exact revised.version
  editNothing _ _ found := synchronised.editNothing_succeeds found
  drill := synchronised.drill_decides
  path _ _ := rfl

end Synchronised

/-- After any history a request that fails changes nothing but a count of lines, and each change that is made
makes one new version. -/
theorem history_all_or_nothing (options : Options) (requests : List Request) :
    ∃ workspace, (empty options).serveAll requests = .ok workspace ∧ workspace.AllOrNothing := by
  obtain ⟨workspace, reached, served⟩ := history_succeeds options requests
  exact ⟨workspace, reached, served.synchronised.allOrNothing⟩

/-- The last of three edits fails after the first has read a line, which is counted and not kept. -/
theorem late_failure_counts_line : ∃ workspace next,
    (empty ⟨4, true⟩).serveAll [.add "A : B\nB", .drill ⟨0⟩ "A"] = .ok workspace ∧
      workspace.edit ⟨0⟩ [.insert 0 "C", .delete 1 2, .delete 1 1] =
        .ok (.error (.outOfRange ⟨1, 1⟩), next) ∧
      next ≠ workspace ∧ CountsLines workspace ⟨0⟩ next ∧ SameLines workspace next := by
  let edits : List Edit := [.insert 0 "C", .delete 1 2, .delete 1 1]
  obtain ⟨workspace, reached, decides⟩ :=
    history_all_or_nothing ⟨4, true⟩ [.add "A : B\nB", .drill ⟨0⟩ "A"]
  obtain ⟨⟨answer, next⟩, edited, refused⟩ := decides.edit ⟨0⟩ edits
  have evaluated : ((empty ⟨4, true⟩).serveAll [.add "A : B\nB", .drill ⟨0⟩ "A"]).bind (fun workspace =>
      (workspace.edit ⟨0⟩ edits).map fun result => (result.1, decide (result.2 ≠ workspace))) =
        .ok (.error (.outOfRange ⟨1, 1⟩), true) := by
    decide +kernel
  rw [reached, Except.bind, edited, Except.map, Except.ok.injEq, Prod.mk.injEq, decide_eq_true_eq] at evaluated
  obtain ⟨rfl, differs⟩ := evaluated
  exact ⟨workspace, next, reached, edited, differs, refused⟩

end OutlineTypes.Workspace
