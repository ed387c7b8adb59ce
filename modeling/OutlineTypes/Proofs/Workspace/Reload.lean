import OutlineTypes.Proofs.Document.Text
import OutlineTypes.Proofs.Workspace.DrillOrder
import OutlineTypes.Proofs.Workspace.TwinWorkspaces

/-! Reloading. A document that was edited is drilled like its text loaded anew if the graph lists its spans
and edges in the order of the document. Edits in place do not keep that order, and then it shows. -/
namespace OutlineTypes

/-- What is known after some drills: every parallel with its path, and the code and the line of every
fault. -/
@[ext] structure Report where
  findings : List (TypePath × Finding)
  faults : List (String × Nat)
deriving DecidableEq

theorem filterMap_eq_of_forall₂ {R : α → β → Prop} {f : α → Option γ} {g : β → Option γ} {xs : List α}
    {ys : List β} (lists : List.Forall₂ R xs ys) (agree : ∀ x y, R x y → g y = f x) :
    ys.filterMap g = xs.filterMap f := by
  induction lists with
  | nil => rfl
  | cons same _ ih => rw [List.filterMap_cons, List.filterMap_cons, agree _ _ same, ih]

namespace Session

def report (session : Session) (scene : Scene) : Report where
  findings := session.parallels.filterMap fun parallel =>
    return (parallel.path, ← session.finding? scene parallel.id)
  faults := session.faults.faults.map fun fault => (fault.kind.code, fault.line)

end Session

/-- Documents that are paired under the same names have the same paths. -/
theorem Graph.Pairing.eq_of_samePath {pairs : Graph.Pairing} (named : ∀ pair ∈ pairs, pair.2.id = pair.1.id)
    {path again : TypePath} (same : pairs.SamePath path again) : again = path := by
  obtain ⟨pair, member, h⟩ := same
  exact TypePath.ext_names (h.there.trans ((named pair member).trans h.here.symm)) h.names

namespace TwinSessions

variable {pairs : Graph.Pairing} {first second : Scene} {session twin : Session} {id again : ParallelId}
  (scenes : TwinScenes pairs first second) (named : ∀ pair ∈ pairs, pair.2.id = pair.1.id)
  (twins : TwinSessions pairs first second session twin)

include named twins

theorem path_eq (same : Numbered (pairs.ids session) id again) :
    (twin.parallel? again).map Parallel.path = (session.parallel? id).map Parallel.path := by
  obtain ⟨parallel, other, here, there, alike⟩ := twins.exists_parallels same
  rw [here, there, Option.map_some, Option.map_some, Graph.Pairing.eq_of_samePath named alike.path]

include scenes

theorem finding? (same : Numbered (pairs.ids session) id again) :
    twin.finding? second again = session.finding? first id := by
  obtain ⟨parallel, other, here, there, alike⟩ := twins.exists_parallels same
  have bases : other.baseEntries.filterMap (fun entry => do
      return ((← second.graph.edge? entry.1).subject, (← twin.parallel? entry.2).path)) =
        parallel.baseEntries.filterMap fun entry => do
          return ((← first.graph.edge? entry.1).subject, (← session.parallel? entry.2).path) := by
    refine filterMap_eq_of_forall₂ alike.baseEntries fun entry opposite met => ?_
    obtain ⟨⟨edge, opposing, edges, known, knownToo⟩, bases⟩ := met
    have found := scenes.paired.left.settled.edge?_eq_some_iff.mpr ⟨edges.here, known⟩
    have foundToo := scenes.paired.right.settled.edge?_eq_some_iff.mpr ⟨edges.there, knownToo⟩
    obtain ⟨base, target, standing, standingToo, targets⟩ := twins.exists_parallels bases
    simp [found, foundToo, standing, standingToo, edges.subject, Graph.Pairing.eq_of_samePath named targets.path]
  have overridden := filterMap_eq_of_forall₂ alike.edges fun _ _ met => twins.path_eq named met
  simp only [Session.finding?, here, there, Option.map_some, alike.isExplicit]
  exact congrArg some (Finding.mk.injEq .. ▸ ⟨rfl, overridden, bases⟩)

/-- Sessions that hold nothing else have the same report. -/
theorem report (parallels : ∀ parallel ∈ session.parallels, pairs.Covers parallel.path.document)
    (faults : session.faults.All fun fault => pairs.Covers fault.statement.document) :
    twin.report second = session.report first := by
  have own : pairs.parallels session = session.parallels :=
    List.filter_eq_self.mpr fun parallel member => decide_eq_true (parallels parallel member)
  have ownFaults : pairs.faults session.faults = session.faults.faults :=
    List.filter_eq_self.mpr fun fault listed => decide_eq_true (faults fault listed)
  refine Report.ext ?_ ?_
  · refine filterMap_eq_of_forall₂ (own ▸ twins.parallels) fun parallel other same => ?_
    rw [Graph.Pairing.eq_of_samePath named same.path, twins.finding? scenes named same.id]
  · have logs : List.Forall₂ (TwinFaults pairs) session.faults.faults twin.faults.faults := ownFaults ▸ twins.faults
    simp only [Session.report, ← List.filterMap_eq_map]
    refine filterMap_eq_of_forall₂ logs fun fault other same => ?_
    simp only [Function.comp, same.kind, same.line]

end TwinSessions

namespace Workspace

variable {workspace : Workspace}

/-- What the drills of these paths come to in a new session. -/
def report (workspace : Workspace) (paths : List TypePath) : Except Fatal Report := do
  let start := (Session.empty workspace.version).prepare workspace.scene
  let session ← paths.foldlM (fun session path => return (← session.drill workspace.scene path).2) start
  return session.report workspace.scene

theorem report_eq (workspace : Workspace) (paths : List TypePath) :
    workspace.report paths = return (← workspace.drilled paths).report workspace.scene := rfl

/-- The workspace has one document, the one that came first. -/
def Single (workspace : Workspace) (document : Document) : Prop :=
  workspace.documents.entries = [(⟨0⟩, document)]

theorem Single.document? {document : Document} (single : workspace.Single document) :
    workspace.document? ⟨0⟩ = some document := by
  unfold Single at single
  simp [Workspace.document?, OrderedMap.find?, single]

theorem Single.values {document : Document} (single : workspace.Single document) :
    workspace.documents.values = [document] := by
  unfold Single at single
  simp [OrderedMap.values, single]

theorem Single.isSome_document? {document : Document} (single : workspace.Single document) (id : DocumentId) :
    (workspace.document? id).isSome = decide (⟨0⟩ = id) := by
  unfold Single at single
  by_cases here : (⟨0⟩ : DocumentId) = id <;> simp [Workspace.document?, OrderedMap.find?, single, here]

theorem Single.edit {document : Document} (single : workspace.Single document) (edits : List Edit) :
    Ensures (workspace.edit ⟨0⟩ edits) fun result => ∃ changed, result.2.Single changed := by
  have put (changed : Document) :
      (workspace.documents.insert ⟨0⟩ changed).entries = [(⟨0⟩, changed)] := by
    unfold Single at single
    simp [OrderedMap.insert, OrderedMap.put, single]
  unfold Workspace.edit
  simp only [documentOf, single.document?]
  cases (document.plan edits).1 with
  | error reason => exact .ok ⟨_, put _⟩
  | ok plan => exact (Ensures.anything _).bind fun graph _ => .pure ⟨_, put _⟩

/-- A text that is added to a new workspace comes in order. -/
theorem load_succeeds (options : Options) (text : String) :
    Succeeds ((empty options).serve (.add text)) fun workspace => Served (empty options) workspace ∧
      workspace.Single (.ofText ⟨0⟩ options.tabSize text) ∧
        workspace.graph.InOrder (.ofText ⟨0⟩ options.tabSize text) := by
  have synchronised := synchronised_empty options
  refine (synchronised.add_revises text).bind fun result h => .pure ?_
  obtain ⟨revised, documents⟩ := h
  refine ⟨synchronised.revise revised, ?_, revised.changed.inOrder rfl⟩
  rw [Single, documents]
  rfl

/-- Workspaces with like documents in order have the same reports. -/
theorem Synchronised.report_alike {other : Workspace} (synchronised : workspace.Synchronised)
    (again : other.Synchronised) {document twin : Document} (single : workspace.Single document)
    (singleToo : other.Single twin) (options : other.options = workspace.options)
    (like : Document.Likewise document twin) (inOrder : workspace.graph.InOrder document)
    (inOrderToo : other.graph.InOrder twin) (paths : List TypePath) :
    ∃ report, workspace.report paths = .ok report ∧ other.report paths = .ok report := by
  have only : other.OffersOnly twin := .inl singleToo.values
  have offers : workspace.Offers document := synchronised.offers_of_only (.inl single.values)
  have paired := synchronised.paired again offers (again.offers_of_only only) like
  have scenes := synchronised.twinScenes again options offers only paired (paired.sameOrder inOrder inOrderToo)
  have owner := (synchronised.belongs _ document single.document?).owner
  have ownerToo := (again.belongs _ twin singleToo.document?).owner
  have named : ∀ pair ∈ [(document, twin)], pair.2.id = pair.1.id := by simp [owner, ownerToo]
  have covers (id : DocumentId) : Graph.Pairing.Covers [(document, twin)] id ↔ ⟨0⟩ = id := by
    simp [Graph.Pairing.Covers, owner]
  obtain ⟨session, drilled, rest, accurate⟩ := (synchronised.drilled_succeeds paths).and_ensures
    (synchronised.drilled_all synchronised.kept.warrants_accurate paths)
  obtain ⟨last, drilledToo, _⟩ := again.drilled_succeeds paths
  have twins : TwinSessions [(document, twin)] workspace.scene other.scene session last := by
    rw [again.drilled_filter] at drilledToo
    refine drilled_lockstep scenes ?_ session last drilled drilledToo
    simp only [covers, singleToo.isSome_document?]
    refine List.forall₂_same.mpr fun path member => ⟨_, List.mem_singleton_self _, ?_⟩
    have ours : ⟨0⟩ = path.document := of_decide_eq_true (List.mem_filter.mp member).2
    exact ⟨ours.symm.trans owner.symm, ours.symm.trans ownerToo.symm, rfl⟩
  have known {id : DocumentId} {found : Document} (present : workspace.document? id = some found) :
      Graph.Pairing.Covers [(document, twin)] id := by
    have isSome := single.isSome_document? id
    rw [present, Option.isSome_some] at isSome
    exact (covers id).mpr (of_decide_eq_true isSome.symm)
  refine ⟨session.report workspace.scene, ?_, ?_⟩
  · rw [report_eq, drilled]
    rfl
  · rw [report_eq, drilledToo, ← twins.report scenes named (fun parallel member => ?_) fun fault listed => ?_]
    · rfl
    · obtain ⟨id, found⟩ := Session.exists_of_mem member
      obtain ⟨node, among, same⟩ := rest.exists_node (rest.sane.lookup?_path found)
      obtain ⟨_, present⟩ := synchronised.exists_document among
      exact same ▸ known present
    · obtain ⟨_, _, present, _⟩ := accurate fault listed
      exact known present

/-- A document whose graph is in order is drilled like its text loaded into a new workspace. -/
theorem Synchronised.reload (synchronised : workspace.Synchronised) {document : Document}
    (single : workspace.Single document) (unbroken : ∀ line ∈ document.statements, '\n' ∉ line.text.toList)
    (inOrder : workspace.graph.InOrder document) :
    Succeeds ((empty workspace.options).serveAll [.add document.text]) fun loaded =>
      ∀ paths, ∃ report, workspace.report paths = .ok report ∧ loaded.report paths = .ok report := by
  rw [serveAll, List.foldlM_cons]
  refine (load_succeeds workspace.options document.text).bind fun loaded h => .pure fun paths => ?_
  obtain ⟨served, singleToo, inOrderToo⟩ := h
  have belongs := synchronised.belongs _ document single.document?
  have like := Document.likewise_ofText belongs.sound unbroken ⟨0⟩
  rw [← belongs.tabSize] at singleToo inOrderToo
  exact synchronised.report_alike served.synchronised single singleToo served.options like inOrder inOrderToo paths

/-- Edits of its document leave a workspace with one document. -/
theorem edits_succeed (options : Options) (text : String) (edits : List (List Edit)) :
    Succeeds ((empty options).serveAll (.add text :: edits.map (.edit ⟨0⟩))) fun workspace =>
      Served (empty options) workspace ∧ ∃ document, workspace.Single document := by
  rw [serveAll, List.foldlM_cons]
  refine (load_succeeds options text).bind fun workspace loaded =>
    Succeeds.foldlM_of_forall _ ⟨loaded.1, _, loaded.2.1⟩ fun request member workspace h => ?_
  obtain ⟨served, document, single⟩ := h
  obtain ⟨edits, _, rfl⟩ := List.mem_map.mp member
  refine ((served.synchronised.edit_succeeds ⟨0⟩ edits).and_ensures (single.edit edits)).bind
    fun result edited => .pure ⟨?_, edited.2⟩
  exact ⟨edited.1.synchronised, edited.1.options.trans served.options⟩

/-- However a document was edited, if the graph has it in order then it is drilled like its text loaded into
a new workspace: the parallels, what they override, their bases and the faults are the same and come in the
same order. -/
theorem edited_drills_like_reloaded (options : Options) (text : String) (edits : List (List Edit)) :
    ∃ workspace document, (empty options).serveAll (.add text :: edits.map (.edit ⟨0⟩)) = .ok workspace ∧
      workspace.Single document ∧
      ((∀ line ∈ document.statements, '\n' ∉ line.text.toList) → workspace.graph.InOrder document →
        ∃ loaded, (empty options).serveAll [.add document.text] = .ok loaded ∧
          ∀ paths, ∃ report, workspace.report paths = .ok report ∧ loaded.report paths = .ok report) := by
  obtain ⟨workspace, reached, served, document, single⟩ := edits_succeed options text edits
  refine ⟨workspace, document, reached, single, fun unbroken inOrder => ?_⟩
  have reloaded := served.synchronised.reload single unbroken inOrder
  rw [served.options] at reloaded
  exact reloaded

theorem appended_drills_like_reloaded : ∃ workspace document loaded,
    (empty ⟨4, true⟩).serveAll [.add "A : B", .edit ⟨0⟩ [.insert 1 "B"]] = .ok workspace ∧
      workspace.Single document ∧ (∀ line ∈ document.statements, '\n' ∉ line.text.toList) ∧
      workspace.graph.InOrder document ∧ (empty ⟨4, true⟩).serveAll [.add document.text] = .ok loaded ∧
      ∀ paths, ∃ report, workspace.report paths = .ok report ∧ loaded.report paths = .ok report := by
  obtain ⟨workspace, document, reached, single, alike⟩ :=
    edited_drills_like_reloaded ⟨4, true⟩ "A : B" [[.insert 1 "B"]]
  have holds : ((empty ⟨4, true⟩).serveAll [.add "A : B", .edit ⟨0⟩ [.insert 1 "B"]]).map (fun workspace =>
      workspace.documents.values.all fun document =>
        decide ((∀ line ∈ document.statements, '\n' ∉ line.text.toList) ∧ workspace.graph.InOrder document)) =
      .ok true := by decide +kernel
  rw [show (empty ⟨4, true⟩).serveAll [.add "A : B", .edit ⟨0⟩ [.insert 1 "B"]] = .ok workspace from reached] at holds
  have each := List.all_eq_true.mp (Except.ok.inj holds) document (single.values ▸ List.mem_singleton_self _)
  obtain ⟨unbroken, inOrder⟩ := of_decide_eq_true each
  obtain ⟨loaded, loading, reports⟩ := alike unbroken inOrder
  exact ⟨workspace, document, loaded, reached, single, unbroken, inOrder, loading, reports⟩

/-- The annotation of `A/k` that is resolved first has to keep the contract of `W/k`, and takes the type of
its name outside of `A`; the other one takes the type in `A`. -/
def crossed : String := "t\nx : t\ny : t\nW\n\tk : t\nA : W\n\tx\n\ty\n\tk : x, y"

/-- An annotation that moves in front of another one keeps its place in the graph, and then the drills of
the edited document give other bases than those of its text. -/
theorem order_of_edits_shows : ¬∀ options text, ∀ edits : List (List Edit), ∀ workspace document,
    (empty options).serveAll (.add text :: edits.map (.edit ⟨0⟩)) = .ok workspace →
      workspace.Single document → (∀ line ∈ document.statements, '\n' ∉ line.text.toList) →
      ∀ loaded, (empty options).serveAll [.add document.text] = .ok loaded →
        ∀ drills path one two, workspace.findingAfter drills path = .ok one →
          loaded.findingAfter drills path = .ok two → Option.Rel Finding.Agrees one two := by
  intro same
  let path : TypePath := ⟨⟨0⟩, ["A", "k"], by decide⟩
  let edits : List (List Edit) := [[.update 8 "\tk : y, x"]]
  let again : String := "t\nx : t\ny : t\nW\n\tk : t\nA : W\n\tx\n\ty\n\tk : y, x"
  obtain ⟨workspace, reached, _, document, single⟩ := edits_succeed ⟨4, true⟩ crossed edits
  obtain ⟨loaded, loading, _⟩ := history_succeeds ⟨4, true⟩ [.add again]
  have texts : ((empty ⟨4, true⟩).serveAll (.add crossed :: edits.map (.edit ⟨0⟩))).map (fun workspace =>
      workspace.documents.values.all fun document =>
        decide (document.text = again ∧ ∀ line ∈ document.statements, '\n' ∉ line.text.toList)) = .ok true := by
    decide +kernel
  have kept : ((empty ⟨4, true⟩).serveAll (.add crossed :: edits.map (.edit ⟨0⟩))).bind (findingAfter · [] path) =
      .ok (some ⟨true, [⟨⟨0⟩, ["W", "k"], by decide⟩],
        [("x", ⟨⟨0⟩, ["x"], by decide⟩), ("y", ⟨⟨0⟩, ["A", "y"], by decide⟩)]⟩) := by
    decide +kernel
  have moved : ((empty ⟨4, true⟩).serveAll [.add again]).bind (findingAfter · [] path) =
      .ok (some ⟨true, [⟨⟨0⟩, ["W", "k"], by decide⟩],
        [("y", ⟨⟨0⟩, ["y"], by decide⟩), ("x", ⟨⟨0⟩, ["A", "x"], by decide⟩)]⟩) := by
    decide +kernel
  rw [reached] at texts kept
  rw [loading] at moved
  have each := List.all_eq_true.mp (Except.ok.inj texts) document (single.values ▸ List.mem_singleton_self _)
  obtain ⟨text, unbroken⟩ := of_decide_eq_true each
  cases same _ _ edits workspace document reached single unbroken loaded (text ▸ loading) [] path _ _ kept moved with
  | some agrees => exact absurd ((agrees.bases ("x", ⟨⟨0⟩, ["x"], by decide⟩)).mpr List.mem_cons_self) (by decide)

end Workspace

end OutlineTypes
