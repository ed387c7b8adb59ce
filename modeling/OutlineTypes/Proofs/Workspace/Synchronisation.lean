import OutlineTypes.Proofs.Graph.Change
import OutlineTypes.Proofs.Resolution.Completion
import OutlineTypes.Workspace.Query

/-! Synchronised workspaces. Every document is sound and mirrored by the graph, the graph says nothing
of other documents, and the session of the current version is sane. Every request keeps this up and
ends in no fatal error. -/
namespace OutlineTypes

namespace Document

theorem placements_eq_nil {document : Document} {index : Nat} (outside : document.length ≤ index) :
    document.placements index = [] := by
  simp only [placements, get?, List.getElem?_eq_none outside]

/-- Announced as a whole, a document may change in every way. -/
theorem replaces_whole {old new : Document} (id : new.id = old.id) :
    Replaces old new (List.range old.length) (List.range new.length) where
  id := id
  outside placement := by
    constructor <;>
    · rintro ⟨index, outside, member⟩
      rw [List.mem_range, Nat.not_lt] at outside
      rw [placements_eq_nil outside] at member
      contradiction

theorem not_declares_replace_nil (document : Document) (path : TypePath) (span : SpanId) :
    ¬(document.replace []).Declares path span := by
  rintro ⟨index, line, found, _⟩
  simp [get?] at found

theorem not_annotates_replace_nil (document : Document) (path : TypePath) (subject : Name)
    (source : SpanId) : ¬(document.replace []).Annotates path subject source := by
  rintro ⟨index, line, found, _⟩
  simp [get?] at found

theorem Sound.replace_nil {document : Document} (sound : document.Sound) :
    (document.replace []).Sound :=
  Sound.replace_sublist (show (document.replace document.statements).Sound from sound) (List.nil_sublist _)

/-- Lines that are counted and not kept make no difference to a plan. -/
theorem Planned.counting {document changed : Document} {parents : List StatementId}
    (planned : Planned document changed parents) (serial : Nat) :
    Planned { document with nextSerial := serial } changed parents :=
  ⟨planned.sound, planned.id, planned.tabSize, planned.old, planned.new, planned.agrees⟩

end Document

theorem Graph.Asserts.exists_declares {graph : Graph} (settled : graph.Settled) {path : TypePath}
    {subject : Name} {source : SpanId} (h : graph.Asserts path subject source) :
    ∃ span, graph.Declares path span := settled.exists_declares h.hasNode

namespace Workspace

/-- The session can be gone on with. -/
structure Ready (graph : Graph) (session : Session) : Prop where
  sane : session.Sane graph
  idle : session.inFlight = []

/-- What a document of the workspace is like. -/
structure Belongs (workspace : Workspace) (id : DocumentId) (document : Document) : Prop where
  owner : document.id = id
  sound : document.Sound
  tabSize : document.tabSize = workspace.options.tabSize
  numbered : id.index < workspace.nextDocument

structure Synchronised (workspace : Workspace) : Prop where
  settled : workspace.graph.Settled
  belongs : ∀ id document, workspace.document? id = some document → workspace.Belongs id document
  mirrors : ∀ id document, workspace.document? id = some document → workspace.graph.Mirrors document
  present : ∀ path span, workspace.graph.Declares path span →
    ∃ document, workspace.document? path.document = some document
  opened : ∀ session, workspace.opened = some session → session.version ≤ workspace.version ∧
    (session.version = workspace.version → Ready workspace.graph session)

/-- The document that is added next. -/
def nextOfText (workspace : Workspace) (text : String) : Document :=
  .ofText ⟨workspace.nextDocument⟩ workspace.options.tabSize text

/-- What a request leaves behind. -/
structure Served (workspace next : Workspace) : Prop where
  synchronised : next.Synchronised
  options : next.options = workspace.options

variable {workspace next : Workspace}

theorem synchronised_empty (options : Options) : (empty options).Synchronised where
  settled := Graph.settled_empty
  belongs id document found := by simp [empty, document?] at found
  mirrors id document found := by simp [empty, document?] at found
  present path span declared := by
    obtain ⟨node, member, _⟩ := declared
    simp [empty, Graph.empty] at member
  opened session found := by simp [empty] at found

namespace Synchronised

/-- Every node belongs to a document that is there. -/
theorem exists_document (synchronised : workspace.Synchronised) {node : Node} (member : node ∈ workspace.graph.nodes) :
    ∃ document, workspace.document? node.path.document = some document := by
  obtain ⟨span, declared⟩ := synchronised.settled.exists_declares ⟨node, member, rfl⟩
  exact synchronised.present node.path span declared

section Change

/-- What comes of a change of one document: the others are as they were, and it is new or gone. -/
structure Revised (workspace : Workspace) (document : Document) (next : Workspace) : Prop where
  changed : Graph.Changed workspace.graph document next.graph
  options : next.options = workspace.options
  version : next.version = workspace.version + 1
  opened : next.opened = workspace.opened
  count : workspace.nextDocument ≤ next.nextDocument
  others : ∀ id, id ≠ document.id → next.document? id = workspace.document? id
  here : next.document? document.id = some document ∧ next.Belongs document.id document ∨
    next.document? document.id = none ∧ document.statements = []

/-- What comes of a change that is refused: lines that are counted and not kept. -/
def Refused (workspace : Workspace) (id : DocumentId) (next : Workspace) : Prop :=
  next = workspace ∨ ∃ document serial, workspace.document? id = some document ∧
    document.nextSerial ≤ serial ∧ next =
      { workspace with documents := workspace.documents.insert id { document with nextSerial := serial } }

theorem Belongs.later {id : DocumentId} {document : Document} (h : workspace.Belongs id document)
    (options : next.options = workspace.options) (count : workspace.nextDocument ≤ next.nextDocument) :
    next.Belongs id document :=
  ⟨h.owner, h.sound, options ▸ h.tabSize, Nat.lt_of_lt_of_le h.numbered count⟩

theorem synchronised_of_revised (synchronised : workspace.Synchronised) {document : Document}
    (revised : Revised workspace document next) : next.Synchronised where
  settled := revised.changed.settled
  belongs id other found := by
    by_cases here : id = document.id
    · subst here
      rcases revised.here with ⟨present, belongs⟩ | ⟨absent, _⟩
      · cases present.symm.trans found
        exact belongs
      · simp [absent] at found
    · rw [revised.others id here] at found
      exact Belongs.later (synchronised.belongs id other found) revised.options revised.count
  mirrors id other found := by
    by_cases here : id = document.id
    · subst here
      rcases revised.here with ⟨present, _⟩ | ⟨absent, _⟩
      · cases present.symm.trans found
        exact revised.changed.mirrors
      · simp [absent] at found
    · rw [revised.others id here] at found
      have owner := (synchronised.belongs id other found).owner
      have before := synchronised.mirrors id other found
      have apart {p : TypePath} (ours : p.document = other.id) : p.document ≠ document.id :=
        ours.trans owner ▸ here
      exact ⟨fun p s ours => (revised.changed.spares.declares p s (apart ours)).trans
          (before.declares p s ours),
        fun p subject source ours => (revised.changed.spares.asserts p subject source (apart ours)).trans
          (before.asserts p subject source ours)⟩
  present path span declared := by
    by_cases here : path.document = document.id
    · have said := (revised.changed.mirrors.declares path span here).mp declared
      rcases revised.here with ⟨present, _⟩ | ⟨_, blank⟩
      · exact ⟨document, here ▸ present⟩
      · obtain ⟨index, line, found, _⟩ := said
        simp [Document.get?, blank] at found
    · obtain ⟨other, found⟩ :=
        synchronised.present path span ((revised.changed.spares.declares path span here).mp declared)
      exact ⟨other, (revised.others _ here).trans found⟩
  opened session found := by
    have earlier := (synchronised.opened session (revised.opened ▸ found)).1
    rw [revised.version]
    exact ⟨by omega, fun same => by omega⟩

theorem revise (synchronised : workspace.Synchronised) {document : Document}
    (revised : Revised workspace document next) : Served workspace next :=
  ⟨synchronised.synchronised_of_revised revised, revised.options⟩

theorem add_revises (synchronised : workspace.Synchronised) (text : String) :
    Succeeds (workspace.add text) fun result => Revised workspace (workspace.nextOfText text) result.2 ∧
      result.2.documents = workspace.documents.insert ⟨workspace.nextDocument⟩ (workspace.nextOfText text) := by
  unfold add
  let id := DocumentId.mk workspace.nextDocument
  let document := workspace.nextOfText text
  have sound : document.Sound := Document.sound_ofText _ _ _
  have owner : document.id = id := by simp only [document, nextOfText, Document.ofText_eq, id]
  have tabSize : document.tabSize = workspace.options.tabSize := by
    simp only [document, nextOfText, Document.ofText_eq]
  have absent : workspace.document? id = none := by
    by_contra h
    obtain ⟨other, found⟩ := Option.ne_none_iff_exists'.mp h
    exact absurd (synchronised.belongs id other found).numbered (Nat.lt_irrefl _)
  have silent (path : TypePath) (ours : path.document = id) (span : SpanId) :
      ¬workspace.graph.Declares path span := by
    intro declared
    obtain ⟨other, found⟩ := synchronised.present path span declared
    simp [ours, absent] at found
  have mirrors : workspace.graph.Mirrors (document.replace []) := by
    refine ⟨fun p s ours => ?_, fun p subject source ours => ?_⟩
    · exact iff_of_false (silent p (ours.trans owner) s) (document.not_declares_replace_nil p s)
    · refine iff_of_false (fun asserted => ?_) (document.not_annotates_replace_nil p subject source)
      obtain ⟨span, declared⟩ := asserted.exists_declares synchronised.settled
      exact silent p (ours.trans owner) span declared
  refine (synchronised.settled.change_succeeds mirrors sound.replace_nil sound rfl rfl
    (Document.replaces_whole rfl)).bind fun graph changed => .pure ?_
  refine ⟨⟨show Graph.Changed workspace.graph document graph from changed, rfl, rfl, rfl, Nat.le_succ _, ?_, .inl ?_⟩, rfl⟩
  · intro other apart
    simp only [document?, OrderedMap.find?_insert]
    exact if_neg fun same => apart (same.trans owner.symm)
  · refine ⟨?_, rfl, sound, tabSize, ?_⟩
    · rw [document?, OrderedMap.find?_insert, owner]
      exact if_pos rfl
    · rw [owner]
      exact Nat.lt_succ_self _

theorem add_succeeds (synchronised : workspace.Synchronised) (text : String) :
    Succeeds (workspace.add text) fun result => Served workspace result.2 :=
  (synchronised.add_revises text).mono fun _ h => synchronised.revise h.1

/-- Only a document that is there is removed. -/
theorem remove_decides (synchronised : workspace.Synchronised) (id : DocumentId) :
    Succeeds (workspace.remove id) fun result => match result.1 with
      | .error _ => result.2 = workspace
      | .ok document => document.id = id ∧ Revised workspace (document.replace []) result.2 := by
  unfold remove documentOf
  cases found : workspace.document? id with
  | none => exact .pure rfl
  | some document =>
    have belongs := synchronised.belongs id document found
    refine (synchronised.settled.change_succeeds (synchronised.mirrors id document found)
      belongs.sound belongs.sound.replace_nil rfl rfl (Document.replaces_whole rfl)).bind
        fun graph changed => .pure ⟨belongs.owner, ?_⟩
    refine ⟨show Graph.Changed workspace.graph (document.replace []) graph from changed, rfl, rfl, rfl,
      Nat.le_refl _, fun other apart => ?_, .inr ⟨?_, rfl⟩⟩
    · simp only [document?, OrderedMap.find?_erase]
      exact if_neg fun same => apart (same.trans belongs.owner.symm)
    · simp only [document?, OrderedMap.find?_erase, Document.id_replace, belongs.owner, ↓reduceIte]

theorem remove_succeeds (synchronised : workspace.Synchronised) (id : DocumentId) :
    Succeeds (workspace.remove id) fun result => Served workspace result.2 := by
  refine (synchronised.remove_decides id).mono fun ⟨answer, next⟩ decided => ?_
  cases answer with
  | error reason =>
    cases decided
    exact ⟨synchronised, rfl⟩
  | ok document => exact synchronised.revise decided.2

/-- Counting lines that are not kept changes nothing. -/
theorem count (synchronised : workspace.Synchronised) {id : DocumentId} {document : Document}
    (found : workspace.document? id = some document) {serial : Nat} (later : document.nextSerial ≤ serial) :
    { workspace with
      documents := workspace.documents.insert id { document with nextSerial := serial } }.Synchronised where
  settled := synchronised.settled
  belongs other again present := by
    have belongs := synchronised.belongs id document found
    simp only [document?, OrderedMap.find?_insert] at present
    split at present
    · rename_i same
      cases present
      exact ⟨belongs.owner.trans same.symm, belongs.sound.counting later, belongs.tabSize,
        same ▸ belongs.numbered⟩
    · exact Belongs.later (synchronised.belongs other again present) rfl (Nat.le_refl _)
  mirrors other again present := by
    have mirrors := synchronised.mirrors id document found
    simp only [document?, OrderedMap.find?_insert] at present
    split at present
    · cases present
      exact ⟨mirrors.declares, mirrors.asserts⟩
    · exact synchronised.mirrors other again present
  present path span declared := by
    simp only [document?, OrderedMap.find?_insert]
    split
    · exact ⟨_, rfl⟩
    · exact synchronised.present path span declared
  opened := synchronised.opened

theorem refuse (synchronised : workspace.Synchronised) {id : DocumentId}
    (refused : Refused workspace id next) : Served workspace next := by
  rcases refused with rfl | ⟨document, serial, found, later, rfl⟩
  · exact ⟨synchronised, rfl⟩
  · exact ⟨synchronised.count found later, rfl⟩

/-- Either all edits are made, or none. -/
theorem edit_decides (synchronised : workspace.Synchronised) (id : DocumentId) (edits : List Edit) :
    Succeeds (workspace.edit id edits) fun result => match result.1 with
      | .error _ => Refused workspace id result.2
      | .ok () => ∃ document, document.id = id ∧ Revised workspace document result.2 := by
  unfold edit documentOf
  cases found : workspace.document? id with
  | none => exact .pure (.inl rfl)
  | some document =>
    have belongs := synchronised.belongs id document found
    have mirrors := synchronised.mirrors id document found
    obtain ⟨⟨serial, later, counted⟩, planned⟩ := belongs.sound.plan_spec edits
    have counting := belongs.sound.counting later
    simp only
    generalize document.plan edits = result at counted planned ⊢
    obtain ⟨plan, after⟩ := result
    obtain rfl : after = _ := counted
    cases plan with
    | error reason => exact .pure (.inr ⟨document, serial, found, later, rfl⟩)
    | ok plan =>
      have planned := (planned plan rfl).counting serial
      obtain ⟨oldRegion, newRegion, oldFound, newFound, replaces⟩ := planned.regions_succeed counting
      have before : workspace.graph.Mirrors { document with nextSerial := serial } :=
        ⟨mirrors.declares, mirrors.asserts⟩
      have same : ({ document with nextSerial := serial } : Document).id = id := belongs.owner
      refine (synchronised.settled.change_succeeds before counting planned.sound oldFound newFound
        replaces).bind fun graph changed => .pure
          ⟨({ document with nextSerial := serial } : Document).replace plan.statements, same, ?_⟩
      refine ⟨changed, rfl, rfl, rfl, Nat.le_refl _, fun other apart => ?_, .inl ?_⟩
      · simp only [document?, OrderedMap.find?_insert]
        exact if_neg fun here => apart (here.trans same.symm)
      · refine ⟨?_, rfl, planned.sound, belongs.tabSize, ?_⟩
        · simp only [document?, OrderedMap.find?_insert, Document.id_replace]
          exact if_pos belongs.owner
        · exact same ▸ belongs.numbered

theorem edit_succeeds (synchronised : workspace.Synchronised) (id : DocumentId) (edits : List Edit) :
    Succeeds (workspace.edit id edits) fun result => Served workspace result.2 := by
  refine (synchronised.edit_decides id edits).mono fun ⟨answer, next⟩ decided => ?_
  cases answer with
  | error reason => exact synchronised.refuse decided
  | ok _ =>
    obtain ⟨document, _, revised⟩ := decided
    exact synchronised.revise revised

end Change

section Query

theorem ready_session (synchronised : workspace.Synchronised) :
    Ready workspace.graph workspace.session ∧ workspace.session.version = workspace.version := by
  have calm := Session.calm_prepare (workspace.session?.getD (.empty workspace.version)) workspace.scene
  unfold session
  cases found : workspace.session? with
  | none =>
    rw [found] at calm
    exact ⟨⟨calm.sane (Session.sane_empty _), calm.inFlight⟩, calm.version⟩
  | some session =>
    rw [found] at calm
    obtain ⟨opened, version⟩ := Option.filter_eq_some_iff.mp found
    have ready := (synchronised.opened session opened).2 (of_decide_eq_true version)
    exact ⟨⟨calm.sane ready.sane, calm.inFlight.trans ready.idle⟩,
      calm.version.trans (of_decide_eq_true version)⟩

/-- A session of the current version that is ready may be the one that is open. -/
theorem open_ (synchronised : workspace.Synchronised) {session : Session}
    (ready : Ready workspace.graph session) (version : session.version = workspace.version) :
    { workspace with opened := some session }.Synchronised where
  settled := synchronised.settled
  belongs id document found :=
    Belongs.later (synchronised.belongs id document found) rfl (Nat.le_refl _)
  mirrors := synchronised.mirrors
  present := synchronised.present
  opened other found := by
    cases found
    exact ⟨Nat.le_of_eq version, fun _ => ready⟩

theorem resolve_succeeds (synchronised : workspace.Synchronised) (path : TypePath) :
    Succeeds (workspace.resolve path) fun result => Served workspace result.2 := by
  obtain ⟨ready, version⟩ := synchronised.ready_session
  unfold resolve
  have sane : workspace.session.Sane workspace.scene.graph := ready.sane
  refine (sane.drill_succeeds synchronised.settled.toCoherent ready.idle path).bind fun result h => .pure ?_
  obtain ⟨sane, grows⟩ := h
  exact ⟨synchronised.open_ ⟨sane, grows.inFlight.trans ready.idle⟩ (grows.version.trans version), rfl⟩

theorem served_faults (synchronised : workspace.Synchronised) : Served workspace workspace.faults.2 := by
  obtain ⟨ready, version⟩ := synchronised.ready_session
  exact ⟨synchronised.open_ ready version, rfl⟩

theorem drill_succeeds (synchronised : workspace.Synchronised) (document : DocumentId) (text : String) :
    Succeeds (workspace.drill document text) fun result => Served workspace result.2 := by
  unfold drill
  cases workspace.path document text with
  | error reason => exact .pure ⟨synchronised, rfl⟩
  | ok path => exact (synchronised.resolve_succeeds path).bind fun result h => .pure h

end Query

theorem serve_succeeds (synchronised : workspace.Synchronised) (request : Request) :
    Succeeds (workspace.serve request) (Served workspace) := by
  cases request with
  | add text => exact (synchronised.add_succeeds text).bind fun _ h => .pure h
  | remove document => exact (synchronised.remove_succeeds document).bind fun _ h => .pure h
  | edit document edits => exact (synchronised.edit_succeeds document edits).bind fun _ h => .pure h
  | path document text => exact .ok ⟨synchronised, rfl⟩
  | drill document text => exact (synchronised.drill_succeeds document text).bind fun _ h => .pure h
  | resolve path => exact (synchronised.resolve_succeeds path).bind fun _ h => .pure h
  | worker => exact .ok synchronised.served_faults
  | session => exact .ok ⟨synchronised, rfl⟩
  | faults => exact .ok synchronised.served_faults

theorem serveAll_succeeds (synchronised : workspace.Synchronised) (requests : List Request) :
    Succeeds (workspace.serveAll requests) (Served workspace) :=
  Succeeds.foldlM_of_forall (Served workspace) ⟨synchronised, rfl⟩ fun request _ _ served =>
    (served.synchronised.serve_succeeds request).mono fun _ h => ⟨h.synchronised, h.options.trans served.options⟩

end Synchronised

/-- Every history of a new workspace ends well. -/
theorem history_succeeds (options : Options) (requests : List Request) :
    Succeeds ((empty options).serveAll requests) (Served (empty options)) :=
  (synchronised_empty options).serveAll_succeeds requests

end Workspace
end OutlineTypes
