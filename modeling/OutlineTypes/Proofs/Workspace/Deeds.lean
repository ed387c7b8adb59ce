import OutlineTypes.Proofs.Graph.Copy
import OutlineTypes.Proofs.Workspace.Isolation
import OutlineTypes.Proofs.Workspace.Rest
import Mathlib.Logic.Equiv.Basic

/-! Deeds. What a history does to one document makes a history of its own. It comes to the same document, and the
graph lists the same for it in the same order, whatever else the first history does. -/
namespace OutlineTypes

/-- The names of documents once this one is the first. -/
def DocumentId.leading (id : DocumentId) : DocumentId → DocumentId := Equiv.swap id ⟨0⟩

theorem DocumentId.leading_injective (id : DocumentId) : id.leading.Injective := (Equiv.swap id ⟨0⟩).injective

@[simp] theorem DocumentId.leading_self (id : DocumentId) : id.leading id = ⟨0⟩ := Equiv.swap_apply_left id ⟨0⟩

/-- The number of documents that a request adds. -/
def Request.adds : Request → Nat
  | .add _ => 1
  | _ => 0

/-- What a request does to the document that is added after `count` others, as a request about the first
document. Nothing is done to a document before it is added. -/
def Request.deed? (id : DocumentId) (count : Nat) : Request → Option Request
  | .add text => if id.index = count then some (.add text) else none
  | .remove other => if other = id ∧ id.index < count then some (.remove ⟨0⟩) else none
  | .edit other edits => if other = id ∧ id.index < count then some (.edit ⟨0⟩ edits) else none
  | _ => none

namespace Workspace

/-- What requests do to one document, once `count` documents were added. -/
def deeds (id : DocumentId) (count : Nat) : List Request → List Request
  | [] => []
  | request :: rest => (request.deed? id count).toList ++ deeds id (count + request.adds) rest

/-- The other workspace has a copy of the document, if that is there, and of no other document. -/
structure Kin (id : DocumentId) (workspace solo : Workspace) : Prop where
  options : solo.options = workspace.options
  documents : solo.documents.entries =
    ((workspace.document? id).map fun document => (⟨0⟩, document.rename id.leading)).toList
  listing : Listing.Copies id.leading_injective id workspace.graph.listing solo.graph.listing
  count : solo.nextDocument = if id.index < workspace.nextDocument then 1 else 0

variable {workspace solo next : Workspace} {id other : DocumentId}

theorem kin_empty (options : Options) (id : DocumentId) : Kin id (empty options) (empty options) :=
  ⟨rfl, rfl, ⟨fun _ _ => rfl, fun _ _ => rfl⟩, rfl⟩

section Elsewhere

/-- The document and its part of the graph are as they were. -/
structure Untouched (id : DocumentId) (workspace next : Workspace) : Prop where
  options : next.options = workspace.options
  document : next.document? id = workspace.document? id
  intact : Graph.Intact id workspace.graph next.graph
  count : id.index < next.nextDocument ↔ id.index < workspace.nextDocument

theorem Untouched.refl (id : DocumentId) (workspace : Workspace) : Untouched id workspace workspace :=
  ⟨rfl, rfl, .refl id workspace.graph, .rfl⟩

theorem Kin.untouched (kin : Kin id workspace solo) (untouched : Untouched id workspace next) : Kin id next solo where
  options := kin.options.trans untouched.options.symm
  documents := untouched.document ▸ kin.documents
  listing := by
    refine ⟨fun path ours => ?_, fun path ours => ?_⟩
    · rw [(untouched.intact.listing ours).1, kin.listing.declarations path ours]
    · rw [(untouched.intact.listing ours).2, kin.listing.annotations path ours]
  count := by simp only [kin.count, untouched.count]

theorem document?_insert_of_ne (documents : Documents) (document : Document) (apart : id ≠ other) :
    (documents.insert other document).find? id = documents.find? id := by
  rw [OrderedMap.find?_insert, if_neg apart]

theorem nextDocument_of_serve (workspace : Workspace) (request : Request) :
    Ensures (workspace.serve request) fun next => next.nextDocument = workspace.nextDocument + request.adds := by
  intro next made
  cases request with
  | add text =>
    simp only [serve, add] at made
    obtain ⟨_, adding, made⟩ := exists_ok_of_bind made
    obtain ⟨_, _, added⟩ := exists_ok_of_bind adding
    cases added
    cases made
    rfl
  | remove other =>
    simp only [serve, remove] at made
    obtain ⟨_, removing, made⟩ := exists_ok_of_bind made
    cases made
    split at removing
    · cases removing
      rfl
    · obtain ⟨_, _, removed⟩ := exists_ok_of_bind removing
      cases removed
      rfl
  | edit other edits =>
    simp only [serve, edit] at made
    obtain ⟨_, editing, made⟩ := exists_ok_of_bind made
    cases made
    split at editing
    · cases editing
      rfl
    · split at editing
      · cases editing
        rfl
      · obtain ⟨_, _, edited⟩ := exists_ok_of_bind editing
        cases edited
        rfl
  | path | drill | resolve | worker | session | faults =>
    obtain ⟨opened, rfl⟩ := opens_of_asks rfl next made
    rfl

namespace Synchronised

variable (synchronised : workspace.Synchronised)
include synchronised

theorem add_untouched (text : String) (apart : id.index ≠ workspace.nextDocument) :
    Ensures (workspace.add text) fun result => Untouched id workspace result.2 := by
  have elsewhere : id ≠ ⟨workspace.nextDocument⟩ := fun same => apart (congrArg DocumentId.index same)
  intro result made
  have intact := synchronised.add_intact text elsewhere result made
  unfold add at made
  obtain ⟨graph, _, made⟩ := exists_ok_of_bind made
  cases made
  exact ⟨rfl, document?_insert_of_ne _ _ elsewhere, intact, by simp only; omega⟩

theorem remove_untouched (elsewhere : other = id → workspace.document? id = none) :
    Ensures (workspace.remove other) fun result => Untouched id workspace result.2 := by
  by_cases apart : id = other
  · simp only [remove, documentOf, ← apart, elsewhere apart.symm]
    exact .pure (.refl id workspace)
  intro result made
  have intact := synchronised.remove_intact apart result made
  unfold remove at made
  split at made
  · cases made
    exact ⟨rfl, rfl, intact, .rfl⟩
  · obtain ⟨graph, _, made⟩ := exists_ok_of_bind made
    cases made
    refine ⟨rfl, ?_, intact, .rfl⟩
    simp only [document?, OrderedMap.find?_erase, if_neg apart]

theorem edit_untouched (edits : List Edit) (elsewhere : other = id → workspace.document? id = none) :
    Ensures (workspace.edit other edits) fun result => Untouched id workspace result.2 := by
  by_cases apart : id = other
  · simp only [edit, documentOf, ← apart, elsewhere apart.symm]
    exact .pure (.refl id workspace)
  intro result made
  have intact := synchronised.edit_intact edits apart result made
  unfold edit at made
  split at made
  · cases made
    exact ⟨rfl, rfl, intact, .rfl⟩
  · simp only at made
    split at made
    · cases made
      exact ⟨rfl, document?_insert_of_ne _ _ apart, intact, .rfl⟩
    · obtain ⟨graph, _, made⟩ := exists_ok_of_bind made
      cases made
      exact ⟨rfl, document?_insert_of_ne _ _ apart, intact, .rfl⟩

end Synchronised

end Elsewhere

section Here

namespace Kin

variable (kin : Kin id workspace solo)
include kin

theorem document? : solo.document? ⟨0⟩ = (workspace.document? id).map (Document.rename id.leading) := by
  have entries := kin.documents
  simp only [Workspace.document?, OrderedMap.find?, entries]
  cases workspace.documents.entries.find? (·.1 = id) <;> rfl

/-- A copy of the document takes the place of the one before. -/
theorem entries_insert (document : Document) : (solo.documents.insert ⟨0⟩ document).entries = [(⟨0⟩, document)] := by
  have entries := kin.documents
  simp only [OrderedMap.insert, entries]
  cases workspace.document? id with
  | none => rfl
  | some old => simp [OrderedMap.put]

theorem entries_erase : (solo.documents.erase ⟨0⟩).entries = [] := by
  have entries := kin.documents
  simp only [OrderedMap.erase, OrderedMap.filter, entries]
  cases workspace.document? id <;> simp

variable (synchronised : workspace.Synchronised) (again : solo.Synchronised)
include synchronised again

theorem add (text : String) (next : id.index = workspace.nextDocument) :
    Lockstep (fun result other => Kin id result.2 other.2) (workspace.add text) (solo.add text) := by
  have first : solo.nextDocument = 0 := by rw [kin.count, if_neg (by omega)]
  have name : id = ⟨workspace.nextDocument⟩ := congrArg DocumentId.mk next
  have texts : Document.ofText ⟨0⟩ solo.options.tabSize text =
      (Document.ofText id workspace.options.tabSize text).rename id.leading := by
    rw [Document.rename_ofText, DocumentId.leading_self, kin.options]
  have owner : (Document.ofText id workspace.options.tabSize text).id = id := by
    simp only [Document.ofText_eq]
  unfold Workspace.add
  simp only [first, texts, ← name]
  generalize Document.ofText id workspace.options.tabSize text = document at owner
  have copies := synchronised.settled.change_copies again.settled (show (document.replace []).id = id from owner) owner
    kin.listing []
  refine copies.bind fun graph other listing => .pure ⟨kin.options, ?_, listing, ?_⟩
  · simp only [kin.entries_insert, Workspace.document?, OrderedMap.find?_insert, ↓reduceIte, Option.map_some,
      Option.toList_some]
  · simp [next]

theorem remove :
    Lockstep (fun result other => Kin id result.2 other.2) (workspace.remove id) (solo.remove ⟨0⟩) := by
  unfold Workspace.remove documentOf
  rw [kin.document?]
  cases found : workspace.document? id with
  | none => exact .pure kin
  | some document =>
    have owner := (synchronised.belongs id document found).owner
    have copies := synchronised.settled.change_copies again.settled owner
      (show (document.replace []).id = id from owner) kin.listing []
    refine copies.bind fun graph other listing => .pure ⟨kin.options, ?_, listing, kin.count⟩
    simp only [kin.entries_erase, Workspace.document?, OrderedMap.find?_erase, ↓reduceIte, Option.map_none,
      Option.toList_none]

theorem edit (edits : List Edit) :
    Lockstep (fun result other => Kin id result.2 other.2) (workspace.edit id edits) (solo.edit ⟨0⟩ edits) := by
  unfold Workspace.edit documentOf
  rw [kin.document?]
  cases found : workspace.document? id with
  | none => exact .pure kin
  | some document =>
    have belongs := synchronised.belongs id document found
    obtain ⟨⟨serial, _, counts⟩, _⟩ := belongs.sound.plan_spec edits
    have after : (document.plan edits).2.id = id := counts ▸ belongs.owner
    simp only [Option.map_some, Document.plan_rename id.leading_injective]
    clear counts
    generalize (document.plan edits).2 = counted at after ⊢
    cases (document.plan edits).1 with
    | error reason =>
      refine .pure ⟨kin.options, ?_, kin.listing, kin.count⟩
      simp only [kin.entries_insert, Workspace.document?, OrderedMap.find?_insert, ↓reduceIte, Option.map_some,
        Option.toList_some]
    | ok plan =>
      have copies := synchronised.settled.change_copies again.settled after
        (show (counted.replace plan.statements).id = id from after) kin.listing plan.parents
      refine copies.bind fun graph other listing => .pure ⟨kin.options, ?_, listing, kin.count⟩
      simp only [kin.entries_insert, Workspace.document?, OrderedMap.find?_insert, ↓reduceIte, Option.map_some,
        Option.toList_some]
      rfl

theorem serve (request : Request) : Lockstep (Kin id) (workspace.serve request)
    (solo.serveAll (request.deed? id workspace.nextDocument).toList) := by
  -- The document is not there before it is added.
  have unknown (early : ¬id.index < workspace.nextDocument) : workspace.document? id = none := by
    by_contra known
    obtain ⟨document, found⟩ := Option.ne_none_iff_exists'.mp known
    exact early (synchronised.belongs id document found).numbered
  have alone {run : Except Fatal Workspace} (untouched : Ensures run (Untouched id workspace)) :
      Lockstep (Kin id) run (solo.serveAll []) :=
    .of_ensures untouched (.ok rfl) fun _ _ untouched same => same ▸ kin.untouched untouched
  have single (deed : Request) : solo.serveAll [deed] = solo.serve deed := by
    rw [serveAll, List.foldlM_cons]
    cases solo.serve deed <;> rfl
  cases request with
  | add text =>
    by_cases here : id.index = workspace.nextDocument
    · simp only [Request.deed?, if_pos here, Option.toList_some, single]
      exact (kin.add synchronised again text here).bind fun _ _ kin => .pure kin
    · simp only [Request.deed?, if_neg here, Option.toList_none]
      exact alone ((synchronised.add_untouched text here).bind fun _ h => .pure h)
  | remove other =>
    by_cases here : other = id ∧ id.index < workspace.nextDocument
    · simp only [Request.deed?, if_pos here, Option.toList_some, single]
      rw [here.1]
      exact (kin.remove synchronised again).bind fun _ _ kin => .pure kin
    · simp only [Request.deed?, if_neg here, Option.toList_none]
      have elsewhere (same : other = id) := unknown fun early => here ⟨same, early⟩
      exact alone ((synchronised.remove_untouched elsewhere).bind fun _ h => .pure h)
  | edit other edits =>
    by_cases here : other = id ∧ id.index < workspace.nextDocument
    · simp only [Request.deed?, if_pos here, Option.toList_some, single]
      rw [here.1]
      exact (kin.edit synchronised again edits).bind fun _ _ kin => .pure kin
    · simp only [Request.deed?, if_neg here, Option.toList_none]
      have elsewhere (same : other = id) := unknown fun early => here ⟨same, early⟩
      exact alone ((synchronised.edit_untouched edits elsewhere).bind fun _ h => .pure h)
  | path | drill | resolve | worker | session | faults =>
    refine alone ((opens_of_asks rfl).mono fun next h => ?_)
    obtain ⟨opened, rfl⟩ := h
    exact ⟨rfl, rfl, .refl id workspace.graph, .rfl⟩

theorem serveAll (requests : List Request) : ∃ next last, workspace.serveAll requests = .ok next ∧
    solo.serveAll (deeds id workspace.nextDocument requests) = .ok last ∧ Kin id next last := by
  induction requests generalizing workspace solo with
  | nil => exact ⟨workspace, solo, rfl, rfl, kin⟩
  | cons request rest ih =>
    obtain ⟨mid, made, served⟩ := synchronised.serve_succeeds request
    obtain ⟨between, madeToo, servedToo⟩ :=
      again.serveAll_succeeds (request.deed? id workspace.nextDocument).toList
    have kinNow := kin.serve synchronised again request mid between made madeToo
    have count := nextDocument_of_serve workspace request mid made
    obtain ⟨next, last, reached, reachedToo, kinThen⟩ := ih kinNow served.synchronised servedToo.synchronised
    refine ⟨next, last, ?_, ?_, kinThen⟩
    · rw [Workspace.serveAll, List.foldlM_cons, made]
      exact reached
    · rw [deeds, Workspace.serveAll, List.foldlM_append]
      rw [Workspace.serveAll] at madeToo
      rw [madeToo, ← count]
      exact reachedToo

end Kin

end Here

/-- What a history does to one document comes to the same on its own. -/
theorem history_kin (options : Options) (id : DocumentId) (requests : List Request) :
    ∃ workspace solo, (empty options).serveAll requests = .ok workspace ∧
      (empty options).serveAll (deeds id 0 requests) = .ok solo ∧ Kin id workspace solo :=
  (kin_empty options id).serveAll (synchronised_empty options) (synchronised_empty options) requests

end Workspace

end OutlineTypes
