import OutlineTypes.Proofs.Workspace.Content
import OutlineTypes.Proofs.Workspace.Drilled

/-! Twin workspaces. A document of one workspace and a like document that another workspace has alone make twins of
their scenes, if the graphs list what is of these documents in the same order. -/
namespace OutlineTypes

/-- An element with a key of its own is the only one with this key. -/
theorem filter_key_eq_singleton [DecidableEq κ] {key : α → κ} {xs : List α} (distinct : (xs.map key).Nodup) {x : α}
    (member : x ∈ xs) : xs.filter (fun y => key x = key y) = [x] := by
  induction xs with
  | nil => contradiction
  | cons y xs ih =>
    rw [List.map_cons, List.nodup_cons] at distinct
    rcases List.mem_cons.mp member with rfl | later
    · rw [List.filter_cons_of_pos (by simp), List.filter_eq_nil_iff.mpr]
      intro z among
      rw [decide_eq_true_iff]
      exact fun same => distinct.1 (same ▸ List.mem_map_of_mem among)
    · have apart : key x ≠ key y := fun same => distinct.1 (same ▸ List.mem_map_of_mem later)
      rw [List.filter_cons_of_neg (by simpa using apart), ih distinct.2 later]

/-- What declares a path stands in the document of the path. -/
theorem Document.Sound.owner_of_declares {document : Document} (sound : document.Sound) {path : TypePath}
    {span : SpanId} (declares : document.Declares path span) : span.statement.document = path.document := by
  rw [document_of_declares declares]
  obtain ⟨index, line, found, _, declared, among, rfl, _⟩ := declares
  have member := List.mem_of_getElem? found
  rw [sound.statement_of_declared member among, (sound.owned line member).1]

theorem Document.Sound.owner_of_annotates {document : Document} (sound : document.Sound) {path : TypePath}
    {subject : Name} {source : SpanId} (annotates : document.Annotates path subject source) :
    source.statement.document = path.document := by
  rw [document_of_annotates annotates]
  obtain ⟨index, line, found, _, _, gloss, among, _, rfl⟩ := annotates
  have member := List.mem_of_getElem? found
  rw [sound.statement_of_annotated member among, (sound.owned line member).1]

theorem Document.misindented_filter (documents : List Document) (keep : DocumentId → Bool) :
    (documents.flatMap Document.misindented).filter (fun place => keep place.1.id) =
      (documents.filter fun document => keep document.id).flatMap Document.misindented := by
  induction documents with
  | nil => rfl
  | cons document documents ih =>
    have all : document.misindented.filter (fun place => keep place.1.id) =
        if keep document.id then document.misindented else [] := by
      have owner (place : Document × Statement) (listed : place ∈ document.misindented) : place.1 = document := by
        obtain ⟨line, _, rfl⟩ := List.mem_map.mp listed
        rfl
      split
      · exact List.filter_eq_self.mpr fun place listed => by rwa [owner place listed]
      · exact List.filter_eq_nil_iff.mpr fun place listed => by rwa [owner place listed]
    rw [List.flatMap_cons, List.filter_append, ih, all, List.filter_cons]
    split <;> rfl

theorem Document.misindented_of_empty {document : Document} (nothing : document.statements = []) :
    document.misindented = [] := by
  rw [misindented, nothing]
  rfl

namespace Workspace

variable {workspace other : Workspace} {document twin : Document}

/-- The workspace has the document. One without lines need not be there. -/
def Offers (workspace : Workspace) (document : Document) : Prop :=
  workspace.document? document.id = some document ∨
    workspace.document? document.id = none ∧ document.statements = []

/-- The workspace has the document, and no other one. -/
def OffersOnly (workspace : Workspace) (document : Document) : Prop :=
  workspace.documents.values = [document] ∨ workspace.documents.values = [] ∧ document.statements = []

theorem Offers.document? (offers : workspace.Offers document) (lines : document.statements ≠ []) :
    workspace.document? document.id = some document := by
  rcases offers with found | ⟨_, nothing⟩
  · exact found
  · contradiction

namespace Synchronised

variable (synchronised : workspace.Synchronised) (offers : workspace.Offers document)
include synchronised

theorem offers_of_only (only : workspace.OffersOnly document) : workspace.Offers document := by
  rcases only with single | ⟨none, nothing⟩
  · exact .inl (synchronised.document?_of_mem (single ▸ List.mem_singleton_self _))
  · refine .inr ⟨?_, nothing⟩
    refine Option.eq_none_iff_forall_ne_some.mpr fun found present => ?_
    have listed := (OrderedMap.mem_values_iff _ _).mpr ⟨_, present⟩
    rw [none] at listed
    contradiction

include offers

theorem shows : workspace.graph.Shows [document] where
  settled := synchronised.settled
  distinct := List.nodup_singleton _
  sound := by
    rw [List.forall_mem_singleton]
    rcases offers with found | ⟨_, nothing⟩
    · exact (synchronised.belongs _ document found).sound
    · constructor <;> simp [nothing]
  mirrors := by
    rw [List.forall_mem_singleton]
    rcases offers with found | ⟨absent, nothing⟩
    · exact synchronised.mirrors _ document found
    · have bare {index : Nat} {line : Statement} : document.get? index ≠ some line := by
        simp [Document.get?, nothing]
      have lacks (path : TypePath) (ours : path.document = document.id) (span : SpanId) :
          ¬workspace.graph.Declares path span := by
        intro declared
        obtain ⟨found, present⟩ := synchronised.present path span declared
        rw [ours, absent] at present
        contradiction
      constructor
      · intro path span ours
        refine iff_of_false (lacks path ours span) ?_
        rintro ⟨index, line, found, _⟩
        exact bare found
      · intro path subject source ours
        refine iff_of_false (fun asserted => ?_) ?_
        · obtain ⟨span, declared⟩ := asserted.exists_declares synchronised.settled
          exact lacks path ours span declared
        · rintro ⟨index, line, found, _⟩
          exact bare found

theorem misindented_eq : (Session.misindented workspace.documents).filter
    (fun place => Graph.Pairing.Covers [(document, twin)] place.1.id) = document.misindented := by
  have values := Document.misindented_filter workspace.documents.values fun id => document.id = id
  have covers (id : DocumentId) : Graph.Pairing.Covers [(document, twin)] id ↔ document.id = id := by
    simp [Graph.Pairing.Covers]
  simp only [covers]
  refine values.trans ?_
  rcases offers with found | ⟨absent, nothing⟩
  · have listed := (OrderedMap.mem_values_iff _ _).mpr ⟨_, found⟩
    rw [filter_key_eq_singleton synchronised.portrays.distinct listed, List.flatMap_singleton]
  · rw [Document.misindented_of_empty nothing, List.filter_eq_nil_iff.mpr, List.flatMap_nil]
    intro again listed
    have present := synchronised.document?_of_mem listed
    simp only [decide_eq_true_iff]
    intro same
    rw [← same, absent] at present
    contradiction

omit offers in
theorem apart (pairs : Graph.Pairing) : pairs.Apart workspace.graph where
  declarations node member elsewhere span declared := by
    have declares := (synchronised.settled.declares_iff_mem_declarations member).mpr declared
    obtain ⟨document, listed, said⟩ := (synchronised.declares_iff _ _).mp declares
    have sound := (synchronised.belongs _ _ (synchronised.document?_of_mem listed)).sound
    rwa [sound.owner_of_declares said]
  sources edge listed elsewhere span among := by
    obtain ⟨node, member, leaves⟩ := synchronised.settled.predecessors edge listed
    have asserts := (synchronised.settled.asserts_iff_mem_sources listed member leaves.symm).mpr among
    obtain ⟨document, present, said⟩ := (synchronised.asserts_iff _ _ _).mp asserts
    have sound := (synchronised.belongs _ _ (synchronised.document?_of_mem present)).sound
    have framed := synchronised.settled.toFramed
    rw [framed.mem_pairing_edges_iff listed member leaves] at elsewhere
    rwa [sound.owner_of_annotates said]

end Synchronised

/-- Like documents that two workspaces have make a pairing of their graphs. -/
theorem Synchronised.paired (synchronised : workspace.Synchronised) (again : other.Synchronised)
    (offers : workspace.Offers document) (offersToo : other.Offers twin) (like : Document.Likewise document twin) :
    Graph.Paired [(document, twin)] workspace.graph other.graph :=
  ⟨synchronised.shows offers, again.shows offersToo, by simpa using like⟩

theorem Synchronised.twinScenes (synchronised : workspace.Synchronised) (again : other.Synchronised)
    (options : other.options = workspace.options) (offers : workspace.Offers document) (only : other.OffersOnly twin)
    (paired : Graph.Paired [(document, twin)] workspace.graph other.graph)
    (order : Graph.SameOrder [(document, twin)] workspace.graph other.graph) :
    TwinScenes [(document, twin)] workspace.scene other.scene where
  paired := paired
  order := order
  checks := congrArg Options.checksContracts options
  apart := synchronised.apart _
  sound _ listed := (synchronised.belongs _ _ (synchronised.document?_of_mem listed)).sound
  left := by
    rw [List.map_singleton, List.flatMap_singleton]
    exact synchronised.misindented_eq offers
  right := by
    rw [List.map_singleton, List.flatMap_singleton]
    rcases only with single | ⟨none, nothing⟩
    · exact (congrArg (List.flatMap Document.misindented) single).trans (List.flatMap_singleton _ _)
    · rw [Document.misindented_of_empty nothing]
      exact congrArg (List.flatMap Document.misindented) none
  findLeft := by
    rw [List.forall_mem_singleton]
    exact offers.document?
  findRight := by
    rw [List.forall_mem_singleton]
    exact (again.offers_of_only only).document?

end Workspace

end OutlineTypes
