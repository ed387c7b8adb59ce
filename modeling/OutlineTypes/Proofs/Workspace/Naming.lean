import OutlineTypes.Proofs.Document.Grammar
import OutlineTypes.Proofs.TypePath
import OutlineTypes.Proofs.Workspace.Content
import OutlineTypes.Proofs.Workspace.DrillOrder

/-! Naming. What is declared has a path, and the text of the path names it again as long as none of its names has
white space at an end. A line takes spaces, tabs and carriage returns off the names it declares, and a written path
all white space there is. -/
namespace OutlineTypes

/-- A path that is declared has no empty name. -/
theorem Document.Sound.filled_of_declares {document : Document} (sound : document.Sound) {path : TypePath}
    {span : SpanId} (declares : document.Declares path span) : "" ∉ path.names := by
  have filled {index : Nat} {declared : Span} (member : declared ∈ document.declarationsAt index) :
      declared.subject ≠ "" := by
    unfold declarationsAt at member
    split at member
    · contradiction
    · rename_i line found
      rw [sound.read line (List.mem_of_getElem? found)] at member
      exact Statement.ne_empty_of_declared member
  obtain ⟨index, line, found, _, declared, among, _, spine, factored, rfl⟩ := declares
  obtain ⟨above, chosen, rfl⟩ := List.mem_map.mp factored
  have here : declared ∈ document.declarationsAt index := by
    rw [declarationsAt, found]
    exact among
  rw [Spine.names_path, List.mem_append, List.mem_map, List.mem_singleton]
  rintro (⟨rib, member, blank⟩ | blank)
  · obtain ⟨place, listed⟩ := List.mem_iff_getElem?.mp member
    obtain ⟨declarations, at_, inside⟩ := exists_getElem?_right (mem_choices.mp chosen) listed
    obtain ⟨outer, _, rfl⟩ := List.mem_map.mp (List.mem_of_getElem? at_)
    exact filled inside blank
  · exact filled here blank.symm

namespace Workspace

variable {workspace : Workspace}

/-- What the text of a path names. -/
structure Addresses (workspace : Workspace) (path : TypePath) : Prop where
  reads : ∀ again, workspace.path path.document path.text = .ok again ↔
    again.document = path.document ∧ again.names = path.names.map TypePath.trimmed ∧ "" ∉ again.names
  itself : workspace.path path.document path.text = .ok path ↔ ∀ name ∈ path.names, ¬TypePath.Padded name
  reaches : (∀ name ∈ path.names, ¬TypePath.Padded name) → ∃ answer next,
    workspace.drill path.document path.text = .ok (.ok answer, next) ∧ workspace.resolve path = .ok (answer, next) ∧
      Session.Finds workspace.scene workspace.session next.session path answer

theorem path_eq_ok_iff {document : DocumentId} {text : String} {path : TypePath}
    (known : (workspace.document? document).isSome) :
    workspace.path document text = .ok path ↔ TypePath.parse? document text = some path := by
  obtain ⟨found, present⟩ := Option.isSome_iff_exists.mp known
  have document_of : workspace.documentOf document = .ok found := by rw [documentOf, present]
  rw [Workspace.path, document_of, ok_bind]
  cases TypePath.parse? document text with
  | none => simp
  | some other =>
    exact ⟨fun same => congrArg some (Except.ok.inj same), fun same => congrArg Except.ok (Option.some.inj same)⟩

theorem Synchronised.addresses (synchronised : workspace.Synchronised) (rested : workspace.Rested) {node : Node}
    (member : node ∈ workspace.graph.nodes) (whole : ∀ name ∈ node.path.names, '/' ∉ name.toList) :
    workspace.Addresses node.path := by
  obtain ⟨document, found⟩ := synchronised.exists_document member
  have belongs := synchronised.belongs _ document found
  obtain ⟨span, declared⟩ := synchronised.settled.exists_declares ⟨node, member, rfl⟩
  have filled : "" ∉ node.path.names := belongs.sound.filled_of_declares
    (((synchronised.mirrors _ document found).declares node.path span belongs.owner.symm).mp declared)
  have known : (workspace.document? node.path.document).isSome := Option.isSome_of_eq_some found
  have itself : workspace.path node.path.document node.path.text = .ok node.path ↔
      ∀ name ∈ node.path.names, ¬TypePath.Padded name :=
    (path_eq_ok_iff known).trans (TypePath.parse?_text_iff whole filled)
  refine ⟨fun again => ?_, itself, fun plain => ?_⟩
  · rw [path_eq_ok_iff known, TypePath.parse?_eq_some_iff, TypePath.segments_text whole]
  · obtain ⟨⟨answer, next⟩, resolved, _, resumes, answers⟩ :=
      (synchronised.resolve_succeeds node.path).and_ensures (synchronised.resolve_ensures rested node.path)
    have rest := resumes.rested.atRest_session.2
    rw [resumes.scene] at rest
    refine ⟨answer, next, ?_, resolved, answers.finds rest resumes.nodes⟩
    rw [drill, itself.mpr plain]
    simp only [resolved]
    rfl

/-- After any history the text of a path names what is declared at the path exactly if none of the names has white
space at an end, and then drilling the text finds what drilling the path finds. -/
theorem history_addresses_declared (options : Options) (requests : List Request) :
    ∃ workspace, (empty options).serveAll requests = .ok workspace ∧
      ∀ node ∈ workspace.graph.nodes, (∀ name ∈ node.path.names, '/' ∉ name.toList) →
        workspace.Addresses node.path := by
  obtain ⟨workspace, reached, synchronised, rested⟩ := history_rested options requests
  exact ⟨workspace, reached, fun _ => synchronised.addresses rested⟩

/-- A no-break space in front of a name is part of it where it is declared, and not where it is written as a path. -/
theorem unbroken_space_shows : ¬∀ options requests workspace, (empty options).serveAll requests = .ok workspace →
    ∀ node ∈ workspace.graph.nodes, (∀ name ∈ node.path.names, '/' ∉ name.toList) →
      workspace.path node.path.document node.path.text = .ok node.path := by
  intro same
  obtain ⟨workspace, reached, _⟩ := history_rested ⟨4, true⟩ [.add "\u00a0A"]
  have evaluated : ((empty ⟨4, true⟩).serveAll [.add "\u00a0A"]).map (fun workspace =>
      (workspace.graph.nodes.any (·.path = ⟨⟨0⟩, ["\u00a0A"], by decide⟩),
        (workspace.path ⟨0⟩ "\u00a0A").toOption)) = .ok (true, some ⟨⟨0⟩, ["A"], by decide⟩) := by
    decide +kernel
  rw [reached, Except.map, Except.ok.injEq, Prod.mk.injEq, List.any_eq_true] at evaluated
  obtain ⟨⟨node, member, path⟩, read⟩ := evaluated
  have named : node.path = ⟨⟨0⟩, ["\u00a0A"], by decide⟩ := of_decide_eq_true path
  have again := same _ _ workspace reached node member (by rw [named]; decide)
  rw [named] at again
  rw [toOption_eq_some_iff] at read
  have differs := again.symm.trans read
  exact absurd differs (by decide)

end Workspace
end OutlineTypes
