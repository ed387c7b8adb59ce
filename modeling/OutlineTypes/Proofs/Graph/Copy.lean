import OutlineTypes.Proofs.Document.Renaming
import OutlineTypes.Proofs.Graph.Listing
import OutlineTypes.Proofs.Lockstep

/-! Copies of listings. What the lines of a document come to in a listing they come to under another name in a copy
of it, in the same order. -/
namespace OutlineTypes

variable {f : DocumentId → DocumentId} (injective : f.Injective)

namespace Glosses

def rename (glosses : Glosses) : Glosses :=
  glosses.map fun gloss => (gloss.1, gloss.2.image _ (SpanId.rename_injective injective))

theorem add_rename (glosses : Glosses) (gloss : Span) :
    (glosses.rename injective).add (gloss.rename f).subject (gloss.rename f).id =
      (glosses.add gloss.subject gloss.id).rename injective := by
  have subject : (gloss.rename f).subject = gloss.subject := rfl
  have id : (gloss.rename f).id = gloss.id.rename f := rfl
  have known : (glosses.rename injective).any (·.1 = gloss.subject) = glosses.any (·.1 = gloss.subject) := by
    simp [rename, List.any_map, Function.comp_def]
  unfold add
  rw [subject, known, id]
  split
  · simp only [rename, List.map_map]
    refine List.map_congr_left fun other _ => ?_
    by_cases here : other.1 = gloss.subject <;> simp [here, OrderedSet.image_insert]
  · have single : OrderedSet.ofList [gloss.id.rename f] =
        (OrderedSet.ofList [gloss.id]).image _ (SpanId.rename_injective injective) := by
      rw [OrderedSet.image_ofList]
      rfl
    simp only [rename, List.map_append, List.map_cons, List.map_nil, single]

theorem drop_rename (glosses : Glosses) (gloss : Span) :
    (glosses.rename injective).drop (gloss.rename f).subject (gloss.rename f).id =
      (glosses.drop gloss.subject gloss.id).rename injective := by
  have subject : (gloss.rename f).subject = gloss.subject := rfl
  have id : (gloss.rename f).id = gloss.id.rename f := rfl
  simp only [rename, drop, List.map_map, subject, id]
  refine List.map_congr_left fun other _ => ?_
  by_cases here : other.1 = gloss.subject <;> simp [here, OrderedSet.image_erase]

end Glosses

namespace Listing

/-- What is listed for the paths of the document is listed in the copy under their new names. -/
structure Copies (document : DocumentId) (listing copy : Listing) : Prop where
  declarations : ∀ path, path.document = document → copy.declarations (path.rename f) =
    (listing.declarations path).image _ (SpanId.rename_injective injective)
  annotations : ∀ path, path.document = document →
    copy.annotations (path.rename f) = (listing.annotations path).rename injective

variable {injective} {document : DocumentId} {listing copy : Listing} {path : TypePath}

/-- New spans for one path. -/
theorem Copies.redeclare (copies : Copies injective document listing copy) (path : TypePath)
    (spans : OrderedSet SpanId) :
    Copies injective document { listing with declarations := Function.update listing.declarations path spans }
      { copy with
        declarations := Function.update copy.declarations (path.rename f)
          (spans.image _ (SpanId.rename_injective injective)) } where
  declarations other ours := by
    simp only [Function.update_apply, (TypePath.rename_injective injective).eq_iff]
    split
    · rfl
    · exact copies.declarations other ours
  annotations := copies.annotations

/-- New annotations of one path. -/
theorem Copies.reannotate (copies : Copies injective document listing copy) (path : TypePath) (glosses : Glosses) :
    Copies injective document { listing with annotations := Function.update listing.annotations path glosses }
      { copy with
        annotations := Function.update copy.annotations (path.rename f) (glosses.rename injective) } where
  declarations := copies.declarations
  annotations other ours := by
    simp only [Function.update_apply, (TypePath.rename_injective injective).eq_iff]
    split
    · rfl
    · exact copies.annotations other ours

theorem Copies.declare (copies : Copies injective document listing copy) (ours : path.document = document)
    (span : SpanId) :
    Copies injective document (listing.declare path span) (copy.declare (path.rename f) (span.rename f)) := by
  unfold Listing.declare
  rw [copies.declarations path ours, ← OrderedSet.image_insert]
  exact copies.redeclare path _

theorem Copies.annotate (copies : Copies injective document listing copy) (ours : path.document = document)
    (gloss : Span) :
    Copies injective document (listing.annotate path gloss) (copy.annotate (path.rename f) (gloss.rename f)) := by
  unfold Listing.annotate
  rw [copies.annotations path ours, Glosses.add_rename]
  exact copies.reannotate path _

theorem Copies.detach (copies : Copies injective document listing copy) (ours : path.document = document)
    (gloss : Span) :
    Copies injective document (listing.detach path gloss) (copy.detach (path.rename f) (gloss.rename f)) := by
  unfold Listing.detach
  rw [copies.annotations path ours, Glosses.drop_rename]
  exact copies.reannotate path _

/-- Steps that keep copies are taken one after the other. -/
theorem Copies.foldl {steps : List α} {step : Listing → α → Listing} {again : Listing → β → Listing} {g : α → β}
    (copies : Copies injective document listing copy)
    (keeps : ∀ x ∈ steps, ∀ listing copy, Copies injective document listing copy →
      Copies injective document (step listing x) (again copy (g x))) :
    Copies injective document (steps.foldl step listing) ((steps.map g).foldl again copy) := by
  induction steps generalizing listing copy with
  | nil => exact copies
  | cons x steps ih =>
    rw [List.forall_mem_cons] at keeps
    exact ih (keeps.1 _ _ copies) keeps.2

theorem Copies.withdraw (copies : Copies injective document listing copy) {placement : Document.Placement}
    (ours : placement.path.document = document) :
    Copies injective document (listing.withdraw placement) (copy.withdraw (placement.rename f)) := by
  have erased : copy.declarations (placement.path.rename f) = _ := copies.declarations placement.path ours
  have start := copies.redeclare placement.path ((listing.declarations placement.path).erase placement.span.id)
  rw [OrderedSet.image_erase, ← erased] at start
  exact start.foldl fun gloss _ _ _ copies => copies.detach ours gloss

variable {whole : Document}

theorem Copies.annotateAll (copies : Copies injective document listing copy) (ours : path.document = document) :
    Copies injective document (listing.annotateAll whole path)
      (copy.annotateAll (whole.rename f) (path.rename f)) := by
  unfold Listing.annotateAll
  rw [copies.declarations path ours, OrderedSet.toList_image, Document.annotationsOf_rename injective]
  exact copies.foldl fun gloss _ _ _ copies => copies.annotate ours gloss

theorem Copies.excludeRegion (copies : Copies injective whole.id listing copy) (region : List Nat) :
    Copies injective whole.id (listing.excludeRegion whole region)
      (copy.excludeRegion (whole.rename f) region) := by
  have placements : region.flatMap (whole.rename f).placements =
      (region.flatMap whole.placements).map (Document.Placement.rename f) := by
    rw [List.map_flatMap]
    exact congrArg (region.flatMap ·) (funext fun index => Document.placements_rename index)
  unfold Listing.excludeRegion
  rw [placements]
  refine copies.foldl fun placement member _ _ copies => copies.withdraw ?_
  obtain ⟨index, _, among⟩ := List.mem_flatMap.mp member
  exact Document.document_of_mem_placements among

theorem Copies.includeRegion (copies : Copies injective whole.id listing copy) (region : List Nat) :
    Copies injective whole.id (listing.includeRegion whole region)
      (copy.includeRegion (whole.rename f) region) := by
  have placements : Graph.placementsOf (whole.rename f) region =
      (Graph.placementsOf whole region).map (Document.Placement.rename f) := by
    rw [Graph.placementsOf, Document.byDepth_rename, Graph.placementsOf, List.map_flatMap]
    exact congrArg ((whole.byDepth region).flatMap ·) (funext fun index => Document.placements_rename index)
  have ours : ∀ placement ∈ Graph.placementsOf whole region, placement.path.document = whole.id := by
    intro placement member
    obtain ⟨index, _, among⟩ := List.mem_flatMap.mp member
    exact Document.document_of_mem_placements among
  have paths : OrderedSet.ofList (((Graph.placementsOf whole region).map (Document.Placement.rename f)).map (·.path)) =
      (OrderedSet.ofList ((Graph.placementsOf whole region).map (·.path))).image _
        (TypePath.rename_injective injective) := by
    rw [OrderedSet.image_ofList, List.map_map, List.map_map]
    rfl
  unfold Listing.includeRegion
  simp only [placements, paths, OrderedSet.toList_image]
  refine Copies.foldl ?_ fun path member _ _ copies => copies.annotateAll ?_
  · exact copies.foldl fun placement member _ _ copies => copies.declare (ours placement member) placement.span.id
  · obtain ⟨placement, among, rfl⟩ := List.mem_map.mp (OrderedSet.mem_ofList.mp member)
    exact ours placement among

theorem Copies.dispose (copies : Copies injective document listing copy) :
    Copies injective document listing.dispose copy.dispose where
  declarations := copies.declarations
  annotations path ours := by
    have empty (spans : OrderedSet SpanId) :
        (spans.image _ (SpanId.rename_injective injective)).isEmpty = spans.isEmpty := by
      simp [OrderedSet.isEmpty]
    simp only [Listing.dispose, copies.declarations path ours, copies.annotations path ours, empty]
    split
    · rfl
    · simp only [Glosses.rename, List.filter_map, Function.comp_def, empty]

end Listing

variable {injective} in
/-- The same change under either name. -/
theorem Graph.Settled.change_copies {graph other : Graph} (settled : graph.Settled) (again : other.Settled)
    {document : DocumentId} {old new : Document} (owner : old.id = document) (same : new.id = document)
    (copies : Listing.Copies injective document graph.listing other.listing) (parents : List StatementId) :
    Lockstep (fun next last => Listing.Copies injective document next.listing last.listing)
      (graph.change old new parents)
      (other.change (old.rename f) (new.rename f) (parents.map (StatementId.rename f))) := by
  refine .of_ensures (settled.change_listing old new parents) (again.change_listing _ _ _) fun next last one two => ?_
  obtain ⟨before, after, region, regionNew, listing⟩ := one
  obtain ⟨beforeToo, afterToo, regionToo, regionNewToo, listingToo⟩ := two
  cases (Document.region_rename injective parents before region).symm.trans regionToo
  cases (Document.region_rename injective parents after regionNew).symm.trans regionNewToo
  rw [listing, listingToo]
  rw [← owner] at copies
  have excluded := copies.excludeRegion before
  rw [owner, ← same] at excluded
  rw [← same]
  exact (excluded.includeRegion after).dispose

end OutlineTypes
