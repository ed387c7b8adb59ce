import OutlineTypes.Graph
import OutlineTypes.Proofs.Document.Placement
import OutlineTypes.Proofs.Document.Plan

/-! What a document says: which spans declare a path, and which spans annotate it. Both are read off the
spines of its declarations; a region that is replaced takes and brings what its own lines say. -/
namespace OutlineTypes.Document

variable {document old new : Document}

/-- A line that takes part in the hierarchy has this declaration, and one of its spines this path. -/
def Declares (document : Document) (path : TypePath) (span : SpanId) : Prop :=
  ∃ index line, document.get? index = some line ∧ line.noop = false ∧
    ∃ declared ∈ line.declarations, declared.id = span ∧
      ∃ spine ∈ document.factor index declared, spine.path = path

/-- A line that declares the path has this annotation with this subject. -/
def Annotates (document : Document) (path : TypePath) (subject : Name) (source : SpanId) : Prop :=
  ∃ index line, document.get? index = some line ∧ line.noop = false ∧
    (∃ declared ∈ line.declarations, ∃ spine ∈ document.factor index declared, spine.path = path) ∧
    ∃ gloss ∈ line.annotations, gloss.subject = subject ∧ gloss.id = source

theorem declares_iff {path : TypePath} {span : SpanId} :
    document.Declares path span ↔ ∃ index, ∃ placement ∈ document.placements index,
      placement.path = path ∧ placement.span.id = span := by
  simp only [mem_placements_iff_factor]
  constructor
  · rintro ⟨index, line, found, noop, declared, among, rfl, spine, chosen, rfl⟩
    exact ⟨index, ⟨line, declared, spine.path⟩, ⟨found, noop, among, spine, chosen, rfl⟩, rfl, rfl⟩
  · rintro ⟨index, placement, ⟨found, noop, among, spine, chosen, same⟩, rfl, rfl⟩
    exact ⟨index, _, found, noop, _, among, rfl, spine, chosen, same⟩

theorem annotates_iff {path : TypePath} {subject : Name} {source : SpanId} :
    document.Annotates path subject source ↔ ∃ index, ∃ placement ∈ document.placements index,
      placement.path = path ∧ placement.Carries subject source := by
  simp only [mem_placements_iff_factor]
  constructor
  · rintro ⟨index, line, found, noop, ⟨declared, among, spine, chosen, rfl⟩, carries⟩
    exact ⟨index, ⟨line, declared, spine.path⟩, ⟨found, noop, among, spine, chosen, rfl⟩, rfl, carries⟩
  · rintro ⟨index, placement, ⟨found, noop, among, spine, chosen, same⟩, rfl, carries⟩
    exact ⟨index, _, found, noop, ⟨_, among, spine, chosen, same⟩, carries⟩

theorem document_of_declares {path : TypePath} {span : SpanId} (h : document.Declares path span) :
    path.document = document.id := by
  obtain ⟨index, placement, member, rfl, _⟩ := declares_iff.mp h
  exact document_of_mem_placements member

theorem Annotates.exists_declares {path : TypePath} {subject : Name} {source : SpanId}
    (h : document.Annotates path subject source) : ∃ span, document.Declares path span := by
  obtain ⟨index, line, found, noop, ⟨declared, among, spine⟩, _⟩ := h
  exact ⟨declared.id, index, line, found, noop, declared, among, rfl, spine⟩

/-- The path around a declared path is declared. -/
theorem Declares.exists_around {path outer : TypePath} {span : SpanId} (h : document.Declares path span)
    (inside : path.container? = some outer) : ∃ span, document.Declares outer span := by
  obtain ⟨index, placement, member, rfl, _⟩ := declares_iff.mp h
  obtain ⟨parent, _, around, among, rfl⟩ := exists_placement_of_container? member inside
  exact ⟨around.span.id, declares_iff.mpr ⟨parent, around, among, rfl, rfl⟩⟩

section Owners

variable {index other : Nat} {placement : Placement}

theorem mem_statements_of_placement (member : placement ∈ document.placements index) :
    placement.statement ∈ document.statements :=
  List.mem_of_getElem? (mem_placements_iff_factor.mp member).1

theorem Sound.index_of_span (sound : document.Sound) {again : Placement}
    (member : placement ∈ document.placements index) (among : again ∈ document.placements other)
    (same : placement.span.id = again.span.id) : index = other := by
  obtain ⟨here, _, declared, _⟩ := mem_placements_iff_factor.mp member
  obtain ⟨there, _, declaredAgain, _⟩ := mem_placements_iff_factor.mp among
  refine sound.index_unique here there ?_
  rw [← sound.statement_of_declared (mem_statements_of_placement member) declared,
    ← sound.statement_of_declared (mem_statements_of_placement among) declaredAgain, same]

theorem Sound.index_of_source (sound : document.Sound) {again : Placement} {source : SpanId}
    {subject name : Name} (member : placement ∈ document.placements index)
    (among : again ∈ document.placements other) (carries : placement.Carries subject source)
    (carriesAgain : again.Carries name source) : index = other := by
  obtain ⟨gloss, annotated, _, rfl⟩ := carries
  obtain ⟨glossAgain, annotatedAgain, _, same⟩ := carriesAgain
  refine sound.index_unique (mem_placements_iff_factor.mp member).1 (mem_placements_iff_factor.mp among).1 ?_
  rw [← sound.statement_of_annotated (mem_statements_of_placement member) annotated,
    ← sound.statement_of_annotated (mem_statements_of_placement among) annotatedAgain, same]

end Owners

section Depth

variable {region : List Nat}

theorem mem_byDepth {index : Nat} : index ∈ document.byDepth region ↔
    index ∈ region ∧ ∃ line, document.get? index = some line ∧ line.noop = false := by
  simp [byDepth, Option.any_eq_true]

/-- Lines come before lines that are deeper. -/
theorem mem_front_of_shallower {front back : List Nat} {index outer : Nat}
    (split : document.byDepth region = front ++ index :: back) (member : outer ∈ document.byDepth region)
    (shallower : document.depth outer < document.depth index) : outer ∈ front := by
  have sorted : (document.byDepth region).Pairwise fun i j => document.depth i ≤ document.depth j := by
    unfold byDepth
    rw [List.pairwise_map]
    refine List.Pairwise.imp_of_mem ?_ (pairwise_stableSort (fun a b : Nat × Nat => a.1 ≤ b.1)
      (fun a b => by simp only [decide_eq_true_eq]; omega)
      (fun a b c => by simp only [decide_eq_true_eq]; omega) _)
    intro a b first second le
    obtain ⟨i, _, rfl⟩ := List.mem_map.mp ((mem_stableSort _ _ _).mp first)
    obtain ⟨j, _, rfl⟩ := List.mem_map.mp ((mem_stableSort _ _ _).mp second)
    exact of_decide_eq_true le
  rw [split] at sorted member
  rw [List.pairwise_append, List.pairwise_cons] at sorted
  rcases List.mem_append.mp member with before | after
  · exact before
  · rcases List.mem_cons.mp after with rfl | later
    · exact absurd shallower (Nat.lt_irrefl _)
    · exact absurd (sorted.2.1.1 outer later) (Nat.not_le.mpr shallower)

end Depth

/-- The regions hold all in which the documents differ. -/
structure Replaces (old new : Document) (oldRegion newRegion : List Nat) : Prop where
  id : new.id = old.id
  outside : ∀ placement, (∃ index, index ∉ oldRegion ∧ placement ∈ old.placements index) ↔
    ∃ index, index ∉ newRegion ∧ placement ∈ new.placements index

/-- What was planned can be announced on both sides, and the regions hold all that it changes. -/
theorem Planned.regions_succeed {parents : List StatementId} (sound : old.Sound)
    (planned : Planned old new parents) :
    ∃ oldRegion newRegion, old.region parents = .ok oldRegion ∧ new.region parents = .ok newRegion ∧
      Replaces old new oldRegion newRegion := by
  obtain ⟨oldRegion, oldFound, oldMember⟩ := sound.region_succeeds planned.old
  obtain ⟨newRegion, newFound, newMember⟩ := planned.sound.region_succeeds planned.new
  refine ⟨oldRegion, newRegion, oldFound, newFound, planned.id, fun placement => ?_⟩
  rw [exists_placement_iff_located oldMember, exists_placement_iff_located newMember, planned.id]
  refine exists_congr fun around => and_congr_right fun outside => and_congr_left fun _ => ?_
  rw [Regional, not_or] at outside
  refine planned.agrees.resolve_left outside.1 placement.statement around fun outer member noted => ?_
  exact outside.2 ⟨outer, member, noted⟩

end OutlineTypes.Document
