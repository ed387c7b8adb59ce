import OutlineTypes.Proofs.Graph.Copy
import OutlineTypes.Proofs.Resolution.Account
import OutlineTypes.Proofs.Resolution.Citations

/-! A document and the same document under another name as twins. Where the one listing copies the other, the graphs
list everything in the same order, and twin sessions give the same account of either document. -/
namespace OutlineTypes

open OutlineTypes.Graph

variable {f : DocumentId → DocumentId} (injective : f.Injective) {document : Document} {graph other : Graph}

theorem Document.likewise_rename (f : DocumentId → DocumentId) (document : Document) :
    Likewise document (document.rename f) := by
  refine ⟨document.statements, [], (List.append_nil _).symm, by simp, ?_⟩
  refine List.forall₂_map_right_iff.mpr (List.forall₂_same.mpr fun line _ => ⟨rfl, rfl, rfl, fun side => ?_⟩)
  cases side <;> simp [Statement.side, Statement.rename, Span.rename]

section Places

variable {path again : TypePath}

theorem Graph.Pairing.samePath_rename (ours : path.document = document.id) :
    Pairing.SamePath [(document, document.rename f)] path (path.rename f) :=
  ⟨_, List.mem_singleton_self _, ours, congrArg f ours, rfl⟩

theorem Graph.Pairing.eq_rename_of_samePath (same : Pairing.SamePath [(document, document.rename f)] path again) :
    path.document = document.id ∧ again = path.rename f := by
  obtain ⟨pair, member, here, there, names⟩ := same
  cases List.mem_singleton.mp member
  exact ⟨here, TypePath.ext_names (there.trans (congrArg f here).symm) names⟩

include injective

theorem Graph.Pairing.eq_rename_of_sameLine (sound : (document.rename f).Sound) {id twin : StatementId}
    (same : Pairing.SameLine [(document, document.rename f)] id twin) : twin = id.rename f := by
  obtain ⟨pair, member, index, here, there⟩ := same
  cases List.mem_singleton.mp member
  exact sound.eq_of_position? there ((Document.position?_rename injective id).trans here)

theorem Graph.Pairing.eq_rename_of_samePlace (sound : (document.rename f).Sound) {span twin : SpanId}
    (same : Pairing.SamePlace [(document, document.rename f)] span twin) : twin = span.rename f := by
  obtain ⟨lines, side, position⟩ := Pairing.samePlace_iff.mp same
  have statement := Pairing.eq_rename_of_sameLine injective sound lines
  cases twin
  simp only [SpanId.rename] at *
  rw [statement, side, position]

/-- The spans of the copy are the same spans under their new names. -/
theorem Graph.Pairing.rel_image (sound : (document.rename f).Sound) {spans : OrderedSet SpanId}
    (placed : ∀ span ∈ spans, ∃ twin, Pairing.SamePlace [(document, document.rename f)] span twin) :
    OrderedSet.Rel (Pairing.SamePlace [(document, document.rename f)]) spans
      (spans.image _ (SpanId.rename_injective injective)) := by
  refine List.forall₂_map_right_iff.mpr (List.forall₂_same.mpr fun span member => ?_)
  obtain ⟨twin, same⟩ := placed span member
  exact Pairing.eq_rename_of_samePlace injective sound same ▸ same

end Places

section Order

variable {injective}

/-- Where the listing of the one graph copies that of the other, the edges out of twins are twins in order, and their
sources are the same under their new names. -/
theorem Listing.Copies.outbounds (copies : Listing.Copies injective document.id graph.listing other.listing)
    (paired : Paired [(document, document.rename f)] graph other) {node twin : Node}
    (twins : Twins [(document, document.rename f)] graph other node twin) :
    List.Forall₂ (fun edge opposite => TwinEdges [(document, document.rename f)] graph other edge opposite ∧
      opposite.sources = edge.sources.image _ (SpanId.rename_injective injective))
      (graph.outbounds node.id) (other.outbounds twin.id) := by
  obtain ⟨ours, renamed⟩ := Pairing.eq_rename_of_samePath twins.path
  have lists := copies.annotations node.path ours
  rw [← renamed, paired.right.settled.listing_annotations twins.there,
    paired.left.settled.listing_annotations twins.here, Glosses.rename, List.map_map] at lists
  refine forall₂_of_map_eq lists.symm fun edge member opposite among same => ?_
  obtain ⟨listed, leaves⟩ := mem_outbounds.mp member
  obtain ⟨listedToo, leavesToo⟩ := mem_outbounds.mp among
  obtain ⟨subject, sources⟩ := Prod.mk.inj same
  exact ⟨⟨listed, listedToo, subject.symm, node, twin, twins, leaves.symm, leavesToo.symm⟩, sources.symm⟩

theorem Listing.Copies.sameOrder (copies : Listing.Copies injective document.id graph.listing other.listing)
    (paired : Paired [(document, document.rename f)] graph other) :
    SameOrder [(document, document.rename f)] graph other := by
  have sound : (document.rename f).Sound := paired.right.sound _ (List.mem_singleton_self _)
  refine ⟨fun node twin twins => ?_, fun edge twin twins => ?_, fun node twin twins => ?_⟩
  · obtain ⟨ours, renamed⟩ := Pairing.eq_rename_of_samePath twins.path
    have lists := copies.declarations node.path ours
    rw [← renamed, paired.right.settled.listing_declarations twins.there,
      paired.left.settled.listing_declarations twins.here] at lists
    rw [lists]
    refine Pairing.rel_image injective sound fun span member => ?_
    obtain ⟨again, _, same⟩ := (paired.declarations twins).1 span member
    exact ⟨again, same⟩
  · obtain ⟨node, opposite, nodes, leaves, _⟩ := twins.predecessor
    have outbound : edge ∈ graph.outbounds node.id := mem_outbounds.mpr ⟨twins.here, leaves.symm⟩
    obtain ⟨again, _, alike, sources⟩ := exists_mem_right_of_forall₂ (copies.outbounds paired nodes) outbound
    rw [paired.twinEdge_unique twins alike, sources]
    refine Pairing.rel_image injective sound fun span member => ?_
    obtain ⟨place, _, same⟩ := (paired.sources twins).1 span member
    exact ⟨place, same⟩
  · exact (copies.outbounds paired twins).imp fun _ _ same => same.1

end Order

section Accounts

variable {first second : Scene} {session twin : Session}

theorem Fault.rename_const (fault : Fault) {g : DocumentId → DocumentId} (id : DocumentId) :
    (fault.rename g).rename (fun _ => id) = fault.rename fun _ => id := by
  simp only [rename, Option.map_map]
  rfl

include injective in
theorem Statement.rangeOf?_rename (line : Statement) (span : Option SpanId) :
    (line.rename f).rangeOf? (span.map (SpanId.rename f)) = line.rangeOf? span := by
  cases span with
  | none => rfl
  | some id =>
    have owner : (id.rename f).statement = (line.rename f).id ↔ id.statement = line.id :=
      (StatementId.rename_injective injective).eq_iff
    have side : (line.rename f).side (id.rename f).side = (line.side id.side).map (Span.rename f) := by
      cases same : id.side <;> simp [Statement.side, Statement.rename, SpanId.rename, same]
    simp only [Option.map_some, rangeOf?, span?, owner, side]
    split
    · rw [List.getElem?_map, Option.map_map]
      rfl
    · rfl

variable (scenes : TwinScenes [(document, document.rename f)] first second)
  (twins : TwinSessions [(document, document.rename f)] first second session twin)

include scenes in
/-- The lines are of the document and of its copy. -/
theorem TwinScenes.eq_of_sameLine {id again : StatementId} {whole copy : Document}
    (same : Pairing.SameLine [(document, document.rename f)] id again)
    (found : first.documents.find? id.document = some whole)
    (foundToo : second.documents.find? again.document = some copy) : whole = document ∧ copy = document.rename f := by
  obtain ⟨pair, member, index, here, there⟩ := same
  obtain rfl := List.mem_singleton.mp member
  have left := scenes.paired.left.sound _ (List.mem_singleton_self _)
  obtain ⟨line, present, _⟩ := left.position?_eq_some_iff.mp here
  have lines : document.statements ≠ [] := List.ne_nil_of_mem (List.mem_of_getElem? present)
  have linesToo : (document.rename f).statements ≠ [] := by simpa [Document.rename] using lines
  rw [scenes.paired.owner_left member here, scenes.findLeft _ member lines] at found
  rw [scenes.paired.owner_right member there, scenes.findRight _ member linesToo] at foundToo
  exact ⟨(Option.some.inj found).symm, (Option.some.inj foundToo).symm⟩

include injective scenes in
/-- Twin faults are the same fault under either name, if both have the range of what they are about. -/
theorem TwinFaults.eq_rename {fault again : Fault} (twins : TwinFaults [(document, document.rename f)] fault again)
    (ranged : fault.Ranged first.documents) (rangedToo : again.Ranged second.documents) :
    again = fault.rename f := by
  have sound : (document.rename f).Sound := scenes.paired.right.sound _ (List.mem_singleton_self _)
  have statement := Pairing.eq_rename_of_sameLine injective sound twins.statement
  have span : again.span = fault.span.map (SpanId.rename f) := by
    rcases eq_none_or_exists_of_rel twins.span with ⟨here, there⟩ | ⟨_, _, here, there, same⟩ <;> rw [here, there]
    · rfl
    · rw [Pairing.eq_rename_of_samePlace injective sound same, Option.map_some]
  have range : again.range = fault.range := by
    obtain ⟨whole, line, found, here, placed⟩ := ranged
    obtain ⟨wholeToo, lineToo, foundToo, there, placedToo⟩ := rangedToo
    obtain ⟨rfl, rfl⟩ := scenes.eq_of_sameLine twins.statement found foundToo
    rw [twins.line, Document.get?_rename, here, Option.map_some, Option.some.injEq] at there
    rw [← there, span, Statement.rangeOf?_rename injective, placed] at placedToo
    exact (Option.some.inj placedToo).symm
  obtain ⟨kind, line, message, _, _⟩ := twins
  cases fault
  cases again
  simp only [Fault.rename] at *
  simp only [kind, line, message, statement, span, range]

include injective scenes twins in
theorem TwinSessions.faults_eq (ranged : session.faults.All (Fault.Ranged first.documents))
    (rangedToo : twin.faults.All (Fault.Ranged second.documents)) :
    (Pairing.faults [(document, document.rename f)] session.faults).map (Fault.rename fun _ => ⟨0⟩) =
      twin.faults.faults.map (Fault.rename fun _ => ⟨0⟩) := by
  have known : ∀ fault ∈ Pairing.faults [(document, document.rename f)] session.faults,
      fault.Ranged first.documents := fun fault listed => ranged fault (List.mem_filter.mp listed).1
  have logs := twins.faults
  unfold TwinLogs at logs
  generalize Pairing.faults _ session.faults = faults at known logs ⊢
  unfold FaultLog.All at rangedToo
  generalize twin.faults.faults = others at rangedToo logs ⊢
  induction logs with
  | nil => rfl
  | cons same _ ih =>
    rw [List.forall_mem_cons] at known rangedToo
    rw [List.map_cons, List.map_cons, ih known.2 rangedToo.2,
      same.eq_rename injective scenes known.1 rangedToo.1, Fault.rename_const]

include injective scenes twins in
/-- Twin sessions give the same account of a document under either name. -/
theorem TwinSessions.agree_account (ranged : session.faults.All (Fault.Ranged first.documents))
    (rangedToo : twin.faults.All (Fault.Ranged second.documents)) :
    Agree (session.account? first.graph document.id) (twin.account? second.graph (f document.id)) := by
  have covers (id : DocumentId) : id = document.id ↔ Pairing.Covers [(document, document.rename f)] id := by
    simp [Pairing.Covers, eq_comm]
  have parallels : twin.parallels.filter (·.path.document = f document.id) = twin.parallels := by
    refine List.filter_eq_self.mpr fun parallel member => decide_eq_true ?_
    obtain ⟨_, _, same⟩ := exists_mem_left_of_forall₂ twins.parallels member
    obtain ⟨ours, renamed⟩ := Pairing.eq_rename_of_samePath same.path
    rw [renamed, ← ours]
    rfl
  have faults : twin.faults.faults.filter (·.statement.document = f document.id) = twin.faults.faults := by
    refine List.filter_eq_self.mpr fun fault listed => decide_eq_true ?_
    obtain ⟨_, _, same⟩ := exists_mem_left_of_forall₂ twins.faults listed
    obtain ⟨pair, member, index, _, there⟩ := same.statement
    rw [scenes.paired.owner_right member there, List.mem_singleton.mp member]
    rfl
  have same := twins.faults_eq injective scenes ranged rangedToo
  unfold Session.account?
  simp only [covers, parallels, faults]
  refine (twins.agree_parallels scenes).bind fun value => ?_
  rw [← same]
  exact .some _

end Accounts

end OutlineTypes
