import OutlineTypes.Document
import OutlineTypes.Proofs.Document.Tokens

/-! Reading documents. Every line is read from its text under an identity of its own, and its spans carry
that identity, so that a span tells its line. -/
namespace OutlineTypes

theorem Statement.statement_of_mem_spansOn {id : StatementId} {side : Side} {tokens : List Token}
    {span : Span} (member : span ∈ spansOn id side tokens) : span.id.statement = id := by
  obtain ⟨⟨term, position⟩, _, rfl⟩ := List.mem_map.mp member
  rfl

/-- Spans are numbered from the left. -/
theorem Statement.ids_spansOn (id : StatementId) (side : Side) (tokens : List Token) :
    (spansOn id side tokens).map Span.id =
      (List.range (Term.between tokens).length).map fun position => ⟨id, side, position⟩ := by
  have positions : (Term.between tokens).zipIdx.map Prod.snd = List.range (Term.between tokens).length := by
    rw [List.zipIdx_map_snd, List.range_eq_range']
  rw [spansOn, List.map_map, ← positions, List.map_map]
  rfl

theorem Statement.ids_side_read (id : StatementId) (text : String) (tabSize : Nat) (side : Side) :
    ((read id text tabSize).side side).map Span.id =
      (List.range ((read id text tabSize).side side).length).map fun position => ⟨id, side, position⟩ := by
  have numbered (tokens : List Token) : (spansOn id side tokens).map Span.id =
      (List.range (spansOn id side tokens).length).map fun position => ⟨id, side, position⟩ := by
    rw [ids_spansOn, spansOn, List.length_map, List.length_zipIdx]
  rw [read_eq_split]
  cases side <;> exact numbered _

namespace Document

/-- What holds of the lines of a document, however it was edited. -/
structure Sound (document : Document) : Prop where
  ids : (document.statements.map Statement.id).Nodup
  owned : ∀ line ∈ document.statements,
    line.id.document = document.id ∧ line.id.serial < document.nextSerial
  read : ∀ line ∈ document.statements, line = Statement.read line.id line.text document.tabSize

namespace Sound

variable {document : Document}

theorem statement_of_declared (sound : document.Sound) {line : Statement} {span : Span}
    (member : line ∈ document.statements) (declared : span ∈ line.declarations) :
    span.id.statement = line.id := by
  rw [sound.read line member, Statement.read_eq_split] at declared
  exact Statement.statement_of_mem_spansOn declared

theorem statement_of_annotated (sound : document.Sound) {line : Statement} {span : Span}
    (member : line ∈ document.statements) (annotated : span ∈ line.annotations) :
    span.id.statement = line.id := by
  rw [sound.read line member, Statement.read_eq_split] at annotated
  exact Statement.statement_of_mem_spansOn annotated

theorem statement_of_mem_spans (sound : document.Sound) {line : Statement} {span : Span}
    (member : line ∈ document.statements) (among : span ∈ line.spans) : span.id.statement = line.id :=
  (List.mem_append.mp among).elim (sound.statement_of_declared member) (sound.statement_of_annotated member)

theorem ids_side (sound : document.Sound) {line : Statement}
    (member : line ∈ document.statements) (side : Side) :
    (line.side side).map Span.id =
      (List.range (line.side side).length).map fun position => ⟨line.id, side, position⟩ := by
  have own := Statement.ids_side_read line.id line.text document.tabSize side
  rwa [← sound.read line member] at own

theorem position?_eq_some_iff (sound : document.Sound) {id : StatementId} {index : Nat} :
    document.position? id = some index ↔ ∃ line, document.get? index = some line ∧ line.id = id := by
  unfold position? get?
  rw [List.findIdx?_eq_some_iff_getElem]
  constructor
  · rintro ⟨inside, same, _⟩
    exact ⟨_, List.getElem?_eq_getElem inside, by simpa using same⟩
  · rintro ⟨line, found, rfl⟩
    obtain ⟨inside, rfl⟩ := List.getElem?_eq_some_iff.mp found
    refine ⟨inside, by simp, fun earlier before same => ?_⟩
    have sooner : earlier < (document.statements.map Statement.id).length := by
      rw [List.length_map]
      omega
    have later : index < (document.statements.map Statement.id).length := by
      rw [List.length_map]
      exact inside
    have again : (document.statements.map Statement.id)[earlier] =
        (document.statements.map Statement.id)[index] := by
      simpa using same
    have := (List.Nodup.getElem_inj_iff sound.ids).mp again
    omega

/-- One line has one identity. -/
theorem eq_of_position? (sound : document.Sound) {id again : StatementId} {index : Nat}
    (here : document.position? id = some index) (there : document.position? again = some index) : id = again := by
  obtain ⟨line, found, rfl⟩ := sound.position?_eq_some_iff.mp here
  obtain ⟨other, present, rfl⟩ := sound.position?_eq_some_iff.mp there
  cases found.symm.trans present
  rfl

/-- A statement stands in one place. -/
theorem index_unique (sound : document.Sound) {index other : Nat} {line again : Statement}
    (here : document.get? index = some line) (there : document.get? other = some again)
    (same : line.id = again.id) : index = other := by
  have first := sound.position?_eq_some_iff.mpr ⟨line, here, rfl⟩
  have second := sound.position?_eq_some_iff.mpr ⟨again, there, same.symm⟩
  exact Option.some.inj (first.symm.trans second)

theorem get?_of_statement? (sound : document.Sound) {id : StatementId} {line : Statement} :
    document.statement? id = some line ↔ line ∈ document.statements ∧ line.id = id := by
  unfold statement?
  rw [Option.bind_eq_some_iff]
  constructor
  · rintro ⟨index, position, found⟩
    obtain ⟨other, present, rfl⟩ := sound.position?_eq_some_iff.mp position
    cases present.symm.trans found
    exact ⟨List.mem_of_getElem? found, rfl⟩
  · rintro ⟨member, rfl⟩
    obtain ⟨index, found⟩ := List.mem_iff_getElem?.mp member
    exact ⟨index, sound.position?_eq_some_iff.mpr ⟨line, found, rfl⟩, found⟩

end Sound

section Reading

variable (document : Document)

@[simp] theorem id_read (line : String) : (document.read line).1.id = ⟨document.id, document.nextSerial⟩ :=
  Statement.id_read ..

@[simp] theorem text_read (line : String) : (document.read line).1.text = line := Statement.text_read ..

/-- Lines are numbered from the next serial on. -/
theorem readAll_eq (lines : List String) :
    document.readAll lines =
      ((lines.zipIdx document.nextSerial).map fun (line, serial) =>
          Statement.read ⟨document.id, serial⟩ line document.tabSize,
        { document with nextSerial := document.nextSerial + lines.length }) := by
  induction lines generalizing document with
  | nil => rfl
  | cons line lines ih =>
    simp only [readAll, read, ih, List.zipIdx_cons, List.map_cons, List.length_cons]
    rw [Nat.add_right_comm, Nat.add_assoc]

theorem ofText_eq (id : DocumentId) (tabSize : Nat) (text : String) :
    ofText id tabSize text =
      { id, tabSize
        statements := (Text.lines text).zipIdx.map fun (line, serial) =>
          Statement.read ⟨id, serial⟩ line tabSize
        nextSerial := (Text.lines text).length } := by
  simp only [ofText, readAll_eq, replace, empty, Nat.zero_add]

theorem sound_ofText (id : DocumentId) (tabSize : Nat) (text : String) :
    (ofText id tabSize text).Sound := by
  rw [ofText_eq]
  constructor
  · rw [List.map_map]
    have ids : (Statement.id ∘ fun (line, serial) => Statement.read ⟨id, serial⟩ line tabSize) =
        (fun serial => StatementId.mk id serial) ∘ Prod.snd := funext fun _ => Statement.id_read ..
    rw [ids, ← List.map_map, List.zipIdx_map_snd]
    exact List.Nodup.map (fun a b same => by simpa using same) List.nodup_range'
  · intro line member
    obtain ⟨⟨text, serial⟩, among, rfl⟩ := List.mem_map.mp member
    simpa using (List.mem_zipIdx among).2.1
  · intro line member
    obtain ⟨⟨text, serial⟩, _, rfl⟩ := List.mem_map.mp member
    simp only [Statement.id_read, Statement.text_read]

end Reading

section Replace

variable {document : Document}

theorem Sound.replace_sublist {lines fewer : List Statement} (sound : (document.replace lines).Sound)
    (sublist : fewer.Sublist lines) : (document.replace fewer).Sound where
  ids := sound.ids.sublist (sublist.map _)
  owned line member := sound.owned line (sublist.subset member)
  read line member := sound.read line (sublist.subset member)

/-- A line that was just read may go anywhere. -/
theorem Sound.replace_read {front back : List Statement}
    (sound : (document.replace (front ++ back)).Sound) (text : String) :
    ((document.read text).2.replace (front ++ (document.read text).1 :: back)).Sound := by
  have among {line : Statement} (member : line ∈ front ++ (document.read text).1 :: back) :
      line = (document.read text).1 ∨ line ∈ front ++ back := by
    simp only [List.mem_append, List.mem_cons] at member ⊢
    tauto
  constructor
  · have perm : (front ++ (document.read text).1 :: back).Perm
        ((document.read text).1 :: (front ++ back)) := List.perm_middle
    refine (perm.map Statement.id).nodup_iff.mpr (List.nodup_cons.mpr ⟨?_, sound.ids⟩)
    intro again
    obtain ⟨line, member, same⟩ := List.mem_map.mp again
    have below := (sound.owned line member).2
    rw [same, id_read] at below
    exact absurd below (Nat.lt_irrefl _)
  · intro line member
    rcases among member with rfl | before
    · rw [id_read]
      exact ⟨rfl, Nat.lt_succ_self _⟩
    · obtain ⟨owner, below⟩ := sound.owned line before
      exact ⟨owner, Nat.lt_succ_of_lt below⟩
  · intro line member
    rcases among member with rfl | before
    · rw [id_read, text_read]
      rfl
    · exact sound.read line before

end Replace

end Document
end OutlineTypes
