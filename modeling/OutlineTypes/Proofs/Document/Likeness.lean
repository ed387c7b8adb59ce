import OutlineTypes.Proofs.Document.Content

/-! Like documents. Lines that are read from texts with the same names in the same places differ in their
identities alone, and so do the paths and spans of what their documents say. -/
namespace OutlineTypes

/-- The lines have the same names on both sides and stand equally deep. -/
structure Statement.Like (line again : Statement) : Prop where
  indent : again.indent = line.indent
  mixed : again.mixed = line.mixed
  noop : again.noop = line.noop
  subjects : ∀ side, (again.side side).map Span.subject = (line.side side).map Span.subject

theorem Statement.subjects_spansOn (id : StatementId) (side : Side) (tokens : List Token) :
    (spansOn id side tokens).map Span.subject =
      (Term.between tokens).map fun term => String.ofList term.lexeme := by
  have terms : (Term.between tokens).zipIdx.map Prod.fst = Term.between tokens := List.zipIdx_map_fst _ _
  conv_rhs => rw [← terms, List.map_map]
  rw [spansOn, List.map_map]
  rfl

theorem Statement.like_read (id again : StatementId) (text : String) (tabSize : Nat) :
    (read id text tabSize).Like (read again text tabSize) where
  indent := by rw [read_eq_split, read_eq_split]; rfl
  mixed := by rw [read_eq_split, read_eq_split]; rfl
  noop := by rw [read_eq_split, read_eq_split]; rfl
  subjects side := by
    rw [read_eq_split, read_eq_split]
    cases side <;> simp only [side, split, subjects_spansOn]

theorem Statement.id_of_side_read {id : StatementId} {text : String} {tabSize : Nat} {side : Side}
    {position : Nat} {span : Span} (found : ((read id text tabSize).side side)[position]? = some span) :
    span.id = ⟨id, side, position⟩ := by
  have on {tokens : List Token} (found : (spansOn id side tokens)[position]? = some span) :
      span.id = ⟨id, side, position⟩ := by
    rw [spansOn, List.getElem?_map, Option.map_eq_some_iff] at found
    obtain ⟨⟨term, index⟩, listed, rfl⟩ := found
    rw [List.getElem?_zipIdx, Option.map_eq_some_iff] at listed
    obtain ⟨_, _, same⟩ := listed
    cases same
    simp [Term.toSpan]
  rw [read_eq_split] at found
  cases side <;> exact on found

namespace Document

/-- The spans stand in one place of their documents. -/
structure SamePlace (first second : Document) (span again : SpanId) : Prop where
  line : ∃ index, first.position? span.statement = some index ∧
    second.position? again.statement = some index
  side : again.side = span.side
  position : again.position = span.position

section Spelling

variable {document : Document}

def subjectsAt (document : Document) (index : Nat) : List Name :=
  (document.declarationsAt index).map Span.subject

/-- The names lead to this subject on the line at `index`, by one name of each line that contains it. -/
def Spells (document : Document) (index : Nat) (subject : Name) (names : List Name) : Prop :=
  ∃ above ∈ choices ((document.ancestors index).reverse.map document.subjectsAt),
    names = above ++ [subject]

theorem map_choices (f : α → β) (lists : List (List α)) :
    (choices lists).map (List.map f) = choices (lists.map (List.map f)) := by
  induction lists with
  | nil => rfl
  | cons first lists ih =>
    simp only [choices, List.map_cons, ← ih, List.map_flatMap, List.flatMap_map, List.map_map]
    rfl

theorem spells_iff {index : Nat} {span : Span} {path : TypePath} (ours : path.document = document.id) :
    document.Spells index span.subject path.names ↔
      ∃ spine ∈ document.factor index span, spine.path = path := by
  have subjects : (document.ancestors index).reverse.map document.subjectsAt =
      ((document.ancestors index).reverse.map document.declarationsAt).map (List.map Span.subject) := by
    rw [List.map_map]
    rfl
  rw [Spells, subjects, ← map_choices]
  simp only [factor, List.mem_map]
  constructor
  · rintro ⟨_, ⟨above, chosen, rfl⟩, names⟩
    refine ⟨_, ⟨above, chosen, rfl⟩, TypePath.ext_names ours.symm ?_⟩
    rw [Spine.names_path, names]
  · rintro ⟨_, ⟨above, chosen, rfl⟩, rfl⟩
    exact ⟨_, ⟨above, chosen, rfl⟩, Spine.names_path _ _ _⟩

/-- The span is on this side of the line, with this subject. -/
structure Bears (line : Statement) (span : SpanId) (side : Side) (subject : Name) : Prop where
  owner : span.statement = line.id
  here : span.side = side
  subject : ((line.side side).map Span.subject)[span.position]? = some subject

theorem Sound.bears_iff (sound : document.Sound) {line : Statement} (member : line ∈ document.statements)
    {id : SpanId} {side : Side} {subject : Name} :
    Bears line id side subject ↔ ∃ span ∈ line.side side, span.subject = subject ∧ span.id = id := by
  have numbered {position : Nat} {span : Span} (found : (line.side side)[position]? = some span) :
      span.id = ⟨line.id, side, position⟩ := by
    rw [sound.read line member] at found
    exact Statement.id_of_side_read found
  constructor
  · rintro ⟨owner, side_eq, found⟩
    rw [List.getElem?_map, Option.map_eq_some_iff] at found
    obtain ⟨span, found, rfl⟩ := found
    refine ⟨span, List.mem_of_getElem? found, rfl, ?_⟩
    rw [numbered found, ← owner, ← side_eq]
  · rintro ⟨span, among, rfl, rfl⟩
    obtain ⟨position, found⟩ := List.mem_iff_getElem?.mp among
    have id := numbered found
    refine ⟨congrArg SpanId.statement id, congrArg SpanId.side id, ?_⟩
    rw [congrArg SpanId.position id, List.getElem?_map, found]
    rfl

theorem Sound.declares_iff (sound : document.Sound) {path : TypePath} {id : SpanId} :
    document.Declares path id ↔ path.document = document.id ∧ ∃ index line subject,
      document.get? index = some line ∧ line.noop = false ∧ Bears line id .declared subject ∧
        document.Spells index subject path.names := by
  constructor
  · rintro h
    have ours := document_of_declares h
    obtain ⟨index, line, found, noop, declared, among, rfl, spine⟩ := h
    refine ⟨ours, index, line, declared.subject, found, noop, ?_, (spells_iff ours).mpr spine⟩
    exact (sound.bears_iff (List.mem_of_getElem? found)).mpr ⟨declared, among, rfl, rfl⟩
  · rintro ⟨ours, index, line, subject, found, noop, bears, spelt⟩
    obtain ⟨declared, among, rfl, rfl⟩ := (sound.bears_iff (List.mem_of_getElem? found)).mp bears
    exact ⟨index, line, found, noop, declared, among, rfl, (spells_iff ours).mp spelt⟩

/-- A declaration is read off the line of its span. -/
theorem Sound.declares_at_iff (sound : document.Sound) {index : Nat} {line : Statement}
    (found : document.get? index = some line) {path : TypePath} {id : SpanId} (own : id.statement = line.id) :
    document.Declares path id ↔ path.document = document.id ∧ line.noop = false ∧
      ∃ subject, Bears line id .declared subject ∧ document.Spells index subject path.names := by
  rw [sound.declares_iff]
  constructor
  · rintro ⟨ours, place, other, subject, there, noop, bears, spelt⟩
    obtain rfl := sound.index_unique there found (bears.owner.symm.trans own)
    cases there.symm.trans found
    exact ⟨ours, noop, subject, bears, spelt⟩
  · rintro ⟨ours, noop, subject, bears, spelt⟩
    exact ⟨ours, index, line, subject, found, noop, bears, spelt⟩

theorem document_of_annotates {path : TypePath} {subject : Name} {source : SpanId}
    (h : document.Annotates path subject source) : path.document = document.id := by
  obtain ⟨span, declared⟩ := h.exists_declares
  exact document_of_declares declared

theorem Sound.annotates_iff (sound : document.Sound) {path : TypePath} {subject : Name}
    {source : SpanId} : document.Annotates path subject source ↔ path.document = document.id ∧
      ∃ index line, document.get? index = some line ∧ line.noop = false ∧
        (∃ declared ∈ line.declarations.map Span.subject, document.Spells index declared path.names) ∧
        Bears line source .annotated subject := by
  constructor
  · rintro h
    have ours := document_of_annotates h
    obtain ⟨index, line, found, noop, ⟨declared, among, spine⟩, annotated⟩ := h
    refine ⟨ours, index, line, found, noop, ⟨_, List.mem_map_of_mem among, (spells_iff ours).mpr spine⟩, ?_⟩
    exact (sound.bears_iff (List.mem_of_getElem? found)).mpr annotated
  · rintro ⟨ours, index, line, found, noop, ⟨_, listed, spelt⟩, bears⟩
    obtain ⟨declared, among, rfl⟩ := List.mem_map.mp listed
    exact ⟨index, line, found, noop, ⟨declared, among, (spells_iff ours).mp spelt⟩,
      (sound.bears_iff (List.mem_of_getElem? found)).mp bears⟩

theorem Sound.annotates_at_iff (sound : document.Sound) {index : Nat} {line : Statement}
    (found : document.get? index = some line) {path : TypePath} {subject : Name} {source : SpanId}
    (own : source.statement = line.id) : document.Annotates path subject source ↔
      path.document = document.id ∧ line.noop = false ∧
        (∃ declared ∈ line.declarations.map Span.subject, document.Spells index declared path.names) ∧
        Bears line source .annotated subject := by
  rw [sound.annotates_iff]
  constructor
  · rintro ⟨ours, place, other, there, noop, spelt, bears⟩
    obtain rfl := sound.index_unique there found (bears.owner.symm.trans own)
    cases there.symm.trans found
    exact ⟨ours, noop, spelt, bears⟩
  · rintro ⟨ours, noop, spelt, bears⟩
    exact ⟨ours, index, line, found, noop, spelt, bears⟩

end Spelling

/-- The documents have like lines, up to lines at the end of the first that take no part. -/
def Likewise (first second : Document) : Prop :=
  ∃ front rest, first.statements = front ++ rest ∧ (∀ line ∈ rest, line.noop = true) ∧
    List.Forall₂ Statement.Like front second.statements

theorem likewise_of_texts {first second : Document} (sound : first.Sound) (again : second.Sound)
    (tabSize : second.tabSize = first.tabSize)
    (texts : second.statements.map Statement.text = first.statements.map Statement.text) :
    Likewise first second := by
  refine ⟨first.statements, [], (List.append_nil _).symm, by simp, ?_⟩
  refine forall₂_of_map_eq texts.symm fun line member other among same => ?_
  rw [sound.read line member, again.read other among, same, tabSize]
  exact Statement.like_read _ _ _ _

section Likewise

variable {first second : Document}

theorem enclosing_eq_of_like {lines again : List Statement} (like : List.Forall₂ Statement.Like lines again)
    (indent : Nat) : Outline.enclosing indent again = Outline.enclosing indent lines := by
  induction like generalizing indent with
  | nil => rfl
  | cons same rest ih =>
    simp only [Outline.enclosing, same.noop, same.indent, ih, rest.length_eq]

theorem Likewise.exists_first (like : Likewise first second) {index : Nat} {again : Statement}
    (found : second.get? index = some again) :
    ∃ line, first.get? index = some line ∧ line.Like again := by
  obtain ⟨front, rest, split, _, alike⟩ := like
  obtain ⟨inside, rfl⟩ := List.getElem?_eq_some_iff.mp found
  have bound : index < front.length := alike.length_eq ▸ inside
  refine ⟨front[index], ?_, List.Forall₂.get alike bound inside⟩
  rw [get?, split, List.getElem?_append_left bound, List.getElem?_eq_getElem bound]

theorem Likewise.exists_second (like : Likewise first second) {index : Nat} {line : Statement}
    (found : first.get? index = some line) (noop : line.noop = false) :
    ∃ again, second.get? index = some again ∧ line.Like again := by
  obtain ⟨front, rest, split, silent, alike⟩ := like
  rw [get?, split] at found
  by_cases bound : index < front.length
  · rw [List.getElem?_append_left bound, List.getElem?_eq_getElem bound] at found
    cases found
    have inside : index < second.statements.length := alike.length_eq ▸ bound
    exact ⟨second.statements[index], List.getElem?_eq_getElem inside, List.Forall₂.get alike bound inside⟩
  · rw [List.getElem?_append_right (Nat.not_lt.mp bound)] at found
    have := silent line (List.mem_of_getElem? found)
    simp [noop] at this

theorem Likewise.ancestors (like : Likewise first second) {index : Nat} {again : Statement}
    (found : second.get? index = some again) : second.ancestors index = first.ancestors index := by
  obtain ⟨line, here, same⟩ := like.exists_first found
  obtain ⟨front, rest, split, _, alike⟩ := like
  have bound : index < front.length :=
    alike.length_eq ▸ (List.getElem?_eq_some_iff.mp found).1
  have above : List.Forall₂ Statement.Like (Outline.above first.statements index)
      (Outline.above second.statements index) := by
    rw [Outline.above, Outline.above, split, List.take_append_of_le_length (Nat.le_of_lt bound),
      List.forall₂_reverse_iff]
    exact List.forall₂_take index alike
  rw [get?] at found here
  simp only [Document.ancestors, Outline.ancestors, found, here, same.noop, same.indent,
    enclosing_eq_of_like above]

theorem Likewise.subjectsAt (like : Likewise first second) {index : Nat} {again : Statement}
    (found : second.get? index = some again) : second.subjectsAt index = first.subjectsAt index := by
  obtain ⟨line, here, same⟩ := like.exists_first found
  simp only [Document.subjectsAt, declarationsAt, found, here]
  exact same.subjects .declared

theorem Likewise.spells (like : Likewise first second) {index : Nat} {again : Statement}
    (found : second.get? index = some again) (subject : Name) (names : List Name) :
    second.Spells index subject names ↔ first.Spells index subject names := by
  have around : (second.ancestors index).reverse.map second.subjectsAt =
      (first.ancestors index).reverse.map first.subjectsAt := by
    rw [like.ancestors found]
    refine List.map_congr_left fun outer member => ?_
    rw [List.mem_reverse, ← like.ancestors found] at member
    have before := Outline.lt_of_mem_ancestors member
    have inside := (List.getElem?_eq_some_iff.mp found).1
    exact like.subjectsAt (List.getElem?_eq_getElem (Nat.lt_trans before inside))
  rw [Spells, Spells, around]

/-- The paths are of the two documents and have the same names. -/
structure SamePath (first second : Document) (path again : TypePath) : Prop where
  here : path.document = first.id
  there : again.document = second.id
  names : again.names = path.names

variable {path again : TypePath}

/-- Like lines have the same subjects in the same places. -/
theorem bears_iff_of_like {line twin : Statement} (alike : line.Like twin) {span other : SpanId}
    (own : span.statement = line.id) (ownToo : other.statement = twin.id) (place : SamePlace first second span other)
    {side : Side} {subject : Name} : Bears line span side subject ↔ Bears twin other side subject := by
  have listed := alike.subjects side
  constructor
  · rintro ⟨_, here, found⟩
    exact ⟨ownToo, place.side.trans here, by rwa [listed, place.position]⟩
  · rintro ⟨_, here, found⟩
    rw [listed, place.position] at found
    exact ⟨own, place.side.symm.trans here, found⟩

variable (like : Likewise first second) (sound : first.Sound) (soundAgain : second.Sound)
include like sound soundAgain

/-- Every span of a line that takes part has its counterpart. -/
theorem Likewise.exists_samePlace {index : Nat} {line : Statement} (found : first.get? index = some line)
    (noop : line.noop = false) {span : SpanId} (own : span.statement = line.id) :
    ∃ other, SamePlace first second span other := by
  obtain ⟨twin, present, _⟩ := like.exists_second found noop
  refine ⟨⟨twin.id, span.side, span.position⟩, ⟨index, ?_, ?_⟩, rfl, rfl⟩
  · exact sound.position?_eq_some_iff.mpr ⟨line, found, own.symm⟩
  · exact soundAgain.position?_eq_some_iff.mpr ⟨twin, present, rfl⟩

theorem Likewise.exists_samePlace_back {index : Nat} {twin : Statement} (found : second.get? index = some twin)
    {other : SpanId} (own : other.statement = twin.id) : ∃ span, SamePlace first second span other := by
  obtain ⟨line, present, _⟩ := like.exists_first found
  refine ⟨⟨line.id, other.side, other.position⟩, ⟨index, ?_, ?_⟩, rfl, rfl⟩
  · exact sound.position?_eq_some_iff.mpr ⟨line, present, rfl⟩
  · exact soundAgain.position?_eq_some_iff.mpr ⟨twin, found, own.symm⟩

/-- Spans in the same place are spans of like lines. -/
theorem Likewise.lines_of_samePlace {span other : SpanId} (place : SamePlace first second span other) :
    ∃ index line twin, first.get? index = some line ∧ second.get? index = some twin ∧ line.Like twin ∧
      span.statement = line.id ∧ other.statement = twin.id := by
  obtain ⟨index, here, there⟩ := place.line
  obtain ⟨line, found, own⟩ := sound.position?_eq_some_iff.mp here
  obtain ⟨twin, foundToo, ownToo⟩ := soundAgain.position?_eq_some_iff.mp there
  obtain ⟨_, present, alike⟩ := like.exists_first foundToo
  cases found.symm.trans present
  exact ⟨index, line, twin, found, foundToo, alike, own.symm, ownToo.symm⟩

variable (same : SamePath first second path again)
include same

theorem Likewise.declares_iff {span other : SpanId} (place : SamePlace first second span other) :
    first.Declares path span ↔ second.Declares again other := by
  obtain ⟨index, line, twin, found, foundToo, alike, own, ownToo⟩ := like.lines_of_samePlace sound soundAgain place
  rw [sound.declares_at_iff found own, soundAgain.declares_at_iff foundToo ownToo]
  simp only [same.here, same.there, same.names, alike.noop, bears_iff_of_like alike own ownToo place,
    like.spells foundToo]

theorem Likewise.annotates_iff {subject : Name} {source other : SpanId}
    (place : SamePlace first second source other) :
    first.Annotates path subject source ↔ second.Annotates again subject other := by
  obtain ⟨index, line, twin, found, foundToo, alike, own, ownToo⟩ := like.lines_of_samePlace sound soundAgain place
  have declared := alike.subjects .declared
  simp only [Statement.side] at declared
  rw [sound.annotates_at_iff found own, soundAgain.annotates_at_iff foundToo ownToo]
  simp only [same.here, same.there, same.names, declared, alike.noop, bears_iff_of_like alike own ownToo place,
    like.spells foundToo]

theorem Likewise.declares {span : SpanId} (declared : first.Declares path span) :
    ∃ other, second.Declares again other ∧ SamePlace first second span other := by
  obtain ⟨_, _, _, _, found, noop, bears, _⟩ := sound.declares_iff.mp declared
  obtain ⟨other, place⟩ := like.exists_samePlace sound soundAgain found noop bears.owner
  exact ⟨other, (like.declares_iff sound soundAgain same place).mp declared, place⟩

theorem Likewise.declares_back {other : SpanId} (declared : second.Declares again other) :
    ∃ span, first.Declares path span ∧ SamePlace first second span other := by
  obtain ⟨_, _, _, _, found, _, bears, _⟩ := soundAgain.declares_iff.mp declared
  obtain ⟨span, place⟩ := like.exists_samePlace_back sound soundAgain found bears.owner
  exact ⟨span, (like.declares_iff sound soundAgain same place).mpr declared, place⟩

theorem Likewise.annotates {subject : Name} {source : SpanId} (annotated : first.Annotates path subject source) :
    ∃ other, second.Annotates again subject other ∧ SamePlace first second source other := by
  obtain ⟨_, _, _, found, noop, _, bears⟩ := sound.annotates_iff.mp annotated
  obtain ⟨other, place⟩ := like.exists_samePlace sound soundAgain found noop bears.owner
  exact ⟨other, (like.annotates_iff sound soundAgain same place).mp annotated, place⟩

theorem Likewise.annotates_back {subject : Name} {other : SpanId}
    (annotated : second.Annotates again subject other) :
    ∃ source, first.Annotates path subject source ∧ SamePlace first second source other := by
  obtain ⟨_, _, _, found, _, _, bears⟩ := soundAgain.annotates_iff.mp annotated
  obtain ⟨source, place⟩ := like.exists_samePlace_back sound soundAgain found bears.owner
  exact ⟨source, (like.annotates_iff sound soundAgain same place).mpr annotated, place⟩

end Likewise

end Document
end OutlineTypes
