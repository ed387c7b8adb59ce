import OutlineTypes.Proofs.Document.Agreement
import OutlineTypes.Proofs.Document.Region

/-! Plans. The parents that a plan names are lines of the document before and after the edits, and what
stands inside none of them stands as it did. -/
namespace OutlineTypes

open Outline

namespace Touched

variable {touched next : Touched}

/-- The line as placed at `position` lies in a noted line, if it lies anywhere. -/
def Notes (touched : Touched) (lines : List Statement) (position : Nat) (line : Statement) : Prop :=
  touched.whole = false → NotedUnder (· ∈ touched.parents) (above lines position) line

/-- What noting adds: `lines` lists all lines that may have been noted. -/
structure Grows (touched next : Touched) (lines : List Statement) : Prop where
  whole : next.whole = false → touched.whole = false
  keeps : ∀ id ∈ touched.parents, id ∈ next.parents
  adds : ∀ id ∈ next.parents,
    id ∈ touched.parents ∨ ∃ line ∈ lines, line.id = id ∧ line.noop = false

theorem Grows.refl (touched : Touched) (lines : List Statement) : Grows touched touched lines :=
  ⟨id, fun _ => id, fun _ => .inl⟩

theorem Grows.trans {third : Touched} {lines : List Statement} (first : Grows touched next lines)
    (second : Grows next third lines) : Grows touched third lines where
  whole := fun open_ => first.whole (second.whole open_)
  keeps id member := second.keeps id (first.keeps id member)
  adds id member := (second.adds id member).elim (first.adds id) .inr

theorem Notes.mono {lines : List Statement} {position : Nat} {line : Statement}
    (notes : touched.Notes lines position line) (grows : Grows touched next lines) :
    next.Notes lines position line := by
  intro whole noop
  obtain ⟨outer, member, marked⟩ := notes (grows.whole whole) noop
  exact ⟨outer, member, grows.keeps _ marked⟩

/-- The line that would contain a line is the first that encloses it. -/
theorem container?_bind_get (lines : List Statement) (position indent : Nat) :
    ((container? lines position indent).bind fun index => lines[index]?) =
      (enclosers indent (above lines position)).head? := by
  have split : lines = (above lines position).reverse ++ lines.drop position := by
    rw [above, List.reverse_reverse, List.take_append_drop]
  have positions := map_get_enclosing indent split
  have heads := congrArg List.head? positions
  rw [List.head?_map, List.head?_map] at heads
  rw [container?]
  cases found : (enclosing indent (above lines position)).head? with
  | none =>
    rw [found] at heads
    exact (Option.map_eq_none_iff.mp heads.symm).symm
  | some index =>
    rw [found] at heads
    obtain ⟨line, head, here⟩ := Option.map_eq_some_iff.mp heads.symm
    rw [head, Option.bind_some, here]

theorem grows_noteLine (touched : Touched) (lines : List Statement) (position : Nat)
    (line : Statement) : Grows touched (touched.noteLine lines position line) lines := by
  unfold noteLine
  split
  · exact .refl touched lines
  · unfold note
    rw [container?_bind_get]
    cases head : (enclosers line.indent (above lines position)).head? with
    | none => exact ⟨fun whole => by contradiction, fun _ => id, fun _ => .inl⟩
    | some outer =>
      obtain ⟨among, noop⟩ := noop_of_mem_enclosers (List.mem_of_head? head)
      rw [above, List.mem_reverse] at among
      refine ⟨id, fun id member => OrderedSet.mem_insert.mpr (.inl member), fun id member => ?_⟩
      rcases OrderedSet.mem_insert.mp member with before | rfl
      · exact .inl before
      · exact .inr ⟨outer, List.mem_of_mem_take among, rfl, noop⟩

theorem notes_noteLine (touched : Touched) (lines : List Statement) (position : Nat)
    (line : Statement) : (touched.noteLine lines position line).Notes lines position line := by
  intro whole noop
  simp only [noteLine, noop, Bool.false_eq_true, ↓reduceIte, note] at whole ⊢
  rw [container?_bind_get] at whole ⊢
  cases head : (enclosers line.indent (above lines position)).head? with
  | none => simp [head] at whole
  | some outer => exact ⟨outer, List.mem_of_head? head, by simp⟩

theorem grows_noteRun (touched : Touched) (lines : List Statement) (position count : Nat) :
    Grows touched (touched.noteRun lines position count) lines := by
  induction count generalizing touched position with
  | zero => exact .refl touched lines
  | succ count ih =>
    rw [noteRun]
    refine Grows.trans ?_ (ih _ _)
    split
    · exact grows_noteLine _ _ _ _
    · exact .refl _ _

theorem notes_noteRun (touched : Touched) {lines : List Statement} {position count index : Nat}
    {line : Statement} (from_ : position ≤ index) (below : index < position + count)
    (found : lines[index]? = some line) :
    (touched.noteRun lines position count).Notes lines index line := by
  induction count generalizing touched position with
  | zero => omega
  | succ count ih =>
    rw [noteRun]
    rcases Nat.lt_or_eq_of_le from_ with later | rfl
    · exact ih _ (by omega) (by omega)
    · simp only [found]
      exact (notes_noteLine _ _ _ _).mono (grows_noteRun _ _ _ _)

end Touched

namespace Draft

variable {document : Document} {seen : List Statement} {draft next : Draft}

/-- What holds of a draft of `document`; `seen` lists all lines it ever had. -/
structure Tracks (document : Document) (seen : List Statement) (draft : Draft) : Prop where
  sound : (draft.reader.replace draft.lines).Sound
  id : draft.reader.id = document.id
  tabSize : draft.reader.tabSize = document.tabSize
  counts : document.nextSerial ≤ draft.reader.nextSerial
  distinct : (seen.map Statement.id).Nodup
  before : ∀ line ∈ document.statements, line ∈ seen
  now : ∀ line ∈ draft.lines, line ∈ seen
  read : ∀ line ∈ seen, line.id.serial < draft.reader.nextSerial
  noted : ∀ id ∈ draft.touched.parents, ∃ line ∈ seen, line.id = id ∧ line.noop = false
  agrees : draft.touched.whole = false →
    Agrees (· ∈ draft.touched.parents) document.statements draft.lines

theorem tracks_ofDocument (sound : document.Sound) :
    Tracks document document.statements (ofDocument document) where
  sound := sound
  id := rfl
  tabSize := rfl
  counts := Nat.le_refl _
  distinct := sound.ids
  before _ := id
  now _ := id
  read line member := (sound.owned line member).2
  noted id member := absurd member (by simp [ofDocument, Touched.none])
  agrees _ := .refl _ _

namespace Tracks

theorem noted_of_grows (tracks : Tracks document seen draft) {touched : Touched}
    (grows : draft.touched.Grows touched seen) :
    ∀ id ∈ touched.parents, ∃ line ∈ seen, line.id = id ∧ line.noop = false := by
  intro id member
  rcases grows.adds id member with before | added
  · exact tracks.noted id before
  · exact added

/-- A run of lines goes once what is around each of them is noted. -/
theorem remove (tracks : Tracks document seen draft) {front run back : List Statement}
    (split : draft.lines = front ++ (run ++ back)) {touched : Touched}
    (grows : draft.touched.Grows touched seen)
    (notes : touched.whole = false → ∀ above line below, run = above ++ line :: below →
      NotedUnder (· ∈ touched.parents) (front ++ above).reverse line) :
    Tracks document seen ⟨front ++ back, touched, draft.reader⟩ := by
  have fewer : (front ++ back).Sublist draft.lines := by
    rw [split]
    exact (List.Sublist.refl front).append (List.sublist_append_right run back)
  refine { tracks with
    sound := tracks.sound.replace_sublist fewer
    now := fun line member => tracks.now line (fewer.subset member)
    noted := tracks.noted_of_grows grows
    agrees := fun whole => ?_ }
  refine ((tracks.agrees (grows.whole whole)).mono grows.keeps).trans ?_
  rw [split]
  exact agrees_splice_run (notes whole)

/-- A line that was just read comes once what is around it is noted. -/
theorem add (tracks : Tracks document seen draft) {front back : List Statement}
    (split : draft.lines = front ++ back) (text : String) {touched : Touched}
    (grows : draft.touched.Grows touched seen)
    (notes : touched.whole = false →
      NotedUnder (· ∈ touched.parents) front.reverse (draft.reader.read text).1) :
    Tracks document (seen ++ [(draft.reader.read text).1])
      ⟨front ++ (draft.reader.read text).1 :: back, touched, (draft.reader.read text).2⟩ where
  sound := by
    have sound := tracks.sound
    rw [split] at sound
    exact sound.replace_read text
  id := tracks.id
  tabSize := tracks.tabSize
  counts := Nat.le_succ_of_le tracks.counts
  distinct := by
    rw [List.map_append, List.nodup_append]
    refine ⟨tracks.distinct, by simp, ?_⟩
    rintro id member _ new rfl
    obtain ⟨line, among, rfl⟩ := List.mem_map.mp member
    have below := tracks.read line among
    rw [List.mem_singleton.mp new, Document.id_read] at below
    exact absurd below (Nat.lt_irrefl _)
  before line member := List.mem_append_left _ (tracks.before line member)
  now line member := by
    rcases List.mem_append.mp member with inFront | inBack
    · exact List.mem_append_left _ (tracks.now line (by simp [split, inFront]))
    · rcases List.mem_cons.mp inBack with rfl | inBack
      · simp
      · exact List.mem_append_left _ (tracks.now line (by simp [split, inBack]))
  read line member := by
    rcases List.mem_append.mp member with before | new
    · exact Nat.lt_succ_of_lt (tracks.read line before)
    · rw [List.mem_singleton.mp new, Document.id_read]
      exact Nat.lt_succ_self _
  noted id member := by
    obtain ⟨line, among, rest⟩ := tracks.noted_of_grows grows id member
    exact ⟨line, List.mem_append_left _ among, rest⟩
  agrees whole := by
    refine ((tracks.agrees (grows.whole whole)).mono grows.keeps).trans ?_
    rw [split]
    exact (agrees_splice _ (notes whole)).symm

theorem grows_of_lines (tracks : Tracks document seen draft) {touched next : Touched}
    (grows : touched.Grows next draft.lines) : touched.Grows next seen where
  whole := grows.whole
  keeps := grows.keeps
  adds id member := (grows.adds id member).imp_right fun ⟨line, among, rest⟩ =>
    ⟨line, tracks.now line among, rest⟩

end Tracks

theorem above_append (front back : List Statement) :
    above (front ++ back) front.length = front.reverse := by
  rw [above, List.take_left]

theorem tracks_insert (tracks : Tracks document seen draft) {position : Nat} {text : String}
    (applied : draft.apply (.insert position text) = .ok next) : ∃ seen, Tracks document seen next := by
  simp only [apply] at applied
  split at applied
  · contradiction
  · rename_i inside
    cases applied
    obtain ⟨front, back, split, rfl⟩ : ∃ front back, draft.lines = front ++ back ∧ front.length = position :=
      ⟨draft.lines.take position, draft.lines.drop position, (List.take_append_drop _ _).symm,
        by rw [List.length_take]; omega⟩
    let statement := (draft.reader.read text).1
    have notes := Touched.notes_noteLine draft.touched draft.lines front.length statement
    have added := tracks.add split text
      (tracks.grows_of_lines (Touched.grows_noteLine draft.touched draft.lines front.length statement))
      (fun whole => by simpa only [split, above_append] using notes whole)
    rw [split, insertIdx_length_append, ← split]
    exact ⟨_, added⟩

theorem tracks_delete (tracks : Tracks document seen draft) {position count : Nat}
    (applied : draft.apply (.delete position count) = .ok next) : ∃ seen, Tracks document seen next := by
  simp only [apply] at applied
  split at applied
  · contradiction
  · rename_i inside
    cases applied
    have order : position ≤ max position (min (position + count) Edit.lastPosition) := Nat.le_max_left _ _
    generalize max position (min (position + count) Edit.lastPosition) = stop at inside order
    obtain ⟨front, run, back, split, rfl, length⟩ : ∃ front run back,
        draft.lines = front ++ (run ++ back) ∧ front.length = position ∧ run.length = stop - position := by
      refine ⟨draft.lines.take position, (draft.lines.drop position).take (stop - position),
        (draft.lines.drop position).drop (stop - position), ?_, ?_, ?_⟩
      · rw [List.take_append_drop, List.take_append_drop]
      · rw [List.length_take]
        omega
      · rw [List.length_take, List.length_drop]
        omega
    have kept : draft.lines.take front.length ++ draft.lines.drop stop = front ++ back := by
      have stops : stop = front.length + run.length := by omega
      rw [split, List.take_left, stops, ← List.drop_drop, List.drop_left, List.drop_left]
    have removed := tracks.remove split
      (tracks.grows_of_lines (Touched.grows_noteRun draft.touched draft.lines front.length
        (stop - front.length)))
      (fun whole above line below here => by
        have index : draft.lines = (front ++ above) ++ (line :: (below ++ back)) := by
          rw [split, here]
          simp
        have found : draft.lines[(front ++ above).length]? = some line := by
          rw [index]
          simp
        have reached : above.length < run.length := by
          rw [here]
          simp
        have from_ : front.length ≤ (front ++ above).length := by simp
        have below_ : (front ++ above).length < front.length + (stop - front.length) := by
          rw [List.length_append]
          omega
        have notes := Touched.notes_noteRun draft.touched from_ below_ found whole
        rw [index, above_append, ← index] at notes
        exact notes)
    rw [kept]
    exact ⟨_, removed⟩

theorem tracks_update (tracks : Tracks document seen draft) {position : Nat} {text : String}
    (applied : draft.apply (.update position text) = .ok next) : ∃ seen, Tracks document seen next := by
  simp only [apply] at applied
  cases found : draft.lines[position]? with
  | none => simp [found] at applied
  | some old =>
    simp only [found, Except.ok.injEq] at applied
    subst applied
    obtain ⟨front, back, split, rfl⟩ := exists_split found
    let statement := (draft.reader.read text).1
    let first := draft.touched.noteLine draft.lines front.length old
    have grows := Touched.grows_noteLine first draft.lines front.length statement
    have notesOld := Touched.notes_noteLine draft.touched draft.lines front.length old
    have notesNew := Touched.notes_noteLine first draft.lines front.length statement
    have removed := tracks.remove (show draft.lines = front ++ ([old] ++ back) from split)
      (tracks.grows_of_lines (Touched.grows_noteLine draft.touched draft.lines front.length old))
      (fun whole above line below run => by
        obtain ⟨rfl, rfl, rfl⟩ : above = [] ∧ line = old ∧ below = [] := by
          cases above <;> simp_all
        simpa only [List.append_nil, split, above_append] using notesOld whole)
    have added := removed.add rfl text (tracks.grows_of_lines grows)
      (fun whole => by simpa only [split, above_append] using notesNew whole)
    rw [split, List.set_append_right _ _ (Nat.le_refl _), Nat.sub_self, List.set_cons_zero, ← split]
    exact ⟨_, added⟩

theorem tracks_apply (tracks : Tracks document seen draft) {edit : Edit}
    (applied : draft.apply edit = .ok next) : ∃ seen, Tracks document seen next := by
  cases edit with
  | insert position line => exact tracks_insert tracks applied
  | delete position count => exact tracks_delete tracks applied
  | update position line => exact tracks_update tracks applied

theorem tracks_applyAll (tracks : Tracks document seen draft) (edits : List Edit) :
    ∃ seen, Tracks document seen (draft.applyAll edits).1 := by
  induction edits generalizing draft seen with
  | nil => exact ⟨seen, tracks⟩
  | cons edit edits ih =>
    rw [applyAll]
    cases applied : draft.apply edit with
    | error reason => exact ⟨seen, tracks⟩
    | ok next =>
      obtain ⟨seen, tracks⟩ := tracks_apply tracks applied
      exact ih tracks

theorem noop_of_seen (tracks : Tracks document seen draft) {line : Statement} (member : line ∈ seen)
    (noted : line.id ∈ draft.touched.parents) : line.noop = false := by
  obtain ⟨other, among, same, noop⟩ := tracks.noted line.id noted
  rw [← eq_of_key_eq tracks.distinct among member same]
  exact noop

/-- The parents to announce are lines before and after, and around all that stands differently. -/
theorem parents_spec (tracks : Tracks document seen draft) :
    document.Names (draft.parents document) ∧
      (draft.reader.replace draft.lines).Names (draft.parents document) ∧
      (draft.parents document = [] ∨
        Agrees (· ∈ draft.parents document) document.statements draft.lines) := by
  unfold parents
  simp only
  split
  · exact ⟨fun id member => absurd member (by simp), fun id member => absurd member (by simp), .inl rfl⟩
  · rename_i present
    rw [Bool.or_eq_true, not_or, List.any_eq_true, not_exists] at present
    obtain ⟨partly, all⟩ := present
    have whole : draft.touched.whole = false := by simpa using partly
    refine ⟨fun id member => ?_, fun id member => ?_, .inr (tracks.agrees whole)⟩
    · have found : (document.position? id).isSome := by
        by_contra absent
        exact all id ⟨member, by simp_all⟩
      rw [Document.position?, List.findIdx?_isSome, List.any_eq_true] at found
      obtain ⟨line, among, same⟩ := found
      obtain rfl : line.id = id := by simpa using same
      exact ⟨line, among, rfl, noop_of_seen tracks (tracks.before line among) member⟩
    · have found : draft.lines.any (·.id = id) := by
        by_contra absent
        exact all id ⟨member, by simp_all⟩
      rw [List.any_eq_true] at found
      obtain ⟨line, among, same⟩ := found
      obtain rfl : line.id = id := by simpa using same
      exact ⟨line, among, rfl, noop_of_seen tracks (tracks.now line among) member⟩

end Draft

namespace Document

variable {document : Document}

/-- What a plan gives: the lines after the edits in a document that counts the lines read for them. -/
structure Planned (document changed : Document) (parents : List StatementId) : Prop where
  sound : changed.Sound
  id : changed.id = document.id
  tabSize : changed.tabSize = document.tabSize
  old : document.Names parents
  new : changed.Names parents
  agrees : parents = [] ∨ Agrees (· ∈ parents) document.statements changed.statements

theorem Sound.counting (sound : document.Sound) {serial : Nat} (later : document.nextSerial ≤ serial) :
    { document with nextSerial := serial }.Sound where
  ids := sound.ids
  owned line member :=
    ⟨(sound.owned line member).1, Nat.lt_of_lt_of_le (sound.owned line member).2 later⟩
  read := sound.read

/-- Planning only counts lines, and what it plans can be announced. -/
theorem Sound.plan_spec (sound : document.Sound) (edits : List Edit) :
    (∃ serial, document.nextSerial ≤ serial ∧
      (document.plan edits).2 = { document with nextSerial := serial }) ∧
    ∀ plan, (document.plan edits).1 = .ok plan →
      Planned document ((document.plan edits).2.replace plan.statements) plan.parents := by
  obtain ⟨seen, tracks⟩ := Draft.tracks_applyAll (Draft.tracks_ofDocument sound) edits
  unfold plan
  generalize (Draft.ofDocument document).applyAll edits = result at tracks
  obtain ⟨draft, failure⟩ := result
  change Draft.Tracks document seen draft at tracks
  cases failure with
  | some reason => exact ⟨⟨_, tracks.counts, rfl⟩, fun plan planned => by contradiction⟩
  | none =>
    refine ⟨⟨_, tracks.counts, rfl⟩, fun plan planned => ?_⟩
    obtain rfl : EditPlan.mk draft.lines (draft.parents document) = plan := Except.ok.inj planned
    have changed : ({ document with nextSerial := draft.reader.nextSerial } : Document).replace draft.lines =
        draft.reader.replace draft.lines := by
      simp only [replace, tracks.id, tracks.tabSize]
    obtain ⟨old, new, agrees⟩ := Draft.parents_spec tracks
    simp only [changed]
    exact ⟨tracks.sound, tracks.id, tracks.tabSize, old, new, agrees⟩

end Document

end OutlineTypes
