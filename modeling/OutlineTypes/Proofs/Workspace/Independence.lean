import OutlineTypes.Proofs.Resolution.TwinCopies
import OutlineTypes.Proofs.Workspace.Deeds
import OutlineTypes.Proofs.Workspace.TwinWorkspaces

/-! Independence. What new sessions come to say of a document depends on what was done to that document and on the
paths of it that are drilled, and on nothing that is done or drilled elsewhere. -/
namespace OutlineTypes.Workspace

variable {workspace solo : Workspace} {id : DocumentId}

/-- What a new session holds for one document once these paths are drilled in it. -/
def account (workspace : Workspace) (id : DocumentId) (paths : List TypePath) : Except Fatal (Option Account) :=
  return (← workspace.drilled paths).account? workspace.graph id

/-- The document, or one without lines if it is not there. -/
def subject (workspace : Workspace) (id : DocumentId) : Document :=
  (workspace.document? id).getD (.empty id workspace.options.tabSize)

theorem Synchronised.id_subject (synchronised : workspace.Synchronised) (id : DocumentId) :
    (workspace.subject id).id = id := by
  unfold subject
  cases found : workspace.document? id with
  | none => rfl
  | some document => exact (synchronised.belongs id document found).owner

theorem Synchronised.offers_subject (synchronised : workspace.Synchronised) (id : DocumentId) :
    workspace.Offers (workspace.subject id) := by
  rw [Offers, synchronised.id_subject, subject]
  cases found : workspace.document? id with
  | none => exact .inr ⟨rfl, rfl⟩
  | some document => exact .inl rfl

namespace Kin

theorem offersOnly (kin : Kin id workspace solo) : solo.OffersOnly ((workspace.subject id).rename id.leading) := by
  have entries := kin.documents
  unfold OffersOnly OrderedMap.values subject
  cases found : workspace.document? id with
  | none =>
    rw [found] at entries
    exact .inr ⟨by rw [entries]; rfl, rfl⟩
  | some document =>
    rw [found] at entries
    exact .inl (by rw [entries]; rfl)

variable (kin : Kin id workspace solo) (synchronised : workspace.Synchronised) (again : solo.Synchronised)
include kin synchronised again

theorem twinScenes : TwinScenes [(workspace.subject id, (workspace.subject id).rename id.leading)] workspace.scene
    solo.scene := by
  have offers := synchronised.offers_subject id
  have only := kin.offersOnly
  have like := (workspace.subject id).likewise_rename id.leading
  have paired := synchronised.paired again offers (again.offers_of_only only) like
  have copies : Listing.Copies id.leading_injective (workspace.subject id).id workspace.graph.listing
      solo.graph.listing := by
    rw [synchronised.id_subject]
    exact kin.listing
  exact synchronised.twinScenes again kin.options offers only paired (copies.sameOrder paired)

/-- The account of the document is the one that its copy has on its own. -/
theorem account (paths : List TypePath) : ∃ account, workspace.account id paths = .ok (some account) ∧
    solo.account ⟨0⟩ ((paths.filter (·.document = id)).map (TypePath.rename id.leading)) = .ok (some account) := by
  have scenes := kin.twinScenes synchronised again
  have owner := synchronised.id_subject id
  have covers (other : DocumentId) : Graph.Pairing.Covers
      [(workspace.subject id, (workspace.subject id).rename id.leading)] other ↔ other = id := by
    simp [Graph.Pairing.Covers, owner, eq_comm]
  have same : List.Forall₂ (Graph.Pairing.SamePath [(workspace.subject id, (workspace.subject id).rename id.leading)])
      (paths.filter fun path => Graph.Pairing.Covers
        [(workspace.subject id, (workspace.subject id).rename id.leading)] path.document)
      ((paths.filter (·.document = id)).map (TypePath.rename id.leading)) := by
    simp only [covers]
    refine List.forall₂_map_right_iff.mpr (List.forall₂_same.mpr fun path member => ?_)
    have ours : path.document = id := of_decide_eq_true (List.mem_filter.mp member).2
    exact Graph.Pairing.samePath_rename (ours.trans owner.symm)
  obtain ⟨session, drilled, _, ranged⟩ := (synchronised.drilled_succeeds paths).and_ensures
    (synchronised.drilled_all (Documents.warrants_ranged _) paths)
  obtain ⟨twin, drilledToo, _, rangedToo⟩ :=
    (again.drilled_succeeds ((paths.filter (·.document = id)).map (TypePath.rename id.leading))).and_ensures
      (again.drilled_all (Documents.warrants_ranged _) _)
  have twins := drilled_lockstep scenes same session twin drilled drilledToo
  obtain ⟨account, here, there⟩ := twins.agree_account id.leading_injective scenes ranged rangedToo
  rw [owner] at here
  rw [owner, DocumentId.leading_self] at there
  refine ⟨account, ?_, ?_⟩
  · rw [Workspace.account, drilled, ok_bind, ← here]
    rfl
  · rw [Workspace.account, drilledToo, ok_bind, ← there]
    rfl

end Kin

/-- Documents that underwent the same in two histories are resolved alike. Whatever else is done and drilled in
between, drills of the same paths lead to the same parallels and the same faults, up to the identities of documents,
nodes, edges and parallels. -/
theorem histories_account_alike (options : Options) (requests others : List Request) (id other : DocumentId)
    (deeds : deeds id 0 requests = deeds other 0 others) (paths more : List TypePath)
    (drills : (paths.filter (·.document = id)).map TypePath.names =
      (more.filter (·.document = other)).map TypePath.names) :
    ∃ workspace again account, (empty options).serveAll requests = .ok workspace ∧
      (empty options).serveAll others = .ok again ∧ workspace.account id paths = .ok (some account) ∧
        again.account other more = .ok (some account) := by
  obtain ⟨workspace, solo, reached, alone, kin⟩ := history_kin options id requests
  obtain ⟨again, same, reachedToo, aloneToo, kinToo⟩ := history_kin options other others
  rw [deeds] at alone
  cases alone.symm.trans aloneToo
  have synchronised := ((history_succeeds options requests).post_of_eq reached).synchronised
  have synchronisedToo := ((history_succeeds options others).post_of_eq reachedToo).synchronised
  have soloToo := ((history_succeeds options _).post_of_eq aloneToo).synchronised
  have paths_eq : (paths.filter (·.document = id)).map (TypePath.rename id.leading) =
      (more.filter (·.document = other)).map (TypePath.rename other.leading) := by
    rw [← List.forall₂_eq_eq_eq, List.forall₂_map_left_iff, List.forall₂_map_right_iff]
    refine forall₂_of_map_eq drills fun path member twin among names => TypePath.ext_names ?_ names
    have ours : path.document = id := of_decide_eq_true (List.mem_filter.mp member).2
    have theirs : twin.document = other := of_decide_eq_true (List.mem_filter.mp among).2
    simp only [TypePath.rename, ours, theirs, DocumentId.leading_self]
  obtain ⟨account, here, there⟩ := kin.account synchronised soloToo paths
  obtain ⟨accountToo, hereToo, thereToo⟩ := kinToo.account synchronisedToo soloToo more
  rw [← paths_eq, there, Except.ok.injEq, Option.some.injEq] at thereToo
  exact ⟨workspace, again, account, reached, reachedToo, here, thereToo ▸ hereToo⟩

def alone : List Request := [.add "A : B\nB : A\nC : z"]

/-- The same document, next to one with a misindented line that changes later. -/
def accompanied : List Request := [.add "q : r\n \tz", .add "A : B\nB : A\nC : z", .edit ⟨0⟩ [.insert 0 "s : q"]]

theorem accompanied_accounts_alike : ∃ workspace again account, deeds ⟨0⟩ 0 alone = deeds ⟨1⟩ 0 accompanied ∧
    (empty ⟨4, true⟩).serveAll alone = .ok workspace ∧ (empty ⟨4, true⟩).serveAll accompanied = .ok again ∧
      workspace.account ⟨0⟩ [⟨⟨0⟩, ["A"], by decide⟩, ⟨⟨0⟩, ["C"], by decide⟩] = .ok (some account) ∧
        again.account ⟨1⟩ [⟨⟨0⟩, ["s"], by decide⟩, ⟨⟨1⟩, ["A"], by decide⟩, ⟨⟨0⟩, ["q"], by decide⟩,
          ⟨⟨1⟩, ["C"], by decide⟩] = .ok (some account) ∧
        account.parallels.length = 3 ∧ account.faults.map (·.kind) = [.circular, .circular, .unresolved] := by
  have deeds : deeds ⟨0⟩ 0 alone = deeds ⟨1⟩ 0 accompanied := by decide +kernel
  obtain ⟨workspace, again, account, reached, reachedToo, here, there⟩ := histories_account_alike ⟨4, true⟩ alone
    accompanied ⟨0⟩ ⟨1⟩ deeds [⟨⟨0⟩, ["A"], by decide⟩, ⟨⟨0⟩, ["C"], by decide⟩] [⟨⟨0⟩, ["s"], by decide⟩,
      ⟨⟨1⟩, ["A"], by decide⟩, ⟨⟨0⟩, ["q"], by decide⟩, ⟨⟨1⟩, ["C"], by decide⟩] (by decide)
  have known : ((empty ⟨4, true⟩).serveAll alone).bind (fun workspace =>
      (workspace.account ⟨0⟩ [⟨⟨0⟩, ["A"], by decide⟩, ⟨⟨0⟩, ["C"], by decide⟩]).map fun account =>
        account.map fun account => (account.parallels.length, account.faults.map (·.kind))) =
      .ok (some (3, [.circular, .circular, .unresolved])) := by decide +kernel
  rw [reached] at known
  simp only [Except.bind, here, Except.map, Option.map_some, Except.ok.injEq, Option.some.injEq, Prod.mk.injEq] at known
  exact ⟨workspace, again, account, deeds, reached, reachedToo, here, there, known⟩

end OutlineTypes.Workspace
