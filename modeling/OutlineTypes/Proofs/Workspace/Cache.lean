import OutlineTypes.Proofs.Workspace.Growth

/-! The cache of the current session. Each path that was drilled has one parallel, with those of all that
contains it around it, and a parallel stands for the sound node at its path and for no other. -/
namespace OutlineTypes

namespace Session

variable {scene : Scene} {session : Session}

/-- How paths, parallels and nodes belong together. -/
structure Catalogued (scene : Scene) (session : Session) : Prop where
  /-- A path finds a parallel if and only if that is the parallel's own path. -/
  lookup : ∀ path id, session.lookup? path = some id ↔
    ∃ parallel, session.parallel? id = some parallel ∧ parallel.path = path
  paths : (session.parallels.map Parallel.path).Nodup
  roots : ∀ id parallel, session.parallel? id = some parallel → parallel.path.container? = none →
    parallel.container = none
  containers : ∀ id parallel outer, session.parallel? id = some parallel →
    parallel.path.container? = some outer →
      ∃ around, session.lookup? outer = some around ∧ parallel.container = some around
  /-- What backs a parallel is the node at its path that is no cruft, and nothing if there is none. -/
  nodes : ∀ id parallel, session.parallel? id = some parallel → ∀ backing,
    (∃ resolved, parallel.explicit = some resolved ∧ resolved.node = backing) ↔
      ∃ node ∈ scene.graph.nodes, node.path = parallel.path ∧ node.id = backing ∧
        session.cruft.hasNode backing = false
  bases : ∀ id parallel resolved, session.parallel? id = some parallel → parallel.explicit = some resolved →
    ∀ edge ∈ resolved.bases.keys, ∃ outbound ∈ scene.graph.outbounds resolved.node, outbound.id = edge

theorem Sane.nodup_paths {graph : Graph} (sane : session.Sane graph) :
    (session.parallels.map Parallel.path).Nodup := by
  refine List.pairwise_iff_getElem.mpr fun first second low high before same => ?_
  rw [List.length_map] at low high
  rw [List.getElem_map, List.getElem_map] at same
  have index := sane.paths ⟨first⟩ ⟨second⟩ _ _ (List.getElem?_eq_getElem low) (List.getElem?_eq_getElem high) same
  rw [ParallelId.mk.injEq] at index
  omega

theorem soundNode?_eq_some_iff (framed : scene.graph.Framed) {path : TypePath} {backing : NodeId} :
    session.soundNode? scene path = some backing ↔ ∃ node ∈ scene.graph.nodes, node.path = path ∧
      node.id = backing ∧ session.cruft.hasNode backing = false := by
  unfold soundNode?
  constructor
  · intro sound
    cases found : scene.graph.nodeAt? path with
    | none => simp [found] at sound
    | some node =>
      obtain ⟨member, same⟩ := framed.nodeAt?_eq_some_iff.mp found
      simp only [found, Option.ite_none_left_eq_some, Option.some.injEq, Bool.not_eq_true] at sound
      exact ⟨node, member, same, sound.2, sound.2 ▸ sound.1⟩
  · rintro ⟨node, member, same, rfl, sound⟩
    rw [framed.nodeAt?_eq_some_iff.mpr ⟨member, same⟩]
    exact if_neg (by simpa using sound)

theorem AtRest.catalogued (rest : session.AtRest scene) (framed : scene.graph.Framed) (housed : session.Housed) :
    Catalogued scene session where
  lookup _ _ := rest.sane.lookup?_eq_some_iff
  paths := rest.sane.nodup_paths
  roots id parallel found root := by
    rw [housed id parallel found, root]
    rfl
  containers id parallel outer found inside := by
    obtain ⟨around, cached, _⟩ := rest.orderly.enclosed id parallel found outer inside
    refine ⟨around, cached, ?_⟩
    rw [housed id parallel found, inside]
    exact cached
  nodes id parallel found backing := by
    rw [← soundNode?_eq_some_iff framed, ← rest.orderly.kinds id parallel found, Option.map_eq_some_iff]
  bases id parallel resolved found explicit edge member := by
    obtain ⟨entry, listed, rfl⟩ := List.mem_map.mp member
    have settled := rest.settled id parallel found
    have answered := rest.orderly.answered id settled parallel found resolved explicit
    obtain ⟨_, outbound, among, same, _⟩ := answered.asked entry listed
    exact ⟨outbound, among, same⟩

end Session

namespace Workspace

/-- After any history the current session knows each of its parallels by its path, with its containers, its node
and its edges. -/
theorem history_catalogued (options : Options) (requests : List Request) :
    ∃ workspace, (empty options).serveAll requests = .ok workspace ∧
      workspace.session.Catalogued workspace.scene := by
  obtain ⟨workspace, reached, synchronised, rested, _, _, outgrows⟩ := history_grown options requests
  have framed : workspace.scene.graph.Framed := synchronised.settled.toFramed
  exact ⟨workspace, reached, rested.atRest_session.2.catalogued framed outgrows.housed⟩

/-- The session of a type that inherits: two types with one name below each, which one of them declares. -/
theorem inherited_catalogued : ∃ workspace,
    (empty ⟨4, true⟩).serveAll [.add "A : B\nB\n\tX", .resolve ⟨⟨0⟩, ["A", "X"], by decide⟩] = .ok workspace ∧
      workspace.session.Catalogued workspace.scene ∧
      workspace.session.parallels.map (fun parallel => (parallel.path.names, parallel.container,
        parallel.explicit.map fun resolved => resolved.bases.keys)) =
        [(["A"], none, some [⟨0⟩]), (["B"], none, some []), (["A", "X"], some ⟨0⟩, none), (["B", "X"], some ⟨1⟩, some [])] := by
  obtain ⟨workspace, reached, catalogued⟩ :=
    history_catalogued ⟨4, true⟩ [.add "A : B\nB\n\tX", .resolve ⟨⟨0⟩, ["A", "X"], by decide⟩]
  have evaluated : ((empty ⟨4, true⟩).serveAll
      [.add "A : B\nB\n\tX", .resolve ⟨⟨0⟩, ["A", "X"], by decide⟩]).map (fun workspace =>
        workspace.session.parallels.map (fun parallel => (parallel.path.names, parallel.container,
          parallel.explicit.map fun resolved => resolved.bases.keys))) =
      .ok [(["A"], none, some [⟨0⟩]), (["B"], none, some []), (["A", "X"], some ⟨0⟩, none), (["B", "X"], some ⟨1⟩, some [])] := by
    decide +kernel
  simp only [reached, Except.map, Except.ok.injEq] at evaluated
  exact ⟨workspace, reached, catalogued, evaluated⟩

end Workspace
end OutlineTypes
