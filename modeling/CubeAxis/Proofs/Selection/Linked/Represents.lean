import CubeAxis.Proofs.Selection.Sound
import CubeAxis.Proofs.Selection.Linked.Stored

namespace CubeAxis
namespace LinkedTree

open SelectionTree

variable {σ ι : Type} [Arena σ ι (LinkedNode ι)]

/-- The tree has a node for each node of the forest and none besides, linked as they stand
there. -/
structure Represents (t : LinkedTree σ ι) (g : Forest (ι × Override)) (s : SelectionTree) :
    Prop where
  run : ∃ given, Arena.Leads (Arena.empty : σ) given t.arena
  root : t.node? t.root = some ⟨none, .withDescendants .excluded, none, g.heads, 0⟩
  stored : g.Stored t.node? t.root
  once : (t.root :: g.indices).Nodup
  live : ∀ i, (t.node? i).isSome → i ∈ t.root :: g.indices
  size : Arena.size t.arena = g.size + 1
  overrides : g.map Prod.snd = s.overrides
  levels : t.levels = s.levels
  nextSequence : t.nextSequence = s.nextSequence
  strays : s.strays = 0

section

variable {t : LinkedTree σ ι} {g : Forest (ι × Override)} {s : SelectionTree} {a : σ} {i : ι}
  {rest : List ι} {node : LinkedNode ι}

theorem Represents.held (represents : t.Represents g s) : g.Held t.node? t.root :=
  ⟨⟨_, represents.root, rfl⟩, represents.stored⟩

/-- What is stored for a node is what shows at its place, with the links to its parent and to
its children. -/
theorem Represents.exists_site? (represents : t.Represents g s) {place : List Nat}
    (found : g.indexAt? t.root place = some i) : ∃ r, s.site? ⟨s.epoch, place⟩ = some r ∧
      r.children = (g.under place).map Prod.snd ∧
      t.node? i = some ⟨r.member?, r.state.toSets,
        if place = [] then none else g.indexAt? t.root place.dropLast,
        (g.under place).heads, r.sequence⟩ := by
  by_cases top : place = []
  · subst top
    rw [Forest.indexAt?_nil] at found
    obtain rfl : t.root = i := Option.some.inj found
    refine ⟨s.rootSite, site?_of_place_eq_nil rfl, ?_, ?_⟩
    · rw [Forest.under_nil]
      exact represents.overrides.symm
    · rw [represents.root, SignSets.withDescendants_eq, Forest.under_nil]
      rfl
  · obtain ⟨r, site, lower, shown⟩ := represents.stored.exists_siteAt? found top .top
    rw [represents.overrides] at site
    refine ⟨r, (site?_eq_some_iff top).mpr ⟨rfl, site⟩, lower, ?_⟩
    rwa [if_neg top]

theorem Represents.node?_eq (represents : t.Represents g s) {place : List Nat} {r : Site}
    (found : g.indexAt? t.root place = some i) (site : s.site? ⟨s.epoch, place⟩ = some r) :
    t.node? i = some ⟨r.member?, r.state.toSets,
      if place = [] then none else g.indexAt? t.root place.dropLast, (g.under place).heads,
      r.sequence⟩ := by
  obtain ⟨r', same, -, shown⟩ := represents.exists_site? found
  obtain rfl : r = r' := Option.some.inj (site.symm.trans same)
  exact shown

theorem Represents.exists_indexAt? (represents : t.Represents g s) {place : List Nat} {r : Site}
    (site : s.site? ⟨s.epoch, place⟩ = some r) : ∃ i, g.indexAt? t.root place = some i := by
  by_cases top : place = []
  · exact ⟨t.root, top ▸ Forest.indexAt?_nil t.root g⟩
  · obtain ⟨-, below⟩ := (site?_eq_some_iff top).mp site
    rw [← represents.overrides] at below
    exact Forest.exists_indexAt?_of_siteAt? below t.root

theorem Represents.exists_place (represents : t.Represents g s) (live : (t.node? i).isSome) :
    ∃ place, g.indexAt? t.root place = some i := by
  rcases List.mem_cons.mp (represents.live i live) with rfl | below
  · exact ⟨[], Forest.indexAt?_nil t.root g⟩
  · obtain ⟨k, place, found⟩ := Forest.exists_indexAt? t.root below
    exact ⟨k :: place, found⟩

theorem Represents.isSome_node? (represents : t.Represents g s)
    (found : g.indexAt? t.root place = some i) : (t.node? i).isSome := by
  obtain ⟨r, -, -, shown⟩ := represents.exists_site? found
  rw [shown]
  rfl

theorem Represents.isSome_of_mem (represents : t.Represents g s) (mem : i ∈ t.root :: g.indices) :
    (t.node? i).isSome := by
  rcases List.mem_cons.mp mem with rfl | below
  · exact represents.isSome_node? (Forest.indexAt?_nil t.root g)
  · obtain ⟨k, place, found⟩ := Forest.exists_indexAt? t.root below
    exact represents.isSome_node? found

theorem free_nil (a : σ) : (free a []).1 = a := by
  rw [free]

theorem free_cons (taken : (Arena.remove a i).1 = some node) :
    (free a (i :: rest)).1 = (free (free (Arena.remove a i).2 node.children).1 rest).1 := by
  rw [free]
  split
  · rename_i none
    rw [taken] at none
    cases none
  · rename_i other same
    obtain rfl : node = other := Option.some.inj (taken.symm.trans same)
    rfl

end

variable [DecidableEq ι] [Arena.Lawful σ] {t : LinkedTree σ ι} {g f : Forest (ι × Override)}
  {s : SelectionTree} {a : σ} {i upper : ι} {place : List Nat} {m : Member} {given : List ι}

/-- Freeing the top nodes of a stored forest takes out its nodes and no others. -/
theorem free_heads (stored : f.Stored (Arena.get? a) upper) (once : f.indices.Nodup) :
    Arena.Leads a [] (free a f.heads).1 ∧
      (∀ i, Arena.get? (free a f.heads).1 i = if i ∈ f.indices then none else Arena.get? a i) ∧
      Arena.size (free a f.heads).1 + f.size = Arena.size a := by
  induction f generalizing a upper with
  | nil =>
    rw [Forest.heads, free_nil]
    exact ⟨.refl, fun i => (if_neg List.not_mem_nil).symm, rfl⟩
  | cons m v children siblings ihBelow ihBeside =>
    obtain ⟨here, below, beside⟩ := stored
    obtain ⟨⟨ownBelow, ownBeside⟩, onceBelow, onceBeside, apart⟩ :=
      Forest.nodup_indices_cons.mp once
    have taken := (Arena.Lawful.remove_fst a v.1).trans here
    have counted := Arena.size_remove a v.1
    have gone := Arena.Lawful.get?_remove a v.1
    have removed := (Arena.Leads.refl (a := a)).remove v.1
    rw [taken, Option.toList_some, List.length_singleton] at counted
    rw [Forest.heads, free_cons taken]
    generalize (Arena.remove a v.1).2 = b at counted gone removed ⊢
    have kept : ∀ i, i ≠ v.1 → Arena.get? b i = Arena.get? a i :=
      fun i other => (gone i).trans (if_neg other)
    obtain ⟨lead, freed, fewer⟩ := ihBelow (a := b)
      (below.congr fun i mem => kept i fun same => ownBelow (same ▸ mem)) onceBelow
    change Arena.Leads a [] (free (free b children.heads).1 siblings.heads).1 ∧
      (∀ i, Arena.get? (free (free b children.heads).1 siblings.heads).1 i = _) ∧
      Arena.size (free (free b children.heads).1 siblings.heads).1 + _ = _
    generalize (free b children.heads).1 = c at lead freed fewer ⊢
    -- the siblings stand as they did, whatever was freed below the first of them
    have left : siblings.Stored (Arena.get? c) upper := beside.congr fun i mem => by
      rw [freed, if_neg fun low => apart i low i mem rfl, kept i fun same => ownBeside (same ▸ mem)]
    obtain ⟨further, emptied, least⟩ := ihBeside left onceBeside
    refine ⟨(removed.trans lead).trans further, fun i => ?_, ?_⟩
    · rw [emptied, freed, gone, Forest.indices_cons]
      simp only [List.mem_cons, List.mem_append]
      split_ifs <;> tauto
    · rw [Forest.size]
      omega

theorem represents_new : (new : LinkedTree σ ι).Represents .nil .empty := by
  have run := (Arena.Leads.refl (a := (Arena.empty : σ)))
  have here := Arena.Lawful.get?_insert run (⟨none, .withDescendants .excluded, none, [], 0⟩)
  refine ⟨⟨_, run.insert _⟩, ?_, trivial, List.nodup_singleton _, fun i live => ?_, ?_, rfl, rfl,
    rfl, rfl⟩
  · exact (here _).trans (if_pos rfl)
  · refine List.mem_singleton.mpr (by_contra fun other => ?_)
    have gone : (new : LinkedTree σ ι).node? i = none :=
      ((here i).trans (if_neg other)).trans (Arena.Lawful.get?_empty i)
    rw [gone] at live
    cases live
  · exact (Arena.Lawful.size_insert run _).trans (congrArg (· + 1) Arena.Lawful.size_empty)

/-- What comes of a new child of a node that is there. -/
theorem createChild_eq (run : Arena.Leads (Arena.empty : σ) given t.arena)
    (live : (t.node? i).isSome) (m : Member) : ∃ c u, t.createChild i m = (some c, u) ∧
      c ∉ given ∧ Arena.Leads t.arena [c] u.arena ∧
      (∀ j, u.node? j = if j = c then some ⟨some m, {}, some i, [], t.nextSequence⟩
        else if j = i then (t.node? j).map fun node =>
          { node with children := node.children ++ [c] }
        else t.node? j) ∧
      Arena.size u.arena = Arena.size t.arena + 1 ∧ u.root = t.root ∧ u.levels = t.levels ∧
      u.nextSequence = t.nextSequence + 1 := by
  let node : LinkedNode ι := ⟨some m, {}, some i, [], t.nextSequence⟩
  have fresh := Arena.Lawful.insert_fresh run node
  have here := Arena.Lawful.get?_insert run node
  have counted := Arena.Lawful.size_insert run node
  have step := (Arena.Leads.refl (a := t.arena)).insert node
  have other : i ≠ (Arena.insert t.arena node).1 := fun same => fresh (same ▸ run.mem_given live)
  have still : (Arena.get? (Arena.insert t.arena node).2 i).isSome := by
    rw [here, if_neg other]
    exact live
  have made : t.createChild i m = (some (Arena.insert t.arena node).1,
      ({ t with
        arena := (Arena.insert t.arena node).2
        nextSequence := t.nextSequence + 1 } : LinkedTree σ ι).modify i fun parent =>
          { parent with children := parent.children ++ [(Arena.insert t.arena node).1] }) :=
    if_pos still
  refine ⟨_, _, made, fresh, step.modify _ _, fun j => ?_, ?_, rfl, rfl, rfl⟩
  · change Arena.get? (Arena.modify (Arena.insert t.arena node).2 i _) j = _
    rw [Arena.Lawful.get?_modify, here]
    by_cases new : j = (Arena.insert t.arena node).1
    · subst new
      rw [if_neg (Ne.symm other), if_pos rfl, if_pos rfl]
    · rw [if_neg new, if_neg new]
      rfl
  · exact (Arena.Lawful.size_modify _ _ _).trans counted

end LinkedTree
end CubeAxis
