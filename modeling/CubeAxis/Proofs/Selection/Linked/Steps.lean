import CubeAxis.Proofs.Selection.Linked.Signs

namespace CubeAxis
namespace LinkedTree

open SelectionTree

section

variable {σ ι : Type} [Arena σ ι (LinkedNode ι)]

/-- The arena of `u` comes from that of `t`, and the root keeps its index. -/
structure Extends (t u : LinkedTree σ ι) : Prop where
  run : ∃ given, Arena.Leads t.arena given u.arena
  root : u.root = t.root

theorem Extends.refl (t : LinkedTree σ ι) : t.Extends t :=
  ⟨⟨_, .refl⟩, rfl⟩

theorem Extends.trans {t u w : LinkedTree σ ι} (first : t.Extends u) (second : u.Extends w) :
    t.Extends w := by
  obtain ⟨given, before⟩ := first.run
  obtain ⟨later, after⟩ := second.run
  exact ⟨⟨_, before.trans after⟩, second.root.trans first.root⟩

theorem Represents.applyLevel {t : LinkedTree σ ι} {g : Forest (ι × Override)} {s : SelectionTree}
    (represents : t.Represents g s) (v : Sign) (l : Level) :
    (t.applyLevel v l).Represents g (s.applyLevel v l) := by
  have levels := represents.levels
  have next := represents.nextSequence
  exact { represents with
    levels := by rw [LinkedTree.applyLevel, SelectionTree.applyLevel, levels, next]
    nextSequence := congrArg (· + 1) next }

end

variable {σ ι : Type} [Arena σ ι (LinkedNode ι)] [DecidableEq ι] [Arena.Lawful σ]
  {t u : LinkedTree σ ι} {g f : Forest (ι × Override)} {s : SelectionTree} {i : ι}
  {place : List Nat} {m : Member} {path done : List Member}

/-- A new child of a node that is there stands after its siblings. -/
theorem Represents.createChild (represents : t.Represents g s)
    (found : g.indexAt? t.root place = some i) (m : Member) : ∃ c u h,
      t.createChild i m = (some c, u) ∧ t.Extends u ∧
      g.appendAt? m (c, .fresh s.nextSequence) place = some h ∧
      u.Represents h (s.createChild ⟨s.epoch, place⟩ m).2 := by
  obtain ⟨given, run⟩ := represents.run
  obtain ⟨c, u, made, fresh, step, stored, size, root, levels, next⟩ :=
    createChild_eq run (represents.isSome_node? found) m
  obtain ⟨r, site, -, -⟩ := represents.exists_site? found
  have live : (s.site? ⟨s.epoch, place⟩).isSome := by
    rw [site]
    rfl
  obtain ⟨_, overrides, -, grown, same⟩ := SelectionTree.createChild_eq m live
  have appended := g.appendAt?_map Prod.snd m (c, .fresh s.nextSequence) place
  rw [represents.overrides, grown] at appended
  obtain ⟨h, grownBelow, shape⟩ := Option.map_eq_some_iff.mp appended.symm
  have new : c ∉ t.root :: g.indices := fun mem =>
    fresh (run.mem_given (represents.isSome_of_mem mem))
  have known : i ∈ t.root :: g.indices := Forest.mem_cons_indices_of_indexAt? found
  have other : i ≠ c := fun same => new (same ▸ known)
  have child : u.node? c = some (Forest.entry m (c, .fresh s.nextSequence) i .nil) := by
    rw [stored, if_pos rfl, represents.nextSequence]
    rfl
  have parent : ∀ node, t.node? i = some node →
      u.node? i = some { node with children := node.children ++ [c] } := fun node here => by
    rw [stored, if_neg other, if_pos rfl, here]
    rfl
  have others : ∀ j, j ≠ c → j ≠ i → u.node? j = t.node? j := fun j apart beside => by
    rw [stored, if_neg apart, if_neg beside]
  have whole :=
    represents.stored.appendAt? grownBelow found represents.once new child parent others
  have perm : h.indices.Perm (c :: g.indices) := by
    have nodes := (Forest.nodes_appendAt? grownBelow).trans List.perm_append_comm
    exact nodes.map fun node => node.2.1
  have indices : (t.root :: h.indices).Perm (c :: t.root :: g.indices) :=
    (perm.cons t.root).trans (List.Perm.swap _ _ _)
  refine ⟨c, u, h, made, ⟨⟨_, step⟩, root⟩, grownBelow, ?_⟩
  rw [same]
  exact {
    run := ⟨_, run.trans step⟩
    root := by
      have apart : t.root ≠ c := fun same => new (same ▸ List.mem_cons_self)
      rw [root, stored, if_neg apart, Forest.heads_appendAt? grownBelow]
      by_cases top : place = []
      · rw [top, Forest.indexAt?_nil] at found
        rw [if_pos (Option.some.inj found), if_pos top, represents.root]
        rfl
      · have below : t.root ≠ i := fun same =>
          (List.nodup_cons.mp represents.once).1 (same ▸ Forest.mem_indices_of_indexAt? found top)
        rw [if_neg below, if_neg top, List.append_nil, represents.root]
    stored := root ▸ whole
    once := by
      rw [root]
      exact indices.nodup_iff.mpr (List.nodup_cons.mpr ⟨new, represents.once⟩)
    live := fun j here => by
      rw [root, indices.mem_iff, List.mem_cons, or_iff_not_imp_left]
      intro apart
      rw [stored, if_neg apart] at here
      refine represents.live j ?_
      split at here
      · rwa [Option.isSome_map] at here
      · exact here
    size := by
      rw [size, represents.size, ← Forest.length_indices, ← Forest.length_indices, perm.length_eq]
      rfl
    overrides := shape
    levels := levels.trans represents.levels
    nextSequence := next.trans (congrArg (· + 1) represents.nextSequence)
    strays := represents.strays }

/-- Clearing leaves the root, as it was made, and none of the nodes below it. -/
theorem Represents.clear_eq (represents : t.Represents g s) : ∃ u, t.clear = some u ∧
    Arena.Leads t.arena [] u.arena ∧ u.root = t.root ∧ u.levels = [] ∧ u.nextSequence = 1 ∧
    (∀ j, u.node? j = if j = t.root then some ⟨none, .withDescendants .excluded, none, [], 0⟩
      else if j ∈ g.indices then none else t.node? j) ∧
    Arena.size u.arena + g.size = Arena.size t.arena := by
  have apart := (List.nodup_cons.mp represents.once).1
  -- the root has given up its children when they are freed
  let bare := t.modify t.root fun node => { node with children := [] }
  have shown : ∀ j, bare.node? j = if j = t.root then
      some ⟨none, .withDescendants .excluded, none, [], 0⟩ else t.node? j := fun j => by
    refine (Arena.Lawful.get?_modify _ _ _ _).trans ?_
    split
    · rename_i top
      exact congrArg (Option.map _) (top ▸ represents.root)
    · rfl
  have stored : g.Stored bare.node? t.root := represents.stored.congr fun j mem => by
    rw [shown, if_neg (ne_of_mem_of_not_mem mem apart)]
  obtain ⟨freed, gone, counted⟩ := free_heads stored (List.nodup_cons.mp represents.once).2
  let emptied : LinkedTree σ ι :=
    { arena := free bare.arena g.heads, root := t.root, levels := [], nextSequence := 1 }
  let u := emptied.modify t.root fun node => { node with state := .withDescendants .excluded }
  have cleared : t.clear = some u := by
    rw [LinkedTree.clear, represents.root]
    rfl
  refine ⟨u, cleared, ((Arena.Leads.refl.modify _ _).trans freed).modify _ _, rfl, rfl, rfl,
    fun j => ?_, ?_⟩
  · refine (Arena.Lawful.get?_modify _ _ _ _).trans ?_
    rw [gone j]
    split
    · rename_i top
      rw [if_neg (top ▸ apart), top]
      exact congrArg (Option.map _) ((shown t.root).trans (if_pos rfl))
    · rename_i below
      have kept : Arena.get? bare.arena j = t.node? j := (shown j).trans (if_neg below)
      rw [kept]
  · have first : Arena.size bare.arena = Arena.size t.arena := Arena.Lawful.size_modify _ _ _
    have last : Arena.size u.arena = Arena.size (free bare.arena g.heads).1 :=
      Arena.Lawful.size_modify _ _ _
    omega

theorem Represents.clear (represents : t.Represents g s) :
    ∃ u, t.clear = some u ∧ t.Extends u ∧ u.Represents .nil s.clear := by
  obtain ⟨given, run⟩ := represents.run
  obtain ⟨u, cleared, step, root, levels, next, left, counted⟩ := represents.clear_eq
  refine ⟨u, cleared, ⟨⟨_, step⟩, root⟩, {
    run := ⟨_, run.trans step⟩
    root := root ▸ (left t.root).trans (if_pos rfl)
    stored := trivial
    once := List.nodup_singleton _
    live := fun j here => ?_
    size := ?_
    overrides := rfl
    levels := levels
    nextSequence := next
    strays := represents.strays }⟩
  · refine List.mem_singleton.mpr (by_contra fun below => ?_)
    rw [root] at below
    rw [left, if_neg below] at here
    split at here
    · cases here
    · rename_i absent
      exact absurd (represents.live j here) (by simp [below, absent])
  · have whole := represents.size
    rw [Forest.size]
    omega

end LinkedTree
end CubeAxis
