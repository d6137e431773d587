import CubeAxis.Proofs.Selection.Places
import CubeAxis.Proofs.Selection.Replay

namespace CubeAxis
namespace Forest

variable {α : Type} {f : Forest α} {make : Nat → α} {update : α → α} {n : Nat} {path : List Member}

theorem forall_nodes_branch (good : α → Prop) (fresh : ∀ n, good (make n)) (keeps : ∀ v, good v → good (update v)) :
    ∀ p ∈ (branch make update path n).nodes, good p.2 := by
  induction path generalizing n with
  | nil => exact nofun
  | cons m path ih =>
    rcases path with _ | ⟨k, path⟩
    · simpa [branch, nodes] using keeps _ (fresh n)
    · intro p mem
      rcases List.mem_cons.mp mem with rfl | later
      · exact fresh n
      · exact ih p (by simpa [nodes] using later)

/-- What new values have and an update keeps holds of all nodes. -/
theorem forall_nodes_upsert (good : α → Prop) (all : ∀ p ∈ f.nodes, good p.2) (fresh : ∀ n, good (make n))
    (keeps : ∀ v, good v → good (update v)) : ∀ p ∈ (f.upsert make update n path).nodes, good p.2 := by
  induction f generalizing path with
  | nil => exact forall_nodes_branch good fresh keeps
  | cons k v children siblings ihBelow ihBeside =>
    simp only [nodes, List.forall_mem_cons, List.forall_mem_append] at all
    obtain ⟨own, below, beside⟩ := all
    rcases path with _ | ⟨m, path⟩
    · simp only [upsert, nodes, List.forall_mem_cons, List.forall_mem_append]
      exact ⟨own, below, beside⟩
    · rw [upsert]
      split
      · split <;> simp only [nodes, List.forall_mem_cons, List.forall_mem_append]
        · exact ⟨keeps v own, below, beside⟩
        · exact ⟨own, ihBelow below, beside⟩
      · simp only [nodes, List.forall_mem_cons, List.forall_mem_append]
        exact ⟨own, below, ihBeside beside⟩

end Forest

namespace SelectionTree

/-- The trees that `t` leads to by actions, by clearing, and by new children of nodes that
are there. -/
inductive Leads (t : SelectionTree) : SelectionTree → Prop
  | refl : Leads t t
  | apply {u : SelectionTree} (a : Selection) : Leads t u → Leads t (u.apply a)
  | clear {u : SelectionTree} : Leads t u → Leads t u.clear
  | createChild {u : SelectionTree} {id : NodeId} (m : Member) : Leads t u →
      (u.site? id).isSome → Leads t (u.createChild id m).2

/-- What every step keeps: the numbers are in order, no node records a sign that its
subtree sign gives anyway, and every node hangs in the tree. -/
structure Sound (t : SelectionTree) : Prop extends t.Numbered where
  levelsAbove : ∀ o ∈ t.levels, 0 < o.sequence
  settled : ∀ p ∈ t.overrides.nodes, p.2.state.Settled
  strays : t.strays = 0

variable {t u : SelectionTree} {id : NodeId} {s : Site} {m : Member}

theorem site?_of_place_eq_nil (root : id.place = []) : t.site? id = some t.rootSite := by
  rw [site?, root]
  rfl

theorem site?_eq_some_iff (any : id.place ≠ []) :
    t.site? id = some s ↔ id.epoch = t.epoch ∧ t.overrides.siteAt? .top id.place = some s := by
  rw [site?, if_neg (by simpa using any)]
  split
  · rename_i same
    rw [and_iff_right same]
  · rename_i other
    simp [other]

/-- A node that is there is the root or has a place of its own. -/
theorem site?_cases (found : t.site? id = some s) : id.place = [] ∧ s = t.rootSite ∨
    id.place ≠ [] ∧ id.epoch = t.epoch ∧ t.overrides.siteAt? .top id.place = some s := by
  by_cases root : id.place = []
  · rw [site?_of_place_eq_nil root] at found
    exact Or.inl ⟨root, (Option.some.inj found).symm⟩
  · exact Or.inr ⟨root, (site?_eq_some_iff root).mp found⟩

/-- A new child of a node that is there comes after its siblings. -/
theorem createChild_eq (m : Member) (live : (t.site? id).isSome) : ∃ s overrides,
    t.site? id = some s ∧
      t.overrides.appendAt? m (.fresh t.nextSequence) id.place = some overrides ∧
      t.createChild id m = (some ⟨t.epoch, id.place ++ [s.children.labels.length]⟩,
        { t with overrides := overrides, nextSequence := t.nextSequence + 1 }) := by
  obtain ⟨s, found⟩ := Option.isSome_iff_exists.mp live
  have there : id.place = [] ∨ ∃ s, t.overrides.siteAt? .top id.place = some s :=
    (site?_cases found).imp And.left fun below => ⟨s, below.2.2⟩
  obtain ⟨overrides, made⟩ :=
    Forest.exists_appendAt? m (.fresh t.nextSequence) t.overrides there
  have same : ({ t with nextSequence := t.nextSequence + 1 } : SelectionTree).site? id = some s :=
    found
  refine ⟨s, overrides, found, made, ?_⟩
  simp only [createChild, same, made]

theorem Numbered.createChild (numbered : t.Numbered) (m : Member) (live : (t.site? id).isSome) :
    (t.createChild id m).2.Numbered := by
  obtain ⟨s, overrides, -, made, same⟩ := createChild_eq m live
  have perm : (overrides.numbers ++ t.levels.map (·.sequence)).Perm
      (t.nextSequence :: (t.overrides.numbers ++ t.levels.map (·.sequence))) := by
    have nodes := (Forest.nodes_appendAt? made).trans List.perm_append_comm
    exact (nodes.map fun p => p.2.sequence).append_right _
  rw [same]
  refine ⟨Nat.succ_pos _, fun n mem => ?_, perm.nodup_iff.mpr (List.nodup_cons.mpr ⟨?_, numbered.once⟩),
    numbered.rising.appendAt? made numbered.positive fun n mem =>
      numbered.used n (List.mem_append_left _ mem), numbered.levels⟩
  · rcases List.mem_cons.mp (perm.mem_iff.mp mem) with rfl | old
    · exact Nat.lt_succ_self _
    · exact Nat.lt_succ_of_lt (numbered.used n old)
  · exact fun mem => Nat.lt_irrefl _ (numbered.used _ mem)

theorem sound_empty : SelectionTree.empty.Sound :=
  ⟨numbered_empty, nofun, nofun, rfl⟩

theorem Sound.apply (sound : t.Sound) (a : Selection) : (t.apply a).Sound := by
  obtain ⟨sign, operator, k | l⟩ := a
  · have fresh : ∀ n, (Override.fresh n).state.Settled := fun _ => nofun
    have keeps : ∀ o : Override, o.state.Settled →
        ((t.inheritedBy k).record o.state sign operator).Settled :=
      fun o settled => Inherited.settled_record settled sign operator
    exact ⟨sound.applyMember sign operator k, sound.levelsAbove,
      Forest.forall_nodes_upsert (fun o : Override => o.state.Settled) sound.settled fresh keeps,
      sound.strays⟩
  · refine ⟨sound.applyLevel sign l, fun o mem => ?_, sound.settled, sound.strays⟩
    rcases List.mem_append.mp mem with old | new
    · exact sound.levelsAbove o (List.mem_of_mem_filter old)
    · obtain rfl := List.mem_singleton.mp new
      exact sound.positive

theorem Sound.clear (sound : t.Sound) : t.clear.Sound :=
  ⟨numbered_clear t, nofun, nofun, sound.strays⟩

theorem Sound.createChild (sound : t.Sound) (m : Member) (live : (t.site? id).isSome) :
    (t.createChild id m).2.Sound := by
  have numbered := sound.toNumbered.createChild m live
  obtain ⟨s, overrides, -, made, same⟩ := createChild_eq m live
  rw [same] at numbered ⊢
  refine ⟨numbered, sound.levelsAbove, fun p mem => ?_, sound.strays⟩
  rcases List.mem_append.mp ((Forest.nodes_appendAt? made).mem_iff.mp mem) with old | new
  · exact sound.settled p old
  · obtain rfl := List.mem_singleton.mp new
    exact nofun

theorem Leads.sound (leads : t.Leads u) (sound : t.Sound) : u.Sound := by
  induction leads with
  | refl => exact sound
  | apply a _ ih => exact ih.apply a
  | clear _ ih => exact ih.clear
  | createChild m _ live ih => exact ih.createChild m live

theorem mem_preorder_iff : id ∈ t.preorder ↔ id.epoch = t.epoch ∧ ∃ s, t.site? id = some s := by
  obtain ⟨epoch, place⟩ := id
  simp only [preorder, rootId, List.mem_cons, NodeId.mk.injEq, List.mem_map]
  by_cases root : place = []
  · have found : t.site? ⟨epoch, place⟩ = some t.rootSite := site?_of_place_eq_nil root
    constructor
    · rintro (here | ⟨other, mem, rfl, same⟩)
      · exact ⟨here.1, _, found⟩
      · exact ⟨rfl, _, found⟩
    · exact fun given => Or.inl ⟨given.1, root⟩
  · have below (s : Site) : t.site? ⟨epoch, place⟩ = some s ↔
        epoch = t.epoch ∧ t.overrides.siteAt? .top place = some s := site?_eq_some_iff root
    simp only [below, root, and_false, false_or, Forest.mem_places_iff .top, exists_and_left,
      and_self_left]
    constructor
    · rintro ⟨other, found, rfl, rfl⟩
      exact ⟨rfl, found⟩
    · rintro ⟨rfl, found⟩
      exact ⟨place, found, rfl, rfl⟩

/-- The nodes below a node are found from there. -/
theorem site?_append {place rest : List Nat} (found : t.site? ⟨t.epoch, place⟩ = some s)
    (any : rest ≠ []) :
    t.site? ⟨t.epoch, place ++ rest⟩ = s.children.siteAt? s.handsDown rest := by
  have further : place ++ rest ≠ [] := fun none => any (List.append_eq_nil_iff.mp none).2
  rw [site?, if_neg (by simpa using further), if_pos rfl]
  rcases site?_cases found with ⟨root, rfl⟩ | ⟨-, -, below⟩
  · obtain rfl : place = [] := root
    rfl
  · exact Forest.siteAt?_append below any

theorem parentId?_eq_some_iff {p : NodeId} :
    parentId? id = some p ↔ ∃ k, id = ⟨p.epoch, p.place ++ [k]⟩ := by
  obtain ⟨epoch, place⟩ := id
  obtain ⟨e, upper⟩ := p
  rcases List.eq_nil_or_concat' place with rfl | ⟨init, k, rfl⟩
  · simp [parentId?]
  · simp only [parentId?, List.isEmpty_iff, List.append_eq_nil_iff, List.cons_ne_nil, and_false,
      if_false, List.dropLast_concat, Option.some.injEq, NodeId.mk.injEq]
    constructor
    · rintro ⟨rfl, rfl⟩
      exact ⟨k, rfl, rfl⟩
    · rintro ⟨l, rfl, same⟩
      exact ⟨rfl, (List.append_inj' same rfl).1⟩

/-- A node is found among the children of its parent. -/
theorem exists_siteAt?_of_parentId? {p : NodeId} {r : Site} (parent : parentId? id = some p)
    (found : t.site? id = some s) (upper : t.site? p = some r) :
    ∃ k, r.children.siteAt? r.handsDown [k] = some s := by
  obtain ⟨epoch, place⟩ := p
  obtain ⟨k, rfl⟩ := parentId?_eq_some_iff.mp parent
  obtain ⟨rfl, _⟩ := (site?_eq_some_iff (by simp)).mp found
  exact ⟨k, (site?_append upper (List.cons_ne_nil k [])).symm.trans found⟩

/-- The nodes in pre-order are the root and what stands below it. -/
theorem filterMap_site?_preorder (t : SelectionTree) :
    t.preorder.filterMap t.site? = t.rootSite :: t.overrides.sites .top := by
  have below : ((t.overrides.places 0).map (⟨t.epoch, ·⟩)).filterMap t.site? =
      t.overrides.sites .top := by
    rw [List.filterMap_map, ← Forest.filterMap_siteAt?_places]
    refine List.filterMap_congr fun place mem => ?_
    obtain ⟨s, found⟩ := (Forest.mem_places_iff .top).mp mem
    rw [found]
    exact (site?_eq_some_iff (Forest.ne_nil_of_siteAt? found)).mpr ⟨rfl, found⟩
  have root : t.site? t.rootId = some t.rootSite := site?_of_place_eq_nil rfl
  rw [preorder, List.filterMap_cons_some root, below]

/-- The numbers of all nodes and of all level-wide signs. -/
def sequences (t : SelectionTree) : List Nat :=
  (t.preorder.filterMap t.site?).map (·.sequence) ++ t.levels.map (·.sequence)

theorem sequences_eq (t : SelectionTree) :
    t.sequences = 0 :: (t.overrides.numbers ++ t.levels.map (·.sequence)) := by
  rw [sequences, filterMap_site?_preorder, List.map_cons, Forest.map_sequence_sites]
  rfl

theorem Sound.rising_children (sound : t.Sound) (found : t.site? id = some s) :
    s.children.Rising s.sequence := by
  rcases site?_cases found with ⟨-, rfl⟩ | ⟨-, -, below⟩
  · exact sound.rising
  · exact (sound.rising.of_siteAt? below).2

theorem Sound.rising_parent (sound : t.Sound) {p : NodeId} {r : Site} (parent : parentId? id = some p)
    (found : t.site? id = some s) (upper : t.site? p = some r) : r.sequence < s.sequence := by
  obtain ⟨k, below⟩ := exists_siteAt?_of_parentId? parent found upper
  exact ((sound.rising_children upper).of_siteAt? below).1

theorem Sound.settled_state (sound : t.Sound) (found : t.site? id = some s) : s.state.Settled := by
  rcases site?_cases found with ⟨-, rfl⟩ | ⟨-, -, below⟩
  · exact fun _ _ => ⟨nofun, nofun⟩
  · obtain ⟨m, o, node, -, state, -⟩ := Forest.exists_node_of_siteAt? below
    rw [state]
    exact sound.settled _ node

theorem member?_eq_none_iff (found : t.site? id = some s) : s.member? = none ↔ id.place = [] := by
  rcases site?_cases found with ⟨root, rfl⟩ | ⟨any, -, below⟩
  · exact iff_of_true rfl root
  · obtain ⟨m, o, -, member, -⟩ := Forest.exists_node_of_siteAt? below
    rw [member]
    exact iff_of_false nofun any

theorem pairwise_preorder (t : SelectionTree) :
    t.preorder.Pairwise fun a b => a ≠ b ∧ parentId? a ≠ some b := by
  refine List.pairwise_cons.mpr ⟨fun id mem => ?_, List.pairwise_map.mpr ?_⟩
  · obtain ⟨place, listed, rfl⟩ := List.mem_map.mp mem
    obtain ⟨k, rest, rfl, _⟩ := Forest.exists_le_of_mem_places listed
    exact ⟨nofun, nofun⟩
  · refine (t.overrides.pairwise_places 0).imp fun {a b} apart => ⟨?_, ?_⟩
    · rintro same
      cases same
      exact apart (List.prefix_refl _)
    · intro parent
      obtain ⟨k, same⟩ := parentId?_eq_some_iff.mp parent
      cases same
      exact apart (List.prefix_append _ _)

/-- What stands below a node that is there is itself below one that is there. -/
theorem exists_site?_of_parentId? {p : NodeId} (parent : parentId? id = some p)
    (found : t.site? id = some s) : ∃ r, t.site? p = some r := by
  obtain ⟨epoch, upper⟩ := p
  obtain ⟨k, rfl⟩ := parentId?_eq_some_iff.mp parent
  obtain ⟨same, below⟩ := (site?_eq_some_iff (by simp)).mp found
  by_cases root : upper = []
  · exact ⟨_, site?_of_place_eq_nil root⟩
  · obtain ⟨r, above⟩ := Forest.exists_siteAt?_of_append root below
    exact ⟨r, (site?_eq_some_iff root).mpr ⟨same, above⟩⟩

theorem Sound.nodup_sequences (sound : t.Sound) : t.sequences.Nodup := by
  rw [sequences_eq]
  refine List.nodup_cons.mpr ⟨fun mem => ?_, sound.once⟩
  -- the root has the number zero, and all others come after it
  rcases List.mem_append.mp mem with node | level
  · exact Nat.lt_irrefl _ (sound.rising.lt_of_mem_numbers node)
  · obtain ⟨o, listed, zero⟩ := List.mem_map.mp level
    exact absurd zero (Nat.ne_of_gt (sound.levelsAbove o listed))

theorem Sound.lt_nextSequence (sound : t.Sound) : ∀ n ∈ t.sequences, n < t.nextSequence := by
  rw [sequences_eq, List.forall_mem_cons]
  exact ⟨sound.positive, sound.used⟩

end SelectionTree
end CubeAxis
