import CubeAxis.Proofs.Selection
import CubeAxis.Resolution.Region
import Mathlib.Data.Set.Lattice

namespace CubeAxis

/-- Below a parent each member has one way to go. -/
theorem Member.exists_step {parent : Option Member} {m : Member}
    (below : ∀ p, parent = some p → p ∈ m.ancestors) : ∃ a ∈ m.upward, a.parent? = parent := by
  cases parent with
  | none =>
    obtain ⟨a, above, top⟩ := exists_mem_upward_of_depth (Nat.zero_le m.depth)
    exact ⟨a, above, parent?_eq_none_iff.mpr top⟩
  | some p =>
    have higher := below p rfl
    obtain ⟨a, above, depth⟩ := exists_mem_upward_of_depth (depth_lt_of_mem_ancestors higher)
    have order := mem_upward_of_depth_le (mem_upward_of_ancestors higher) above (by omega)
    exact ⟨a, above, parent?_eq_some_iff.mpr ⟨order, by omega⟩⟩

/-- The members at or below a member. -/
def Hierarchy.subtree (h : Hierarchy) (m : Member) : Set Member :=
  {x | x ∈ h.members ∧ m ∈ x.upward}

/-- The members at or below the top nodes of a forest. -/
def Forest.area {α : Type} (h : Hierarchy) (f : Forest α) : Set Member :=
  {m | m ∈ h.members ∧ ∃ l ∈ f.labels, l ∈ m.upward}

/-- Below `parent`, the forest holds what the tree records on its nodes and below. -/
structure SelectionTree.Stands (h : Hierarchy) (t : SelectionTree) (parent : Option Member)
    (i : Inherited) (f : Forest Override) : Prop where
  hung : f.Hung h parent
  lookup : ∀ l ∈ f.labels, ∀ path,
    t.overrides.lookup .top (pathTo parent ++ l :: path) = f.lookup i (l :: path)

namespace Region

/-- The region belongs to a node of the tree, and what the tree says about the
members below is found below the node. -/
structure Sits (h : Hierarchy) (r : Region) : Prop where
  levels : r.levels = h.levels
  member_mem : ∀ m, r.site.member? = some m → m ∈ h.members
  hung : r.site.children.Hung h r.site.member?
  explicit : r.site.handsDown.children = r.site.state.children
  lookup : ∀ m path, r.tree.overrides.lookup .top (pathTo r.site.member? ++ m :: path) =
    r.site.children.lookup r.site.handsDown (m :: path)

/-- The members below the node that have no node, nor an ancestor with one in between. -/
def area (h : Hierarchy) (r : Region) : Set Member :=
  {m | m ∈ h.members ∧ (∀ p, r.site.member? = some p → p ∈ m.ancestors) ∧
    ∀ l ∈ r.overridden, l ∉ m.upward}

variable {h : Hierarchy} {r : Region}

/-- What lies at or below the nodes under a site is in their areas, not in this one. -/
theorem not_mem_area_of_below (r : Region) {m : Member} (lower : m ∈ r.site.children.area h) :
    m ∉ r.area h := by
  obtain ⟨_, l, label, above⟩ := lower
  exact fun owned => owned.2.2 l label above

theorem depth_of_parent? {m : Member} (parent : m.parent? = r.site.member?) :
    m.depth = r.childrenDepth := by
  unfold childrenDepth
  cases site : r.site.member? with
  | none => exact Member.depth_of_no_parent (parent.trans site)
  | some p => exact Member.depth_of_parent? (parent.trans site)

theorem childrenDepth_le_of_mem_area {m : Member} (owned : m ∈ r.area h) :
    r.childrenDepth ≤ m.depth := by
  unfold childrenDepth
  cases site : r.site.member? with
  | none => exact Nat.zero_le _
  | some p => exact Member.depth_lt_of_mem_ancestors (owned.2.1 p site)

/-- The member of the region that a member of it hangs from. -/
theorem exists_top (sound : h.Sound) {m : Member} (owned : m ∈ r.area h) :
    ∃ a ∈ m.upward, a ∈ r.area h ∧ a.parent? = r.site.member? ∧ a.depth = r.childrenDepth := by
  obtain ⟨a, above, parent⟩ := Member.exists_step owned.2.1
  refine ⟨a, above, ⟨sound.upward_mem owned.1 above, fun p site => ?_, fun l label atop => ?_⟩,
    parent, depth_of_parent? parent⟩
  · exact Member.parent_mem_ancestors (parent.trans site)
  · exact owned.2.2 l label (Member.mem_upward_trans atop above)

namespace Sits

variable (sits : r.Sits h)

include sits

theorem levelSign_depth (sound : h.Sound) {m : Member} (inside : m ∈ h.members) :
    r.levelSign m.depth = r.tree.levelSign m.level := by
  rw [levelSign, SelectionTree.levelSignAt, sits.levels, sound.member_level m inside]
  rfl

theorem label_mem {l : Member} (label : l ∈ r.overridden) : l ∈ h.members :=
  (sits.hung.allows l label).1

theorem label_parent {l : Member} (label : l ∈ r.overridden) : l.parent? = r.site.member? :=
  (sits.hung.allows l label).2

theorem label_depth {l : Member} (label : l ∈ r.overridden) : l.depth = r.childrenDepth :=
  depth_of_parent? (sits.label_parent label)

theorem mem_distinct_iff (regular : h.Regular) {l : Member} :
    l ∈ distinct r.overridden ↔ l ∈ r.overridden :=
  regular.mem_distinct fun _ => sits.label_mem

theorem distinct_mem {l : Member} (label : l ∈ distinct r.overridden) : l ∈ h.members :=
  sits.label_mem (mem_of_mem_distinct label)

theorem depth_lt_levels (sound : h.Sound) {m : Member} (inside : m ∈ h.members) :
    m.depth < r.levels.length :=
  sits.levels ▸ sound.depth_lt_levels inside

/-- The region is closed downwards. -/
theorem mem_area_of_mem_upward {a m : Member} (owned : a ∈ r.area h) (inside : m ∈ h.members)
    (above : a ∈ m.upward) : m ∈ r.area h := by
  refine ⟨inside, fun p site => ?_, fun l label atop => ?_⟩
  · exact Member.mem_ancestors_of_upward (owned.2.1 p site) above
  · have low := childrenDepth_le_of_mem_area owned
    rw [← sits.label_depth label] at low
    exact owned.2.2 l label (Member.mem_upward_of_depth_le atop above low)

/-- So nothing of it lies above what a node further down owns. -/
theorem not_mem_upward_of_below {a m : Member} (owned : a ∈ r.area h)
    (lower : m ∈ r.site.children.area h) : a ∉ m.upward := fun above =>
  r.not_mem_area_of_below lower (sits.mem_area_of_mem_upward owned lower.1 above)

theorem upward_mem_area (sound : h.Sound) {a m : Member} (owned : m ∈ r.area h)
    (above : a ∈ m.upward) (low : r.childrenDepth ≤ a.depth) : a ∈ r.area h := by
  obtain ⟨top, atop, ownedTop, _, level⟩ := exists_top sound owned
  exact sits.mem_area_of_mem_upward ownedTop (sound.upward_mem owned.1 above)
    (Member.mem_upward_of_depth_le atop above (level ▸ low))

/-- The members above one of the region lie in the region, or are the node's and above. -/
theorem mem_area_or_above (sound : h.Sound) {a m : Member} (owned : m ∈ r.area h)
    (above : a ∈ m.ancestors) :
    a ∈ r.area h ∨ ∃ k, r.site.member? = some k ∧ a ∈ k.upward := by
  obtain ⟨top, atop, _, parent, low⟩ := exists_top sound owned
  have higher := Member.mem_upward_of_ancestors above
  by_cases order : r.childrenDepth ≤ a.depth
  · exact Or.inl (sits.upward_mem_area sound owned higher order)
  · have strict := Member.mem_ancestors_of_lt
      (Member.mem_upward_of_depth_le higher atop (by omega)) (by omega)
    obtain ⟨k, site, link⟩ := Member.exists_parent_of_mem_ancestors strict
    exact Or.inr ⟨k, parent.symm.trans site, link⟩

/-- The tree hands every member of the region what the node hands down, and records
nothing for it. -/
theorem lookup_of_mem_area (regular : h.Regular) {m : Member} (owned : m ∈ r.area h) :
    r.tree.overrides.lookup .top m.pathFromRoot =
      (if m.depth = r.childrenDepth then r.site.handsDown
        else ⟨none, r.site.handsDown.default⟩, {}) := by
  obtain ⟨a, above, inside, parent, depth⟩ := exists_top regular.toSound owned
  obtain ⟨rest, path⟩ := Member.pathFromRoot_of_mem_upward above
  have apart : ∀ l ∈ r.site.children.labels, (l == a) = false := by
    intro l label
    rw [Bool.eq_false_iff, ne_eq, regular.beq_iff (sits.label_mem label) inside.1]
    rintro rfl
    exact inside.2.2 l label (Member.mem_upward_self l)
  have length := congrArg List.length path
  rw [List.length_append, Member.length_pathFromRoot, Member.length_pathFromRoot] at length
  have last : rest.isEmpty = true ↔ m.depth = r.childrenDepth := by
    rw [List.isEmpty_iff, ← List.length_eq_zero_iff]
    omega
  rw [path, Member.pathFromRoot_eq, parent, List.append_assoc, List.singleton_append, sits.lookup,
    Forest.lookup_of_not_label apart]
  simp only [last]

theorem resolve_of_mem_area (regular : h.Regular) {m : Member} (owned : m ∈ r.area h) :
    r.tree.resolve m =
      if m.depth = r.childrenDepth then r.site.childrenSign else r.site.descendantsDefault := by
  rw [SelectionTree.resolve_eq, sits.lookup_of_mem_area regular owned]
  by_cases first : m.depth = r.childrenDepth
  · rw [if_pos first, if_pos first]
    rfl
  · rw [if_neg first, if_neg first]
    rfl

/-- In a region the sign depends on the depth alone. -/
theorem isIncluded_of_mem_area (regular : h.Regular) {m : Member} (owned : m ∈ r.area h) :
    r.tree.isIncluded m = (r.signAt m.depth).isIncluded := by
  rw [SelectionTree.isIncluded, sits.resolve_of_mem_area regular owned,
    ← sits.levelSign_depth regular.toSound owned.1]
  rfl

theorem isIncluded_iff (regular : h.Regular) {m : Member} (owned : m ∈ r.area h) :
    r.tree.isIncluded m = true ↔ (r.signAt m.depth).isIncluded = true := by
  rw [sits.isIncluded_of_mem_area regular owned]

theorem isSpecial_of_mem_area (regular : h.Regular) {m : Member} (owned : m ∈ r.area h) :
    r.tree.isSpecial m = true ↔ m.depth = r.childrenDepth ∧ r.hasExplicitChildren = true := by
  have found := sits.lookup_of_mem_area regular owned
  have state : r.tree.stateOf m = {} := congrArg Prod.snd found
  have handed := congrArg Prod.fst found
  rw [SelectionTree.isSpecial, state, SelectionTree.inheritedBy, ← Forest.lookup_fst, handed]
  by_cases first : m.depth = r.childrenDepth
  · rw [if_pos first, sits.explicit]
    simp [first, hasExplicitChildren]
  · rw [if_neg first]
    simp [first]

theorem mem_area_top_iff {m : Member} (sound : h.Sound) (inside : m ∈ h.members) :
    m ∈ r.area h ∧ m.depth = r.childrenDepth ↔ m.parent? = r.site.member? ∧ m ∉ r.overridden := by
  constructor
  · intro given
    obtain ⟨owned, level⟩ := given
    obtain ⟨top, above, _, parent, depth⟩ := exists_top sound owned
    obtain rfl := Member.eq_of_mem_upward_of_depth above (Member.mem_upward_self m)
      (depth.trans level.symm)
    exact ⟨parent, fun label => owned.2.2 top label (Member.mem_upward_self top)⟩
  · intro given
    obtain ⟨parent, free⟩ := given
    have level := depth_of_parent? parent
    refine ⟨⟨inside, fun p site => ?_, fun l label atop => ?_⟩, level⟩
    · exact Member.parent_mem_ancestors (parent.trans site)
    · have same := Member.eq_of_mem_upward_of_depth atop (Member.mem_upward_self m)
        ((sits.label_depth label).trans level.symm)
      exact free (same ▸ label)

/-- The test of a region finds the members of its area. -/
theorem owns_iff (regular : h.Regular) {m : Member} (inside : m ∈ h.members) :
    r.owns m = true ↔ m ∈ r.area h := by
  have known : ∀ l ∈ r.overridden, l ∈ h.members := fun l => sits.label_mem
  simp only [owns, Bool.and_eq_true, decide_eq_true_eq, Option.all_eq_true, Option.any_eq_true]
  constructor
  · intro given
    obtain ⟨⟨_, below⟩, top, found, free⟩ := given
    obtain ⟨above, level⟩ := Member.ancestorAt?_eq_some_iff.mp found
    refine ⟨inside, fun p site => ?_, fun l label atop => ?_⟩
    · exact (regular.isAncestorOf_iff (sits.member_mem p site) inside).mp (below p site)
    · have same := Member.eq_of_mem_upward_of_depth atop above
        ((sits.label_depth label).trans level.symm)
      rw [Bool.not_eq_true', ← Bool.not_eq_true,
        regular.contains_iff known (regular.upward_mem inside above)] at free
      exact free (same ▸ label)
  · intro owned
    obtain ⟨top, above, within, parent, level⟩ := exists_top regular.toSound owned
    refine ⟨⟨childrenDepth_le_of_mem_area owned, fun p site => ?_⟩, top,
      Member.ancestorAt?_eq_some_iff.mpr ⟨above, level⟩, ?_⟩
    · exact (regular.isAncestorOf_iff (sits.member_mem p site) inside).mpr (owned.2.1 p site)
    · rw [Bool.not_eq_true', ← Bool.not_eq_true, regular.contains_iff known within.1]
      exact fun label => within.2.2 top label (Member.mem_upward_self top)

/-- The forest below the node stands for everything recorded below. -/
theorem stands : r.tree.Stands h r.site.member? r.site.handsDown r.site.children :=
  ⟨sits.hung, fun l _ path => sits.lookup l path⟩

end Sits

theorem mem_includedDepths {start d : Nat} :
    d ∈ r.includedDepths start ↔
      start ≤ d ∧ d < r.levels.length ∧ (r.signAt d).isIncluded = true := by
  simp only [includedDepths, List.mem_filter, List.mem_range'_1, and_assoc]
  refine and_congr_right fun low => ?_
  rw [show start + (r.levels.length - start) = max start r.levels.length by omega]
  constructor
  · intro given
    obtain ⟨high, sign⟩ := given
    exact ⟨by omega, sign⟩
  · intro given
    obtain ⟨high, sign⟩ := given
    exact ⟨by omega, sign⟩

theorem pairwise_includedDepths (start : Nat) : (r.includedDepths start).Pairwise (· < ·) :=
  List.Pairwise.filter _ List.pairwise_lt_range'

end Region

namespace SelectionTree

variable {h : Hierarchy} {t : SelectionTree}

/-- The whole tree seen from above the root members. -/
theorem sits_root (hung : t.overrides.Hung h none) : Region.Sits h ⟨t, h.levels, t.rootSite⟩ where
  levels := rfl
  member_mem _ none := by cases none
  hung := hung
  explicit := rfl
  lookup _ _ := rfl

/-- From above the root members every member is in reach. -/
theorem mem_area_root {m : Member} (inside : m ∈ h.members) :
    m ∈ Region.area h ⟨t, h.levels, t.rootSite⟩ ∪ t.overrides.area h := by
  by_cases labelled : ∃ l ∈ t.overrides.labels, l ∈ m.upward
  · exact Or.inr ⟨inside, labelled⟩
  · refine Or.inl ⟨inside, fun k none => ?_, fun l label above => labelled ⟨l, label, above⟩⟩
    cases none

namespace Stands

variable {parent : Option Member} {i : Inherited} {m : Member} {o : Override}
  {below beside : Forest Override} (stands : t.Stands h parent i (.cons m o below beside))

include stands

theorem node_mem : m ∈ h.members :=
  stands.hung.1.1

theorem node_parent : m.parent? = parent :=
  stands.hung.1.2

theorem lookup_node : t.overrides.lookup .top m.pathFromRoot = (i, o.state) := by
  have found := stands.lookup m List.mem_cons_self []
  rwa [Forest.lookup_node, ← stands.node_parent, ← Member.pathFromRoot_eq] at found

theorem resolve_node : t.resolve m = i.memberSign o.state := by
  rw [resolve_eq, stands.lookup_node]

theorem isIncluded_node (sound : h.Sound) : t.isIncluded m =
    ((i.memberSign o.state).withLevel (t.levelSignAt h.levels m.depth)).isIncluded := by
  rw [isIncluded, stands.resolve_node, levelSignAt, sound.member_level m stands.node_mem]
  rfl

theorem isSpecial_node : t.isSpecial m = (o.state.member.isSome || i.children.isSome) := by
  have found := stands.lookup_node
  have state : t.stateOf m = o.state := congrArg Prod.snd found
  have handed : t.inheritedBy m = i := congrArg Prod.fst found
  rw [isSpecial, state, handed]

theorem siblings (regular : h.Regular) : t.Stands h parent i beside where
  hung := stands.hung.2.2.2.2
  lookup l label path := by
    have found := stands.lookup l (List.mem_cons_of_mem _ label) path
    rw [found, Forest.lookup_siblings]
    rw [Bool.eq_false_iff, ne_eq,
      regular.beq_iff stands.node_mem (stands.hung.2.2.2.2.allows l label).1]
    rintro rfl
    exact stands.hung.2.1 label

theorem mem_ancestors_of_area {x : Member} (inside : x ∈ below.area h) : m ∈ x.ancestors := by
  obtain ⟨_, l, label, atop⟩ := inside
  have link := (stands.hung.2.2.2.1.allows l label).2
  exact Member.mem_ancestors_of_upward (Member.parent_mem_ancestors link) atop

/-- A node, the members below it without nodes in between, and those below its children. -/
theorem subtree_eq : h.subtree m =
    {m} ∪ (Region.area h ⟨t, h.levels, ⟨some (m, i), o.state, o.sequence, below⟩⟩ ∪
      below.area h) := by
  ext x
  constructor
  · intro given
    obtain ⟨inside, above⟩ := given
    rcases Member.mem_upward_iff.mp above with rfl | higher
    · exact Or.inl rfl
    · by_cases labelled : ∃ l ∈ below.labels, l ∈ x.upward
      · exact Or.inr (Or.inr ⟨inside, labelled⟩)
      · refine Or.inr (Or.inl ⟨inside, fun p same => ?_, fun l label atop => ?_⟩)
        · cases same
          exact higher
        · exact labelled ⟨l, label, atop⟩
  · intro given
    rcases given with rfl | owned | lower
    · exact ⟨stands.node_mem, Member.mem_upward_self x⟩
    · exact ⟨owned.1, Member.mem_upward_of_ancestors (owned.2.1 m rfl)⟩
    · exact ⟨lower.1, Member.mem_upward_of_ancestors (stands.mem_ancestors_of_area lower)⟩

theorem mem_ancestors_of_below {x : Member}
    (inside : x ∈ Region.area h ⟨t, h.levels, ⟨some (m, i), o.state, o.sequence, below⟩⟩ ∪
      below.area h) : m ∈ x.ancestors :=
  inside.elim (fun owned => owned.2.1 m rfl) stands.mem_ancestors_of_area

theorem not_mem_singleton_of_below {x : Member}
    (inside : x ∈ Region.area h ⟨t, h.levels, ⟨some (m, i), o.state, o.sequence, below⟩⟩ ∪
      below.area h) : x ∉ ({m} : Set Member) := by
  rintro rfl
  exact Nat.lt_irrefl _ (Member.depth_lt_of_mem_ancestors (stands.mem_ancestors_of_below inside))

/-- What the children of a node answer for is neither the node nor in its region. -/
theorem not_mem_node_of_below {x : Member} (lower : x ∈ below.area h) :
    x ∉ ({m} : Set Member) ∪
      Region.area h ⟨t, h.levels, ⟨some (m, i), o.state, o.sequence, below⟩⟩ := by
  rintro (same | owned)
  · exact stands.not_mem_singleton_of_below (Or.inr lower) same
  · exact Region.not_mem_area_of_below _ lower owned

/-- Siblings have nothing below them in common. -/
theorem apart {x : Member} (inside : x ∈ beside.area h) : x ∉ h.subtree m := by
  intro given
  obtain ⟨_, above⟩ := given
  obtain ⟨_, l, label, atop⟩ := inside
  have link := (stands.hung.2.2.2.2.allows l label).2
  have depth : l.depth = m.depth := by
    cases up : parent with
    | none =>
      rw [Member.depth_of_no_parent (link.trans up),
        Member.depth_of_no_parent (stands.node_parent.trans up)]
    | some p =>
      rw [Member.depth_of_parent? (link.trans up),
        Member.depth_of_parent? (stands.node_parent.trans up)]
  have same := Member.eq_of_mem_upward_of_depth atop above depth
  exact stands.hung.2.1 (same ▸ label)

omit stands in
theorem area_cons : (Forest.cons m o below beside).area h = h.subtree m ∪ beside.area h := by
  ext x
  simp [Forest.area, Forest.labels, Hierarchy.subtree, and_or_left]

/-- The members below a node without a node of their own. -/
theorem region : Region.Sits h ⟨t, h.levels, ⟨some (m, i), o.state, o.sequence, below⟩⟩ where
  levels := rfl
  member_mem p same := by
    cases same
    exact stands.node_mem
  hung := stands.hung.2.2.2.1
  explicit := rfl
  lookup k path := by
    have found := stands.lookup m List.mem_cons_self (k :: path)
    rw [Forest.lookup_below] at found
    change t.overrides.lookup .top (m.pathFromRoot ++ k :: path) = _
    rw [Member.pathFromRoot_eq, stands.node_parent, List.append_assoc]
    exact found

end Stands
end SelectionTree
end CubeAxis
