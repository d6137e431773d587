import CubeAxis.Proofs.Resolution.Region
import CubeAxis.Proofs.Selection.Queries

namespace CubeAxis

namespace SelectionTree

variable {h : Hierarchy} {t : SelectionTree} {id : NodeId} {place : List Nat} {s : Site}
  {l m : Member}

theorem find_prefix_of_upward {a : Member} (above : a ∈ m.upward) :
    (t.find a).place <+: (t.find m).place := by
  obtain ⟨rest, path⟩ := Member.pathFromRoot_of_mem_upward above
  rw [find, find, path]
  exact Forest.locate_prefix_append _ _ _ _

/-- A label below a node is that of a child. -/
theorem exists_child_of_label (epoch : id.epoch = t.epoch) (found : t.site? id = some s)
    (label : l ∈ s.children.labels) :
    ∃ k r, t.site? ⟨t.epoch, id.place ++ [k]⟩ = some r ∧ r.member? = some l := by
  obtain ⟨_, place⟩ := id
  obtain rfl := epoch
  obtain ⟨k, listed⟩ := List.getElem?_of_mem label
  have member := Forest.member?_siteAt?_singleton s.handsDown s.children k
  rw [listed, Option.map_some] at member
  obtain ⟨r, below, same⟩ := Option.map_eq_some_iff.mp member
  exact ⟨k, r, (site?_append found (List.cons_ne_nil k [])).trans below, same⟩

/-- Short of the place where a member is found, the walk goes on to a child that stands at or
above the member. -/
theorem exists_child_of_prefix {k : Nat} {rest : List Nat}
    (found : t.site? ⟨t.epoch, place⟩ = some s) (whole : place ++ k :: rest = (t.find m).place) :
    ∃ l ∈ s.children.labels, ∃ x ∈ m.upward, (l == x) = true := by
  have onward : place ++ k :: rest = (place ++ [k]) ++ rest := by simp
  obtain ⟨_, last, -⟩ := t.site?_find m
  rcases site?_cases last with ⟨none, -⟩ | ⟨-, -, deep⟩
  · rw [← whole] at none
    simp at none
  · rw [← whole, onward] at deep
    obtain ⟨r, below⟩ := Forest.exists_siteAt?_of_append (by simp) deep
    have child : t.site? ⟨t.epoch, place ++ [k]⟩ = some r :=
      (site?_eq_some_iff (by simp)).mpr ⟨rfl, below⟩
    rw [site?_append found (List.cons_ne_nil k [])] at child
    have label := Forest.member?_siteAt?_singleton s.handsDown s.children k
    rw [child, Option.map_some] at label
    obtain ⟨l, listed, member⟩ := Option.map_eq_some_iff.mp label.symm
    have on : place ++ [k] <+: t.overrides.locate 0 m.pathFromRoot := ⟨rest, onward ▸ whole⟩
    obtain ⟨x, mem, same⟩ := Forest.label_siteAt?_of_prefix on below member.symm
    exact ⟨l, List.mem_of_getElem? listed, x, Member.mem_pathFromRoot.mp mem, same⟩

/-- The region of a node below which the forest stands is one of the tree. -/
theorem Stands.sits_of_siteAt? {parent : Option Member} {i : Inherited} {f : Forest Override}
    {place : List Nat} (stands : t.Stands h parent i f) (regular : h.Regular)
    (found : f.siteAt? i place = some s) : Region.Sits h ⟨t, h.levels, s⟩ := by
  induction f generalizing i place parent with
  | nil => cases found
  | cons m o children siblings ihBelow ihBeside =>
    rcases place with _ | ⟨_ | k, place⟩
    · cases found
    · rcases place with _ | ⟨n, place⟩
      · cases found
        exact stands.region
      · exact ihBelow stands.region.stands found
    · exact ihBeside (stands.siblings regular) found

section

variable (regular : h.Regular) (reached : t.Reached h)

include regular reached

theorem Reached.sits (found : t.site? id = some s) : Region.Sits h ⟨t, h.levels, s⟩ := by
  have root := sits_root (reached.hung regular)
  rcases site?_cases found with ⟨-, rfl⟩ | ⟨-, -, below⟩
  · exact root
  · exact root.stands.sits_of_siteAt? regular below

/-- The walk down to a member of a region comes past its node. -/
theorem Reached.prefix_find (found : t.site? id = some s)
    (owned : m ∈ Region.area h ⟨t, h.levels, s⟩) : id.place <+: (t.find m).place := by
  rcases site?_cases found with ⟨root, -⟩ | ⟨-, -, below⟩
  · rw [root]
    exact List.nil_prefix
  · obtain ⟨p, -, member, -⟩ := (reached.hung regular).of_siteAt? below
    have stands : (t.site? id).bind Site.member? = some p := by
      rw [found]
      exact member
    rw [reached.eq_find regular stands]
    exact find_prefix_of_upward (Member.mem_upward_of_ancestors (owned.2.1 p member))

/-- It ends there, as the members with a node further down are not in the region. -/
theorem Reached.find_of_mem_area (found : t.site? id = some s) (epoch : id.epoch = t.epoch)
    (owned : m ∈ Region.area h ⟨t, h.levels, s⟩) : t.find m = id := by
  obtain ⟨rest, whole⟩ := reached.prefix_find regular found owned
  obtain ⟨_, place⟩ := id
  obtain rfl := epoch
  cases rest with
  | nil =>
    rw [List.append_nil] at whole
    exact (congrArg (NodeId.mk t.epoch) whole).symm
  | cons k rest =>
    obtain ⟨l, label, x, above, same⟩ := exists_child_of_prefix found whole
    have known := (reached.sits regular found).label_mem label
    rw [regular.beq_iff known (regular.upward_mem owned.1 above)] at same
    exact absurd (same ▸ above) (owned.2.2 l label)

/-- The region of a node holds the members without a node that are found at it. -/
theorem Reached.mem_area_iff (found : t.site? id = some s) (epoch : id.epoch = t.epoch)
    (inside : m ∈ h.members) : m ∈ Region.area h ⟨t, h.levels, s⟩ ↔
      t.hasNode m = false ∧ t.find m = id := by
  constructor
  · intro owned
    have ends := reached.find_of_mem_area regular found epoch owned
    refine ⟨Bool.eq_false_iff.mpr fun node => ?_, ends⟩
    have member := (reached.hasNode_iff_find regular inside).mp node
    rw [ends, found] at member
    exact Member.not_mem_ancestors_of_upward m.mem_upward_self (owned.2.1 m member)
  · rintro ⟨absent, rfl⟩
    refine ⟨inside, fun p member => ?_, fun l label above => ?_⟩
    · obtain ⟨x, above, same⟩ := member?_site?_find found member
      have known := (reached.sits regular found).member_mem p member
      obtain rfl := (regular.beq_iff known (regular.upward_mem inside above)).mp same
      rcases Member.mem_upward_iff.mp above with rfl | higher
      · exact absurd (member ▸ BEq.rfl) (not_beq_of_no_node absent found)
      · exact higher
    · obtain ⟨k, r, child, member⟩ := exists_child_of_label rfl found label
      have stands : (t.site? ⟨t.epoch, (t.find m).place ++ [k]⟩).bind Site.member? = some l := by
        rw [child]
        exact member
      have on := (find_prefix_of_upward (t := t) above).length_le
      rw [← reached.eq_find regular stands, List.length_append, List.length_singleton] at on
      omega

end

/-- The region of a listed node that owns the member. -/
def OwnedBy (t : SelectionTree) (levels : List Level) (m : Member) (id : NodeId) : Prop :=
  id ∈ t.preorder ∧ ∃ s, t.site? id = some s ∧ Region.owns ⟨t, levels, s⟩ m = true

/-- Nodes and regions share out the members: one with a node is in no region, one without is in
the region of the node it is found at and in no other. That region knows its final sign. -/
theorem regions_partition (sound : h.Sound) (names : (h.members.map Member.uniqueName).Nodup)
    (reached : t.Reached h) (inside : m ∈ h.members) :
    (t.hasNode m = true ∧ ∀ id, ¬ t.OwnedBy h.levels m id) ∨
      (t.hasNode m = false ∧ (∀ id, t.OwnedBy h.levels m id ↔ id = t.find m) ∧
        ∀ s, t.site? (t.find m) = some s →
          (Region.signAt ⟨t, h.levels, s⟩ m.depth).isIncluded = t.isIncluded m) := by
  have regular : h.Regular := ⟨sound, Hierarchy.eq_of_nodup_uniqueNames names⟩
  have owned : ∀ id, t.OwnedBy h.levels m id ↔ t.hasNode m = false ∧ t.find m = id := by
    intro id
    constructor
    · rintro ⟨listed, s, found, owns⟩
      have sits := reached.sits regular found
      exact (reached.mem_area_iff regular found (mem_preorder_iff.mp listed).1 inside).mp
        ((sits.owns_iff regular inside).mp owns)
    · rintro ⟨absent, rfl⟩
      obtain ⟨s, found, -⟩ := t.site?_find m
      have area := (reached.mem_area_iff regular found rfl inside).mpr ⟨absent, rfl⟩
      exact ⟨mem_preorder_iff.mpr ⟨rfl, s, found⟩, s, found,
        ((reached.sits regular found).owns_iff regular inside).mpr area⟩
  cases node : t.hasNode m with
  | true =>
    refine Or.inl ⟨rfl, fun id given => ?_⟩
    have := ((owned id).mp given).1
    rw [node] at this
    cases this
  | false =>
    refine Or.inr ⟨rfl, fun id => ?_, fun s found => ?_⟩
    · rw [owned, node, and_iff_right rfl, eq_comm]
    · have area := (reached.mem_area_iff regular found rfl inside).mpr ⟨node, rfl⟩
      exact ((reached.sits regular found).isIncluded_of_mem_area regular area).symm

/-- The month that was acted on is in no region, the one of the other year in that of the root. -/
theorem regions_partition_overtaken :
    (∀ id, ¬ overtaken.OwnedBy Hierarchy.calendar.levels .january id) ∧
      ∀ id, overtaken.OwnedBy Hierarchy.calendar.levels .february id ↔ id = overtaken.rootId := by
  have january := regions_partition Hierarchy.calendar_built.sound (by decide) overtaken_reached
    Hierarchy.january_mem_calendar
  have february := regions_partition Hierarchy.calendar_built.sound (by decide) overtaken_reached
    Hierarchy.february_mem_calendar
  refine ⟨(january.resolve_right fun absent => ?_).2, (february.resolve_left fun node => ?_).2.1⟩
  · exact Bool.noConfusion absent.1
  · exact Bool.noConfusion node.1

end SelectionTree
end CubeAxis
