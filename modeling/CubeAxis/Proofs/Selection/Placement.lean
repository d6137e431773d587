import CubeAxis.Proofs.Selection.Sound
import CubeAxis.Proofs.Selection.Order

namespace CubeAxis
namespace Forest

variable {h : Hierarchy} {f : Forest Override} {parent : Option Member} {i : Inherited}
  {place : List Nat} {s : Site} {m : Member}

theorem Apart.pairwise_labels (apart : f.Apart) :
    f.labels.Pairwise fun a b => (a == b) = false := by
  induction f with
  | nil => exact .nil
  | cons k o children siblings _ ihBeside =>
    obtain ⟨different, -, beside⟩ := apart
    exact List.pairwise_cons.mpr ⟨different, ihBeside beside⟩

theorem Apart.of_siteAt? (apart : f.Apart) (found : f.siteAt? i place = some s) :
    s.children.Apart := by
  obtain ⟨_, _, _, _, ⟨-, below, -⟩, -⟩ := exists_cons_of_siteAt? (fun (_ : Unit) g => g.Apart)
    (fun _ _ _ => ()) (fun _ _ _ _ _ given => given.2) (c := ()) apart found
  exact below

theorem Hung.of_siteAt? (hung : f.Hung h parent) (found : f.siteAt? i place = some s) :
    ∃ m ∈ h.members, s.member? = some m ∧ s.children.Hung h (some m) := by
  obtain ⟨_, m, _, _, ⟨allowed, -, -, below, -⟩, member, -⟩ :=
    exists_cons_of_siteAt? (fun parent g => g.Hung h parent) (fun _ m _ => some m)
      (fun _ _ _ _ _ given => given.2.2.2) hung found
  exact ⟨m, allowed.1, member, below⟩

/-- The way to a member leads to its node. -/
theorem locate_of_siteAt? (hung : f.Hung h parent) (apart : f.Apart)
    (found : f.siteAt? i place = some s) (member : s.member? = some m) :
    ∃ l ∈ f.labels, ∃ path, m.pathFromRoot = pathTo parent ++ l :: path ∧
      f.locate 0 (l :: path) = place := by
  induction f generalizing i place parent with
  | nil => cases found
  | cons k o children siblings ihBelow ihBeside =>
    obtain ⟨allowed, -, -, below, beside⟩ := hung
    obtain ⟨different, apartBelow, apartBeside⟩ := apart
    have own : k.pathFromRoot = pathTo parent ++ [k] := allowed.2 ▸ k.pathFromRoot_eq
    have here : (cons k o children siblings).locate 0 [k] = [0] := by
      cases children <;> simp [locate]
    rcases place with _ | ⟨_ | n, place⟩
    · cases found
    · rcases place with _ | ⟨n, place⟩
      · cases found
        cases member
        exact ⟨k, List.mem_cons_self, [], own, here⟩
      · obtain ⟨l, -, path, whole, same⟩ := ihBelow below apartBelow found
        refine ⟨k, List.mem_cons_self, l :: path, ?_, ?_⟩
        · change m.pathFromRoot = k.pathFromRoot ++ l :: path at whole
          rw [whole, own, List.append_assoc]
          rfl
        · rw [locate, if_pos BEq.rfl, same]
    · -- the first sibling differs by name and is passed over
      obtain ⟨l, label, path, whole, same⟩ := ihBeside beside apartBeside found
      refine ⟨l, List.mem_cons_of_mem _ label, path, whole, ?_⟩
      rw [locate, different l label, if_neg Bool.false_ne_true, locate_eq, same]
      rfl

end Forest

namespace SelectionTree

/-- The actions since the tree was last cleared, all of them within the hierarchy. -/
inductive Since (h : Hierarchy) : List Selection → SelectionTree → Prop
  | empty : Since h [] .empty
  | apply {as : List Selection} {t : SelectionTree} (a : Selection) : Since h as t →
      a.target.Within h → Since h (as ++ [a]) (t.apply a)
  | clear {as : List Selection} {t : SelectionTree} : Since h as t → Since h [] t.clear

/-- The nodes stand where the hierarchy has their members. The members that have a node
are those at or above a member acted on, and each has one. -/
structure Placed (h : Hierarchy) (as : List Selection) (t : SelectionTree) : Prop where
  siblings : ∀ id s, t.site? id = some s → s.children.labels.Pairwise fun a b => (a == b) = false
  below : ∀ id p s r, parentId? id = some p → t.site? id = some s → t.site? p = some r →
    ∃ m ∈ h.members, s.member? = some m ∧ m.parent? = r.member?
  unique : ∀ id m, (t.site? id).bind Site.member? = some m → id = t.find m
  found : ∀ m ∈ h.members, t.hasNode m = true ↔ (t.site? (t.find m)).bind Site.member? = some m
  acted : ∀ m ∈ h.members, t.hasNode m = true ↔
    ∃ a ∈ as, ∃ k, a.target = .member k ∧ m ∈ k.upward

variable {h : Hierarchy} {as : List Selection} {t : SelectionTree} {id : NodeId} {s : Site}
  {m : Member}

theorem Since.reached (since : t.Since h as) : t.Reached h := by
  induction since with
  | empty => exact .empty
  | apply a _ within ih => exact .apply a ih within
  | clear _ ih => exact .clear ih

theorem Since.within (since : t.Since h as) : ∀ a ∈ as, a.target.Within h := by
  induction since with
  | empty => exact nofun
  | apply a _ within ih =>
    rw [List.forall_mem_append, List.forall_mem_singleton]
    exact ⟨ih, within⟩
  | clear _ _ => exact nofun

theorem Since.hasNode_iff (since : t.Since h as) :
    t.hasNode m = true ↔ ∃ a ∈ as, ∃ k, a.target = .member k ∧ m.names <+: k.names := by
  induction since with
  | empty => simp [hasNode, SelectionTree.empty, Forest.find?]
  | apply a _ _ ih =>
    rw [hasNode_apply, ih]
    simp only [List.mem_append, List.mem_singleton, or_and_right, exists_or, exists_eq_left]
  | clear _ _ => simp [hasNode, SelectionTree.clear, Forest.find?]

end SelectionTree

/-- Members of the hierarchy are told by the names on their paths. -/
theorem Hierarchy.Regular.names_prefix_iff {h : Hierarchy} (regular : h.Regular) {m k : Member}
    (left : m ∈ h.members) (right : k ∈ h.members) : m.names <+: k.names ↔ m ∈ k.upward := by
  constructor
  · intro on
    obtain ⟨a, above, same⟩ := Member.exists_mem_upward_of_names on
    have named := Member.uniqueName_of_path_beq (Member.list_beq_iff.mpr same)
    rwa [regular.unique m left a (regular.upward_mem right above) named.symm]
  · intro above
    obtain ⟨rest, path⟩ := Member.pathFromRoot_of_mem_upward above
    rw [Member.names, Member.names, path, List.map_append]
    exact List.prefix_append _ _

namespace SelectionTree

variable {h : Hierarchy} {as : List Selection} {t : SelectionTree} {id : NodeId} {s : Site}
  {m : Member}

theorem exists_siteAt?_of_member? (stands : (t.site? id).bind Site.member? = some m) :
    ∃ s, id.epoch = t.epoch ∧ t.overrides.siteAt? .top id.place = some s ∧ s.member? = some m := by
  obtain ⟨s, found, member⟩ := Option.bind_eq_some_iff.mp stands
  rcases site?_cases found with ⟨-, rfl⟩ | ⟨-, epoch, below⟩
  · cases member
  · exact ⟨s, epoch, below, member⟩

section

variable (regular : h.Regular) (reached : t.Reached h)

include regular reached

theorem Reached.hung_children (found : t.site? id = some s) :
    s.children.Hung h s.member? ∧ s.children.Apart := by
  have hung := reached.hung regular
  have apart := reached.grown.named.2
  rcases site?_cases found with ⟨-, rfl⟩ | ⟨-, -, below⟩
  · exact ⟨hung, apart⟩
  · obtain ⟨m, _, member, lower⟩ := hung.of_siteAt? below
    exact ⟨member ▸ lower, apart.of_siteAt? below⟩

/-- A node stands for a child of the member that its parent stands for. -/
theorem Reached.member_below {p : NodeId} {r : Site} (parent : parentId? id = some p)
    (found : t.site? id = some s) (upper : t.site? p = some r) :
    ∃ m ∈ h.members, s.member? = some m ∧ m.parent? = r.member? := by
  obtain ⟨k, below⟩ := exists_siteAt?_of_parentId? parent found upper
  have label := Forest.member?_siteAt?_singleton r.handsDown r.children k
  rw [below, Option.map_some] at label
  obtain ⟨m, listed, member⟩ := Option.map_eq_some_iff.mp label.symm
  obtain ⟨inside, link⟩ := (reached.hung_children regular upper).1.allows m
    (List.mem_of_getElem? listed)
  exact ⟨m, inside, member.symm, link⟩

theorem Reached.eq_find (stands : (t.site? id).bind Site.member? = some m) : id = t.find m := by
  obtain ⟨s, epoch, below, member⟩ := exists_siteAt?_of_member? stands
  obtain ⟨l, _, path, whole, same⟩ := Forest.locate_of_siteAt? (reached.hung regular)
    reached.grown.named.2 below member
  rw [find, whole, ← epoch]
  exact congrArg (NodeId.mk id.epoch) same.symm

/-- The members that have a node are those that a node stands for. -/
theorem Reached.hasNode_iff_exists (inside : m ∈ h.members) : t.hasNode m = true ↔
    ∃ id ∈ t.preorder, (t.site? id).bind Site.member? = some m := by
  rw [hasNode_eq, Option.isSome_iff_exists]
  constructor
  · intro node
    obtain ⟨o, found⟩ := node
    obtain ⟨k, listed, names⟩ := reached.grown.exists_node found
    obtain ⟨place, s, here, member⟩ := Forest.exists_siteAt?_of_node .top listed
    obtain ⟨l, there, same, -⟩ := (reached.hung regular).of_siteAt? here
    have known : k = m := by
      obtain rfl : k = l := Option.some.inj (member.symm.trans same)
      exact regular.unique k there m inside
        (Member.uniqueName_of_path_beq (Member.list_beq_iff.mpr names))
    have site : t.site? ⟨t.epoch, place⟩ = some s :=
      (site?_eq_some_iff (Forest.ne_nil_of_siteAt? here)).mpr ⟨rfl, here⟩
    exact ⟨⟨t.epoch, place⟩, mem_preorder_iff.mpr ⟨rfl, s, site⟩, by rw [site, ← known, ← member]; rfl⟩
  · intro given
    obtain ⟨id, -, stands⟩ := given
    obtain ⟨s, -, below, member⟩ := exists_siteAt?_of_member? stands
    obtain ⟨k, o, node, same, -⟩ := Forest.exists_node_of_siteAt? below
    obtain rfl : k = m := Option.some.inj (same.symm.trans member)
    exact ⟨o, reached.grown.value?_of_mem_nodes node⟩

theorem Reached.hasNode_iff_find (inside : m ∈ h.members) :
    t.hasNode m = true ↔ (t.site? (t.find m)).bind Site.member? = some m := by
  rw [reached.hasNode_iff_exists regular inside]
  constructor
  · intro given
    obtain ⟨id, -, stands⟩ := given
    rwa [← reached.eq_find regular stands]
  · intro stands
    obtain ⟨s, found, -⟩ := Option.bind_eq_some_iff.mp stands
    exact ⟨t.find m, mem_preorder_iff.mpr ⟨rfl, s, found⟩, stands⟩

end

theorem Since.placed (since : t.Since h as) (regular : h.Regular) : t.Placed h as where
  siblings id s found := (since.reached.hung_children regular found).2.pairwise_labels
  below _ _ _ _ := since.reached.member_below regular
  unique _ _ := since.reached.eq_find regular
  found _ := since.reached.hasNode_iff_find regular
  acted m inside := by
    rw [since.hasNode_iff]
    refine exists_congr fun a => and_congr_right fun mem => exists_congr fun k =>
      and_congr_right fun target => ?_
    have within := since.within a mem
    rw [target] at within
    exact regular.names_prefix_iff inside within

end SelectionTree
end CubeAxis
