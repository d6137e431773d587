import CubeAxis.Proofs.Resolution.Collapsed.Walk
import CubeAxis.Proofs.Resolution.Sifting
import Mathlib.Data.List.Nodup
import Mathlib.Data.List.Perm.Subperm

namespace CubeAxis.Collapsed

/-- From `p` to `q` the visible members of an area leave the pool, and no others. -/
structure Takes (h : Hierarchy) (t : SelectionTree) (positions : List Member) (A : Set Member)
    (p q : Pool) : Prop where
  order : q.Sublist p
  mem_iff : ∀ m ∈ p, m ∈ q ↔ ¬ (m ∈ A ∧ Visible h t positions m)

variable {h : Hierarchy} {t : SelectionTree} {positions : List Member} {A B : Set Member}

namespace Takes

variable {p q r : Pool} (takes : Takes h t positions A p q)

theorem refl (empty : ∀ m ∈ A, ¬ Visible h t positions m) : Takes h t positions A p p :=
  ⟨List.Sublist.refl p, fun m mem => iff_of_true mem fun ⟨inside, visible⟩ =>
    empty m inside visible⟩

theorem takeWhere {test : Member → Bool}
    (passes : ∀ m ∈ p, test m = true ↔ m ∈ A ∧ Visible h t positions m) :
    Takes h t positions A p (p.takeWhere test).2 := by
  refine ⟨List.filter_sublist, fun m mem => ?_⟩
  rw [Pool.takeWhere, List.mem_filter, and_iff_right mem, Bool.not_eq_true', ← Bool.not_eq_true,
    passes m mem]

include takes

theorem trans (next : Takes h t positions B q r) : Takes h t positions (A ∪ B) p r := by
  refine ⟨next.order.trans takes.order, fun m mem => ?_⟩
  have both : m ∈ r ↔ m ∈ q ∧ m ∈ r := (and_iff_right_of_imp fun left => next.order.subset left).symm
  rw [both, and_congr_right (next.mem_iff m), takes.mem_iff m mem, ← not_or, Set.mem_union,
    or_and_right]

/-- Only the visible members of an area count. -/
theorem congr (same : ∀ m, Visible h t positions m → (m ∈ B ↔ m ∈ A)) :
    Takes h t positions B p q := by
  refine ⟨takes.order, fun m mem => (takes.mem_iff m mem).trans (not_congr ?_)⟩
  exact and_congr_left fun visible => (same m visible).symm

theorem unclaimed (free : ∀ m ∈ B, m ∈ positions → m ∈ p) (apart : ∀ m ∈ B, m ∉ A) :
    ∀ m ∈ B, m ∈ positions → m ∈ q :=
  fun m inside drilled =>
    (takes.mem_iff m (free m inside drilled)).mpr fun given => apart m inside given.1

/-- What is left of a pool without repetition are, in order, the members that were not taken. -/
theorem eq_filter (once : p.Nodup) {test : Member → Bool}
    (left : ∀ m ∈ p, test m = true ↔ ¬ (m ∈ A ∧ Visible h t positions m)) : q = p.filter test := by
  have mem_iff : ∀ m, m ∈ q ↔ m ∈ p.filter test := by
    intro m
    rw [List.mem_filter]
    refine ⟨fun mem => ?_, fun given => (takes.mem_iff m given.1).mpr ((left m given.1).mp given.2)⟩
    have old := takes.order.subset mem
    exact ⟨old, (left m old).mpr ((takes.mem_iff m old).mp mem)⟩
  have passed : q.filter test = q :=
    List.filter_eq_self.mpr fun m mem => (List.mem_filter.mp ((mem_iff m).mp mem)).2
  have within : q.Sublist (p.filter test) := passed ▸ takes.order.filter test
  refine within.eq_of_length_le (List.Nodup.subperm (once.filter test) fun m mem => ?_).length_le
  exact (mem_iff m).mpr mem

end Takes

section

variable {p : Progress} {r : Region} {depth : Nat} {depths : List Nat} {taken : List Member}
  (regular : h.Regular) (sits : r.Sits h) (recorded : ∀ m ∈ positions, m ∈ h.members)
  (inPool : ∀ m ∈ p.pool, m ∈ positions)

include regular sits recorded inPool

/-- Following drills down a region takes what is visible below the drilled members. -/
theorem openDepths_takes (known : Taken h r.tree positions r depth taken)
    (ahead : Ahead r depth depths) (free : Unclaimed positions (below h taken) p) :
    Takes h r.tree positions (below h taken) p.pool (openDepths taken depth depths p).pool := by
  induction depths generalizing taken depth p with
  | nil => exact .refl fun m inside => known.not_visible_below regular sits ahead inside
  | cons next depths ih =>
    rw [openDepths]
    split
    · rename_i empty
      rw [List.isEmpty_iff.mp empty]
      exact .refl fun m inside => absurd inside below_nil
    · have deeper := ((ahead.mem_iff next).mp List.mem_cons_self).1
      have inside : ∀ m ∈ p.pool, m ∈ h.members := fun m mem => recorded m (inPool m mem)
      have claimed : Takes h r.tree positions {m | m ∈ below h taken ∧ m.depth = next} p.pool
          (p.pool.takeWhere (under taken next)).2 := by
        refine .takeWhere fun m mem => (under_iff regular known deeper (inside m mem)).trans ?_
        exact (and_iff_left_of_imp fun given =>
          known.visible_below regular sits ahead given.1 given.2).symm
      obtain ⟨onward, lower⟩ := known.onward regular sits ahead inPool inside
      have left : ∀ m ∈ (p.pool.takeWhere (under taken next)).2, m ∈ positions :=
        fun m mem => inPool m (claimed.order.subset mem)
      have freeBelow := claimed.unclaimed (fun m mem => free m (lower mem).1)
        fun m mem same => Nat.ne_of_gt (lower mem).2 same.2
      refine (claimed.trans (ih (p := ⟨_, _⟩) left onward ahead.tail freeBelow)).congr
        fun m visible => ⟨fun mem => ?_, ?_⟩
      · exact (known.visible_onward regular sits ahead free mem visible).imp_left
          fun level => ⟨mem, level⟩
      · rintro (first | second)
        · exact first.1
        · exact (lower second).1

variable {first : Nat} {frontier : MemberSet}
  (opened : ∀ m, r.site.member? = some m → Open r.tree positions m)
  (free : Unclaimed positions (r.area h) p)

include opened free

/-- Following drills down a whole region, whatever has been shown before. -/
theorem openRegion_takes (outer : Frontier h r first frontier) (axis : AxisSet) :
    Takes h r.tree positions (r.area h) p.pool
      (openRegion r frontier first { pool := p.pool, axis := axis }).pool := by
  have inside : ∀ m ∈ p.pool, m ∈ h.members := fun m mem => recorded m (inPool m mem)
  have claimed : Takes h r.tree positions {m | m ∈ r.area h ∧ m.depth = first} p.pool
      (p.pool.takeWhere fun m => m.depth == first && frontier.contains m).2 := by
    refine .takeWhere fun m mem => (outer.test_iff (inside m mem)).trans ?_
    exact (and_iff_left_of_imp fun given =>
      outer.visible regular sits opened given.1 given.2).symm
  have known := outer.taken regular sits opened inPool inside
  have left : ∀ m ∈ (p.pool.takeWhere fun m => m.depth == first && frontier.contains m).2,
      m ∈ positions := fun m mem => inPool m (claimed.order.subset mem)
  have freeBelow := claimed.unclaimed (fun m mem => free m (known.owned_below sits mem).1)
    fun m mem same => Nat.ne_of_gt (known.owned_below sits mem).2 same.2
  have rest := openDepths_takes regular sits recorded (p := ⟨_, axis⟩) left known
    (ahead_includedDepths r first) freeBelow
  refine (claimed.trans rest).congr fun m visible => ⟨fun owned => ?_, ?_⟩
  · exact (outer.visible_onward regular sits opened free owned visible).imp_left
      fun level => ⟨owned, level⟩
  · rintro (top | deeper)
    · exact top.1
    · exact (known.owned_below sits deeper).1

/-- Showing the region of an open node takes what is visible there. -/
theorem showRegion_takes {m : Member} (site : r.site.member? = some m) (drilled : Bool) :
    Takes h r.tree positions (r.area h) p.pool (showRegion r m drilled p).2.pool := by
  unfold showRegion
  split
  · rename_i nothing
    exact .refl fun x owned => not_visible_of_no_frontier regular sits nothing owned
  · rename_i first level top
    obtain ⟨_, _, sign, _⟩ := frontierLevel?_eq_some top
    by_cases near : first = r.childrenDepth
    · rw [if_pos near]
      subst near
      have outer := (frontier_children regular sits site sign).2
      exact openRegion_takes regular sits recorded inPool opened free outer _
    · rw [if_neg near]
      have outer := (frontier_descendants regular sits top site).2
      exact openRegion_takes regular sits recorded inPool opened free outer _

end

section

variable {p : Progress} (regular : h.Regular) (recorded : ∀ m ∈ positions, m ∈ h.members)

include regular recorded

theorem showRoots_takes (layered : h.Layered) (hung : t.overrides.Hung h none)
    (inPool : ∀ m ∈ p.pool, m ∈ positions)
    (free : Unclaimed positions (Region.area h ⟨t, h.levels, t.rootSite⟩) p) :
    Takes h t positions (Region.area h ⟨t, h.levels, t.rootSite⟩) p.pool
      (showRoots t h.levels p).pool := by
  have sits := SelectionTree.sits_root hung
  unfold showRoots
  dsimp only
  split
  · rename_i nothing
    exact .refl fun x owned => not_visible_of_no_frontier regular sits nothing owned
  · rename_i first level top
    have outer := (frontier_root regular sits layered rfl top rfl).2
    exact openRegion_takes regular sits recorded inPool (fun m none => by cases none) free outer _

variable (once : positions.Nodup)

include once

/-- Showing a node's member takes it where it is included, and then it is visible. -/
theorem marked_takes {m : Member} (inside : m ∈ h.members)
    (shown : t.isIncluded m = true → Visible h t positions m) (inBase : Bool)
    (order : p.pool.Sublist positions) :
    Takes h t positions {m} p.pool (marked (t.isIncluded m) inBase m p).pool := by
  cases sign : t.isIncluded m with
  | false =>
    refine .refl fun k same visible => ?_
    rw [Set.mem_singleton_iff.mp same] at visible
    exact Bool.noConfusion (visible.2.1.symm.trans sign)
  | true =>
    have known : ∀ k ∈ p.pool, k ∈ h.members := fun k mem => recorded k (order.subset mem)
    change Takes h t positions {m} p.pool (p.pool.erase m)
    rw [Pool.erase_eq_filter regular (once.sublist order) known inside]
    refine .takeWhere fun k mem => (regular.beq_iff (known k mem) inside).trans ?_
    refine (and_iff_left_of_imp fun same => ?_).symm
    rw [Set.mem_singleton_iff.mp same]
    exact shown sign

variable {parent : Option Member} {i : Inherited}

theorem visitNode_takes {m : Member} {o : Override} {below beside : Forest Override}
    (stands : t.Stands h parent i (.cons m o below beside))
    (opened : ∀ k, parent = some k → Open t positions k) (inBase : Bool)
    (order : p.pool.Sublist positions) (free : Unclaimed positions (h.subtree m) p)
    (visits : Open t positions m → ∀ inBase (q : Progress), q.pool.Sublist positions →
      Unclaimed positions (below.area h) q →
      Takes h t positions (below.area h) q.pool
        (visit t h.levels (i.handDown o.state) true inBase below q).pool) :
    Takes h t positions (h.subtree m) p.pool (visitNode t h.levels i inBase m o below p).pool := by
  have inside := stands.node_mem
  have self : m ∈ h.subtree m := ⟨inside, Member.mem_upward_self m⟩
  have openedAbove : ∀ k, m.parent? = some k → Open t positions k :=
    fun k link => opened k (stands.node_parent.symm.trans link)
  have mark := marked_takes regular recorded once inside
    (fun sign => visible_of_open inside sign openedAbove) inBase order
  have inPool : p.pool.contains m = true ↔ m ∈ positions :=
    regular.contains_iff_of_within recorded (fun k mem => order.subset mem) inside (free m self)
  rw [visitNode, enter_eq, ← stands.isIncluded_node regular.toSound]
  dsimp only
  by_cases onward : (!t.isIncluded m || p.pool.contains m) = true
  · rw [if_pos onward]
    have openM : Open t positions m := by
      refine open_of_parent openedAbove fun sign => ?_
      rw [sign] at onward
      exact inPool.mp onward
    rw [stands.subtree_eq] at free ⊢
    have orderMarked := mark.order.trans order
    have freeMarked := mark.unclaimed (fun k mem => free k (Or.inr mem))
      fun k => stands.not_mem_singleton_of_below
    have region := showRegion_takes regular stands.region recorded
      (fun k mem => orderMarked.subset mem) (fun k same => by cases same; exact openM)
      (fun k owned => freeMarked k (Or.inl owned)) rfl (t.isIncluded m && p.pool.contains m)
    have freeBelow := region.unclaimed (fun k mem => freeMarked k (Or.inr mem))
      fun k => Region.not_mem_area_of_below
        ⟨t, h.levels, ⟨some (m, i), o.state, o.sequence, below⟩⟩
    exact mark.trans (region.trans (visits openM _ _ (region.order.trans orderMarked) freeBelow))
  · rw [if_neg onward]
    rw [Bool.or_eq_true, not_or, Bool.not_eq_true', Bool.not_eq_false, inPool] at onward
    -- the member is shown and not drilled, so nothing below it is visible
    refine mark.congr fun k visible => ⟨fun lower => ?_, ?_⟩
    · rcases Member.mem_upward_iff.mp lower.2 with same | higher
      · exact same.symm
      · exact absurd (visible.2.2 m higher onward.1) onward.2
    · rintro rfl
      exact self

/-- The walk over the nodes of a forest takes what is visible there. -/
theorem visit_takes {f : Forest Override} (stands : t.Stands h parent i f)
    (opened : ∀ k, parent = some k → Open t positions k) (inBase : Bool)
    (order : p.pool.Sublist positions) (free : Unclaimed positions (f.area h) p) :
    Takes h t positions (f.area h) p.pool (visit t h.levels i true inBase f p).pool := by
  induction f generalizing parent i inBase p with
  | nil =>
    refine .refl fun x inside => ?_
    obtain ⟨_, l, label, _⟩ := inside
    exact absurd label List.not_mem_nil
  | cons m o below beside ihBelow ihBeside =>
    rw [SelectionTree.Stands.area_cons] at free ⊢
    have node := visitNode_takes regular recorded once stands opened inBase order
      (fun k mem => free k (Or.inl mem)) fun openM inBase q order free =>
        ihBelow stands.region.stands (fun k same => by cases same; exact openM) inBase order free
    rw [visit_cons]
    exact node.trans (ihBeside (stands.siblings regular) opened inBase (node.order.trans order)
      (node.unclaimed (fun k mem => free k (Or.inr mem)) fun k mem => stands.apart mem))

/-- Of the recorded positions those are left, in their order, that are not visible. -/
theorem resolve_pool (layered : h.Layered) (hung : t.overrides.Hung h none) :
    (resolve t h.levels positions).pool =
      positions.filter fun m => !Mode.collapsed.isVisible t positions m := by
  have roots := showRoots_takes (p := { pool := positions }) regular recorded layered hung
    (fun _ => id) fun _ _ => id
  have nodes := visit_takes regular recorded once (SelectionTree.sits_root hung).stands
    (fun k none => by cases none) false roots.order
    (roots.unclaimed (fun _ _ => id) fun k => Region.not_mem_area_of_below _)
  refine (roots.trans nodes).eq_filter once fun m mem => ?_
  have inside := recorded m mem
  rw [Bool.not_eq_true', ← Bool.not_eq_true, isVisible_iff regular recorded inside]
  exact not_congr (and_iff_right (SelectionTree.mem_area_root inside)).symm

end

end CubeAxis.Collapsed
