import CubeAxis.Proofs.Resolution.Collapsed.Depths

namespace CubeAxis.Collapsed

variable {hs : List Hierarchy} {h : Hierarchy} {t : SelectionTree} {positions : List Member}
  {p q : Progress} {A B : Set Member}

/-- The first included depth of a region and the set of its members there. -/
structure Frontier (h : Hierarchy) (r : Region) (first : Nat) (frontier : MemberSet) : Prop where
  below : r.childrenDepth ≤ first
  included : (r.signAt first).isIncluded = true
  least : ∀ d, r.childrenDepth ≤ d → d < first → (r.signAt d).isIncluded = false
  contains_iff : ∀ m ∈ h.members, frontier.contains m = true ↔ m ∈ r.area h ∧ m.depth = first

theorem frontierLevel?_eq_none {r : Region} (nothing : frontierLevel? r = none) {d : Nat}
    (low : r.childrenDepth ≤ d) (bound : d < r.levels.length) :
    (r.signAt d).isIncluded = false := by
  rw [Bool.eq_false_iff]
  intro included
  have mem := Region.mem_includedDepths.mpr ⟨low, bound, included⟩
  unfold frontierLevel? at nothing
  cases depths : r.includedDepths r.childrenDepth with
  | nil =>
    rw [depths] at mem
    exact List.not_mem_nil mem
  | cons first rest =>
    have inside : first < r.levels.length :=
      (Region.mem_includedDepths.mp (depths ▸ List.mem_cons_self)).2.1
    rw [depths] at nothing
    simp [inside] at nothing

theorem frontierLevel?_eq_some {r : Region} {first : Nat} {level : Level}
    (found : frontierLevel? r = some (first, level)) :
    r.childrenDepth ≤ first ∧ r.levels[first]? = some level ∧ (r.signAt first).isIncluded = true ∧
      ∀ d, r.childrenDepth ≤ d → d < first → (r.signAt d).isIncluded = false := by
  unfold frontierLevel? at found
  obtain ⟨start, head, found⟩ := Option.bind_eq_some_iff.mp found
  obtain ⟨l, atStart, found⟩ := Option.bind_eq_some_iff.mp found
  cases found
  cases depths : r.includedDepths r.childrenDepth with
  | nil =>
    rw [depths] at head
    cases head
  | cons first rest =>
    rw [depths] at head
    cases head
    obtain ⟨low, bound, sign⟩ := Region.mem_includedDepths.mp (depths ▸ List.mem_cons_self)
    refine ⟨low, atStart, sign, fun d above less => ?_⟩
    rw [Bool.eq_false_iff]
    intro included
    have mem := Region.mem_includedDepths.mpr ⟨above, by omega, included⟩
    have sorted := Region.pairwise_includedDepths (r := r) r.childrenDepth
    rw [depths] at mem sorted
    rcases List.mem_cons.mp mem with rfl | tail
    · exact Nat.lt_irrefl _ less
    · exact Nat.lt_asymm less ((List.pairwise_cons.mp sorted).1 d tail)

section

variable {r : Region} {first : Nat} {level : Level} (regular : h.Regular) (sits : r.Sits h)

include regular sits

theorem frontier_children {m : Member} (site : r.site.member? = some m)
    (included : (r.signAt r.childrenDepth).isIncluded = true) :
    (MemberSet.children m (distinct r.overridden)).Fits h ∧
      Frontier h r r.childrenDepth (.children m (distinct r.overridden)) := by
  have fits : (MemberSet.children m (distinct r.overridden)).Fits h :=
    ⟨sits.member_mem m site, fun _ => sits.distinct_mem⟩
  refine ⟨fits, Nat.le_refl _, included, fun d low less => by omega, fun x inside => ?_⟩
  rw [MemberSet.contains_children regular fits inside, sits.mem_distinct_iff regular,
    sits.mem_area_top_iff regular.toSound inside, site]

variable (found : frontierLevel? r = some (first, level))

include found

theorem frontier_descendants {m : Member} (site : r.site.member? = some m) :
    (MemberSet.descendants m level (distinct r.overridden)).Fits h ∧
      Frontier h r first (.descendants m level (distinct r.overridden)) := by
  obtain ⟨low, atFirst, sign, least⟩ := frontierLevel?_eq_some found
  have fits : (MemberSet.descendants m level (distinct r.overridden)).Fits h :=
    ⟨sits.member_mem m site, fun _ => sits.distinct_mem⟩
  have depth : level.depth = first := (regular.level_at first level (sits.levels ▸ atFirst)).1
  refine ⟨fits, low, sign, least, fun x inside => ?_⟩
  have start : r.childrenDepth = m.depth + 1 := by rw [Region.childrenDepth, site]; rfl
  rw [MemberSet.contains_descendants regular fits inside, depth, and_comm (b := x.depth = first)]
  refine and_congr_right fun level => ?_
  simp only [sits.mem_distinct_iff regular, Region.area, Set.mem_ofPred_eq, inside, true_and, site,
    Option.some.injEq, forall_eq']
  refine and_congr_left fun _ => ⟨fun above => ?_, Member.mem_upward_of_ancestors⟩
  exact Member.mem_ancestors_of_lt above (by omega)

/-- Above the root members the sign depends on the name of the level alone, so that
the first included level has its name to itself. -/
theorem exact_of_root (layered : h.Layered) (root : r.site = r.tree.rootSite) : level.Exact h := by
  obtain ⟨_, atFirst, sign, least⟩ := frontierLevel?_eq_some found
  rw [sits.levels] at atFirst
  have depth := (regular.level_at first level atFirst).1
  intro x inside
  rw [depth]
  constructor
  · intro same
    have name := (regular.level_beq_iff inside atFirst).mp same
    rcases Nat.lt_trichotomy x.depth first with above | level | below
    · have signs : r.levelSign x.depth = r.levelSign first := by
        rw [sits.levelSign_depth regular.toSound inside, r.tree.levelSign_congr same,
          Region.levelSign, SelectionTree.levelSignAt, sits.levels, atFirst]
        rfl
      have equal : r.signAt x.depth = r.signAt first := by
        simp only [Region.signAt, signs, root]
        split <;> split <;> rfl
      have top : r.childrenDepth = 0 := by rw [Region.childrenDepth, root]; rfl
      rw [← equal, least x.depth (top ▸ Nat.zero_le _) above] at sign
      cases sign
    · exact level
    · obtain ⟨a, atop, level⟩ := Member.exists_mem_upward_of_depth (Nat.le_of_lt below)
      have insideA := regular.upward_mem inside atop
      have ownName := regular.member_level a insideA
      rw [level, atFirst] at ownName
      cases ownName
      exact (layered x inside a insideA name).trans level
  · intro level
    have own := regular.member_level x inside
    rw [level, atFirst] at own
    cases own
    exact BEq.rfl

end

section

variable {r : Region} {first : Nat} {frontier : MemberSet} (regular : h.Regular) (sits : r.Sits h)
  (opened : ∀ m, r.site.member? = some m → Open r.tree positions m)
  (outer : Frontier h r first frontier)

include regular sits opened outer

theorem Frontier.visible {m : Member} (owned : m ∈ r.area h) (level : m.depth = first) :
    Visible h r.tree positions m := by
  refine ⟨owned.1, ?_, fun a above included => ?_⟩
  · rw [sits.isIncluded_iff regular owned, level]
    exact outer.included
  · rcases sits.mem_area_or_above regular.toSound owned above with ownedA | ⟨k, site, link⟩
    · have sign := (sits.isIncluded_iff regular ownedA).mp included
      have high := Member.depth_lt_of_mem_ancestors above
      rw [outer.least a.depth (Region.childrenDepth_le_of_mem_area ownedA) (level ▸ high)] at sign
      cases sign
    · exact opened k site a link included

omit regular sits opened in
theorem Frontier.test_iff {m : Member} (inside : m ∈ h.members) :
    (m.depth == first && frontier.contains m) = true ↔ m ∈ r.area h ∧ m.depth = first := by
  rw [Bool.and_eq_true, beq_iff_eq, outer.contains_iff m inside]
  tauto

/-- The drilled members that a region opens with. -/
theorem Frontier.taken {pool : Pool} (recorded : ∀ m ∈ pool, m ∈ positions)
    (inside : ∀ m ∈ pool, m ∈ h.members) :
    Taken h r.tree positions r first
      (pool.filter fun m => m.depth == first && frontier.contains m) := by
  have passed : ∀ m ∈ pool.filter fun m => m.depth == first && frontier.contains m,
      (m ∈ r.area h ∧ m.depth = first) ∧ m ∈ positions := by
    intro m mem
    obtain ⟨mem, test⟩ := List.mem_filter.mp mem
    exact ⟨(outer.test_iff (inside m mem)).mp test, recorded m mem⟩
  exact ⟨fun m mem => (passed m mem).1.1, fun m mem => (passed m mem).1.2,
    fun m mem => outer.visible regular sits opened (passed m mem).1.1 (passed m mem).1.2,
    fun m mem => (passed m mem).2⟩

/-- What is visible in a region lies at its first included depth or below a member that is
drilled there. -/
theorem Frontier.visible_onward {pool : Pool} (free : ∀ m ∈ r.area h, m ∈ positions → m ∈ pool)
    {m : Member} (owned : m ∈ r.area h) (visible : Visible h r.tree positions m) :
    m.depth = first ∨
      m ∈ Collapsed.below h (pool.filter fun m => m.depth == first && frontier.contains m) := by
  have sign := (sits.isIncluded_iff regular owned).mp visible.2.1
  have low : first ≤ m.depth := by
    by_contra less
    rw [outer.least m.depth (Region.childrenDepth_le_of_mem_area owned) (by omega)] at sign
    cases sign
  refine (Nat.lt_or_eq_of_le low).elim (fun strict => Or.inr ?_) fun same => Or.inl same.symm
  obtain ⟨a, above, level⟩ := Member.exists_mem_upward_of_depth low
  have higher := Member.mem_ancestors_of_lt above (by omega)
  have ownedA := sits.upward_mem_area regular.toSound owned above (level.symm ▸ outer.below)
  have shown := outer.visible regular sits opened ownedA level
  have drilled := visible.2.2 a higher shown.2.1
  refine ⟨visible.1, a, List.mem_filter.mpr ⟨free a ownedA drilled, ?_⟩, higher⟩
  exact (outer.test_iff shown.1).mpr ⟨ownedA, level⟩

variable (found : Expr.findHierarchy hs h.name = .ok h)

include found

theorem openRegion_grows (honest : Honest hs h r.tree positions p)
    (recorded : ∀ m ∈ positions, m ∈ h.members) (free : Unclaimed positions (r.area h) p)
    (covered : ∀ m ∈ r.area h, m.depth = first → Covers hs p m) :
    Grows hs h r.tree positions (r.area h) p (openRegion r frontier first p) := by
  have inPool : ∀ m ∈ p.pool, m ∈ h.members := fun m mem => recorded m (honest.pool m mem)
  have claimed := honest.takeWhere (fun m => m.depth == first && frontier.contains m)
    (A := {m | m ∈ r.area h ∧ m.depth = first}) (fun m mem => (outer.test_iff (inPool m mem)).mp)
    fun m inside _ => covered m inside.1 inside.2
  have known := outer.taken regular sits opened honest.pool inPool
  have rest := openDepths_grows regular sits found claimed.honest recorded known
    (ahead_includedDepths r first) (claimed.unclaimed
      (fun m inside => free m (known.owned_below sits inside).1)
      fun m inside same => Nat.ne_of_gt (known.owned_below sits inside).2 same.2)
  refine (claimed.trans rest).mono ?_ fun m owned visible outside => absurd ?_ outside
  · intro m given
    rcases given with top | deeper
    · exact top.1
    · exact (known.owned_below sits deeper).1
  · exact (outer.visible_onward regular sits opened free owned visible).imp_left
      fun level => ⟨owned, level⟩

/-- Listing the first included members of a region and following the drills from there. -/
theorem showFrontier_grows (honest : Honest hs h r.tree positions p)
    (recorded : ∀ m ∈ positions, m ∈ h.members) (free : Unclaimed positions (r.area h) p)
    (fits : frontier.Fits h) : Grows hs h r.tree positions (r.area h) p
      (openRegion r frontier first { p with axis := p.axis.add frontier.expr }) := by
  have listed := honest.add regular (A := {m | m ∈ r.area h ∧ m.depth = first})
    (MemberSet.term_expr regular found fits) (fun m ⟨inside, mem⟩ => by
      obtain ⟨owned, level⟩ := (outer.contains_iff m inside).mp mem
      exact outer.visible regular sits opened owned level)
    fun m inside _ => ⟨inside.1.1, (outer.contains_iff m inside.1.1).mpr inside⟩
  have rest := openRegion_grows regular sits opened outer found listed.honest recorded free
    fun m owned level => listed.covers m ⟨owned, level⟩
      (outer.visible regular sits opened owned level)
  refine (listed.trans rest).mono ?_ fun m owned _ outside => absurd (Or.inr owned) outside
  intro m given
  rcases given with top | owned
  · exact top.1
  · exact owned

end

section

variable {r : Region} {first : Nat} {level : Level} (regular : h.Regular) (sits : r.Sits h)
  (found : Expr.findHierarchy hs h.name = .ok h) (recorded : ∀ m ∈ positions, m ∈ h.members)

include regular sits

theorem frontier_root (layered : h.Layered) (root : r.site = r.tree.rootSite)
    (top : frontierLevel? r = some (first, level)) {frontier : MemberSet}
    (shape : frontier = if first = 0 then .roots level (distinct r.overridden)
      else .level level (distinct r.overridden)) :
    frontier.Fits h ∧ Frontier h r first frontier := by
  obtain ⟨low, atFirst, sign, least⟩ := frontierLevel?_eq_some top
  obtain ⟨depth, owner⟩ := regular.level_at first level (sits.levels ▸ atFirst)
  have exact := exact_of_root regular sits top layered root
  have noParent : r.site.member? = none := by rw [root]; rfl
  have start : r.childrenDepth = 0 := by rw [Region.childrenDepth, noParent]; rfl
  have known : ∀ l ∈ distinct r.overridden, l ∈ h.members := fun _ => sits.distinct_mem
  by_cases zero : first = 0
  · rw [if_pos zero] at shape
    subst shape
    have fits : (MemberSet.roots level (distinct r.overridden)).Fits h :=
      ⟨owner, exact, depth.trans zero, known⟩
    refine ⟨fits, low, sign, least, fun x inside => ?_⟩
    rw [MemberSet.contains_roots regular fits inside, sits.mem_distinct_iff regular, zero, ← start,
      sits.mem_area_top_iff regular.toSound inside, noParent, start, Member.parent?_eq_none_iff]
  · rw [if_neg zero] at shape
    subst shape
    have fits : (MemberSet.level level (distinct r.overridden)).Fits h := ⟨owner, exact, known⟩
    refine ⟨fits, low, sign, least, fun x inside => ?_⟩
    rw [MemberSet.contains_level regular fits inside, depth, and_comm]
    simp [sits.mem_distinct_iff regular, Region.area, inside, noParent]

theorem not_visible_of_no_frontier (nothing : frontierLevel? r = none) {m : Member}
    (owned : m ∈ r.area h) : ¬ Visible h r.tree positions m := by
  intro visible
  have sign := (sits.isIncluded_iff regular owned).mp visible.2.1
  rw [frontierLevel?_eq_none nothing (Region.childrenDepth_le_of_mem_area owned)
    (sits.depth_lt_levels regular.toSound visible.1)] at sign
  cases sign

include found recorded

/-- The region of a node. A drill on the node itself is told from the answer. -/
theorem showRegion_grows {m : Member} (site : r.site.member? = some m)
    (honest : Honest hs h r.tree positions p) (opened : Open r.tree positions m) {drilled : Bool}
    (shown : drilled = true → Visible h r.tree positions m ∧ m ∈ positions)
    (free : Unclaimed positions (r.area h) p) :
    ((showRegion r m drilled p).1 = false ∧
      Grows hs h r.tree positions (r.area h) p (showRegion r m drilled p).2) ∨
    ((showRegion r m drilled p).1 = true ∧ drilled = true ∧
      (∀ c ∈ r.area h, c.parent? = some m → r.tree.isIncluded c = true) ∧
      Grows hs h r.tree positions (r.area h) { p with axis := p.axis.drill (.member m) }
        (showRegion r m drilled p).2) := by
  have openedAll : ∀ k, r.site.member? = some k → Open r.tree positions k := by
    intro k same
    cases site.symm.trans same
    exact opened
  unfold showRegion
  split
  · rename_i nothing
    exact Or.inl ⟨rfl, .refl honest fun x owned =>
      not_visible_of_no_frontier regular sits nothing owned⟩
  · rename_i first level top
    obtain ⟨_, _, sign, _⟩ := frontierLevel?_eq_some top
    by_cases near : first = r.childrenDepth
    · rw [if_pos near]
      subst near
      obtain ⟨fits, outer⟩ := frontier_children regular sits site sign
      cases drilled with
      | false =>
        exact Or.inl ⟨rfl, showFrontier_grows regular sits openedAll outer found honest recorded
          free fits⟩
      | true =>
        obtain ⟨visible, known⟩ := shown rfl
        have drill := honest.drill regular (UnionTerms.term_member visible.1)
          (fun k same => Set.mem_singleton_iff.mp same ▸ ⟨visible, known⟩)
        refine Or.inr ⟨rfl, rfl, fun c owned link => ?_, ?_⟩
        · have low := Member.depth_of_parent? link
          rw [sits.isIncluded_iff regular owned,
            Region.depth_of_parent? (r := r) (link.trans site.symm)]
          exact sign
        · refine openRegion_grows regular sits openedAll outer found drill recorded free
            fun x owned level => Or.inr ⟨m, ?_, ?_⟩
          · rw [AxisSet.drill, UnionTerms.shown_add regular (UnionTerms.term_member visible.1)]
            exact Or.inr rfl
          · exact ((sits.mem_area_top_iff regular.toSound owned.1).mp ⟨owned, level⟩).1.trans site
    · rw [if_neg near]
      obtain ⟨fits, outer⟩ := frontier_descendants regular sits top site
      exact Or.inl ⟨rfl, showFrontier_grows regular sits openedAll outer found honest recorded free
        fits⟩

end

theorem showRoots_grows (regular : h.Regular) (layered : h.Layered)
    (found : Expr.findHierarchy hs h.name = .ok h) (recorded : ∀ m ∈ positions, m ∈ h.members)
    (hung : t.overrides.Hung h none) (honest : Honest hs h t positions p)
    (free : Unclaimed positions (Region.area h ⟨t, h.levels, t.rootSite⟩) p) :
    Grows hs h t positions (Region.area h ⟨t, h.levels, t.rootSite⟩) p
      (showRoots t h.levels p) := by
  have sits := SelectionTree.sits_root hung
  unfold showRoots
  dsimp only
  split
  · rename_i nothing
    exact .refl honest fun x owned => not_visible_of_no_frontier regular sits nothing owned
  · rename_i first level top
    obtain ⟨fits, outer⟩ := frontier_root regular sits layered rfl top rfl
    exact showFrontier_grows regular sits (fun m none => by cases none) outer found honest recorded
      free fits


end CubeAxis.Collapsed
