import CubeAxis.Proofs.Resolution.Collapsed.Growth
import CubeAxis.Proofs.Resolution.Region

namespace CubeAxis.Collapsed

variable {hs : List Hierarchy} {h : Hierarchy} {t : SelectionTree} {positions : List Member}
  {p q : Progress} {A B : Set Member}

/-- The members strictly below some of a list. -/
def below (h : Hierarchy) (taken : List Member) : Set Member :=
  {m | m ∈ h.members ∧ ∃ a ∈ taken, a ∈ m.ancestors}

theorem below_nil {m : Member} : m ∉ below h [] := by
  rintro ⟨_, a, mem, _⟩
  exact List.not_mem_nil mem

/-- Whether a member is taken at the next depth below those taken before. -/
def under (taken : List Member) (next : Nat) (m : Member) : Bool :=
  m.depth == next && (MemberSet.listed taken).containsAncestorOf m

/-- The drilled members that lie at one depth of a region. -/
structure Taken (h : Hierarchy) (t : SelectionTree) (positions : List Member) (r : Region)
    (depth : Nat) (taken : List Member) : Prop where
  owned : ∀ m ∈ taken, m ∈ r.area h
  depth : ∀ m ∈ taken, m.depth = depth
  visible : ∀ m ∈ taken, Visible h t positions m
  drilled : ∀ m ∈ taken, m ∈ positions

/-- The included depths of a region below a depth, in order. -/
structure Ahead (r : Region) (depth : Nat) (depths : List Nat) : Prop where
  sorted : depths.Pairwise (· < ·)
  mem_iff : ∀ d, d ∈ depths ↔
    depth < d ∧ d < r.levels.length ∧ (r.signAt d).isIncluded = true

theorem ahead_includedDepths (r : Region) (depth : Nat) :
    Ahead r depth (r.includedDepths (depth + 1)) :=
  ⟨Region.pairwise_includedDepths _, fun _ => Region.mem_includedDepths⟩

theorem Ahead.tail {r : Region} {depth next : Nat} {depths : List Nat}
    (ahead : Ahead r depth (next :: depths)) : Ahead r next depths := by
  obtain ⟨first, rest⟩ := List.pairwise_cons.mp ahead.sorted
  have lower := ((ahead.mem_iff next).mp List.mem_cons_self).1
  refine ⟨rest, fun d => ⟨fun mem => ?_, fun ⟨above, bound⟩ => ?_⟩⟩
  · exact ⟨first d mem, ((ahead.mem_iff d).mp (List.mem_cons_of_mem _ mem)).2⟩
  · rcases List.mem_cons.mp ((ahead.mem_iff d).mpr ⟨by omega, bound⟩) with rfl | tail
    · exact absurd above (Nat.lt_irrefl _)
    · exact tail

theorem Ahead.first_le {r : Region} {depth next d : Nat} {depths : List Nat}
    (ahead : Ahead r depth (next :: depths)) (deeper : depth < d) (bound : d < r.levels.length)
    (included : (r.signAt d).isIncluded = true) : next ≤ d := by
  rcases List.mem_cons.mp ((ahead.mem_iff d).mpr ⟨deeper, bound, included⟩) with rfl | tail
  · exact Nat.le_refl _
  · exact Nat.le_of_lt ((List.pairwise_cons.mp ahead.sorted).1 d tail)

section

variable {r : Region} {depth next : Nat} {depths : List Nat} {taken : List Member}
  (regular : h.Regular) (sits : r.Sits h)

include regular sits

omit regular in
theorem Taken.owned_below (known : Taken h t positions r depth taken) {m : Member}
    (inside : m ∈ below h taken) : m ∈ r.area h ∧ depth < m.depth := by
  obtain ⟨member, a, mem, above⟩ := inside
  refine ⟨sits.mem_area_of_mem_upward (known.owned a mem) member
    (Member.mem_upward_of_ancestors above), ?_⟩
  rw [← known.depth a mem]
  exact Member.depth_lt_of_mem_ancestors above

/-- On the next included depth nothing stands between the members and those drilled. -/
theorem Taken.visible_below (known : Taken h r.tree positions r depth taken)
    (ahead : Ahead r depth (next :: depths)) {m : Member} (inside : m ∈ below h taken)
    (level : m.depth = next) : Visible h r.tree positions m := by
  obtain ⟨owned, _⟩ := known.owned_below sits inside
  obtain ⟨member, a, mem, above⟩ := inside
  refine ((known.visible a mem).opens (known.drilled a mem)).visible member above ?_ ?_
  · rw [sits.isIncluded_iff regular owned, level]
    exact ((ahead.mem_iff next).mp List.mem_cons_self).2.2
  · intro b atop under included
    have inH := regular.ancestors_mem member atop
    obtain ⟨ownedB, lowerB⟩ := known.owned_below sits ⟨inH, a, mem, under⟩
    have first := ahead.first_le lowerB (sits.depth_lt_levels regular.toSound inH)
      ((sits.isIncluded_iff regular ownedB).mp included)
    have high := Member.depth_lt_of_mem_ancestors atop
    omega

omit sits in
theorem under_iff (known : Taken h t positions r depth taken) (deeper : depth < next)
    {m : Member} (inside : m ∈ h.members) :
    under taken next m = true ↔ m ∈ below h taken ∧ m.depth = next := by
  have members : ∀ a ∈ taken, a ∈ h.members := fun a mem => (known.visible a mem).1
  simp only [under, Bool.and_eq_true, beq_iff_eq, MemberSet.containsAncestorOf, List.any_eq_true,
    MemberSet.contains, below, Set.mem_ofPred_eq, inside, true_and]
  rw [and_comm]
  refine and_congr_left fun level => ?_
  constructor
  · intro given
    obtain ⟨a, above, mem⟩ := given
    have listed := (regular.contains_iff members (regular.upward_mem inside above)).mp mem
    have low := known.depth a listed
    exact ⟨a, listed, Member.mem_ancestors_of_lt above (by omega)⟩
  · intro given
    obtain ⟨a, listed, above⟩ := given
    exact ⟨a, Member.mem_upward_of_ancestors above,
      (regular.contains_iff members (members a listed)).mpr listed⟩

/-- Without an included depth further down nothing more is visible. -/
theorem Taken.not_visible_below (known : Taken h r.tree positions r depth taken)
    (ahead : Ahead r depth []) {m : Member} (inside : m ∈ below h taken) :
    ¬ Visible h r.tree positions m := by
  intro visible
  obtain ⟨owned, deeper⟩ := known.owned_below sits inside
  have sign := (sits.isIncluded_iff regular owned).mp visible.2.1
  exact List.not_mem_nil ((ahead.mem_iff m.depth).mpr
    ⟨deeper, sits.depth_lt_levels regular.toSound inside.1, sign⟩)

variable (found : Expr.findHierarchy hs h.name = .ok h)

include found

/-- The next included depth: shown by a drill right below, listed further down. -/
theorem openLevel_grows (honest : Honest hs h r.tree positions p)
    (known : Taken h r.tree positions r depth taken) (ahead : Ahead r depth (next :: depths)) :
    Grows hs h r.tree positions {m | m ∈ below h taken ∧ m.depth = next} p
      { p with axis :=
        if next = depth + 1 then p.axis.drill (Expr.members taken)
        else p.axis.add (Expr.within (Expr.members taken) ((next - depth : Nat) : Int) .self) } := by
  have members : ∀ m ∈ taken, m ∈ h.members := fun m mem => (known.visible m mem).1
  obtain ⟨deeper, _, sign⟩ := (ahead.mem_iff next).mp List.mem_cons_self
  by_cases step : next = depth + 1
  · rw [if_pos step]
    refine honest.drill_grows regular (UnionTerms.term_members_of_regular regular members)
      (fun m mem => ⟨known.visible m mem, known.drilled m mem⟩) (fun d mem c inside link => ?_)
      fun m inside _ => ?_
    · have lower : c ∈ below h taken := ⟨inside, d, mem, Member.parent_mem_ancestors link⟩
      rw [sits.isIncluded_iff regular (known.owned_below sits lower).1, Member.depth_of_parent? link,
        known.depth d mem, ← step]
      exact sign
    · obtain ⟨⟨_, a, mem, above⟩, level⟩ := inside
      refine ⟨a, mem, Member.parent?_eq_some_iff.mpr ⟨Member.mem_upward_of_ancestors above, ?_⟩⟩
      rw [level, known.depth a mem, step]
  · rw [if_neg step]
    have listed : (Expr.members taken).Picks hs h {m | m ∈ taken} :=
      Expr.picks_members regular members
    have picks := Expr.picks_within regular found listed (next - depth) .self
    refine honest.add regular (picks.term rfl) (fun m inside => ?_) fun m inside _ => ?_
    · obtain ⟨member, a, mem, above, distance⟩ := inside
      have low := known.depth a mem
      have level : m.depth = next := by
        simp only [Reach.accepts, beq_iff_eq] at distance
        omega
      have higher := Member.mem_ancestors_of_lt above (by omega)
      exact known.visible_below regular sits ahead ⟨member, a, mem, higher⟩ level
    · obtain ⟨⟨member, a, mem, above⟩, level⟩ := inside
      refine ⟨member, a, mem, Member.mem_upward_of_ancestors above, ?_⟩
      simp only [Reach.accepts, beq_iff_eq]
      rw [level, known.depth a mem]

omit found in
theorem Taken.onward (known : Taken h r.tree positions r depth taken)
    (ahead : Ahead r depth (next :: depths)) {pool : Pool} (recorded : ∀ m ∈ pool, m ∈ positions)
    (inside : ∀ m ∈ pool, m ∈ h.members) :
    Taken h r.tree positions r next (pool.filter (under taken next)) ∧
      below h (pool.filter (under taken next)) ⊆ {m | m ∈ below h taken ∧ next < m.depth} := by
  have deeper := ((ahead.mem_iff next).mp List.mem_cons_self).1
  have passed : ∀ m ∈ pool.filter (under taken next), m ∈ below h taken ∧ m.depth = next := by
    intro m mem
    obtain ⟨mem, test⟩ := List.mem_filter.mp mem
    exact (under_iff regular known deeper (inside m mem)).mp test
  refine ⟨⟨fun m mem => (known.owned_below sits (passed m mem).1).1,
    fun m mem => (passed m mem).2, fun m mem => ?_, fun m mem => ?_⟩, ?_⟩
  · exact known.visible_below regular sits ahead (passed m mem).1 (passed m mem).2
  · exact recorded m (List.mem_filter.mp mem).1
  · intro m given
    obtain ⟨member, a, mem, above⟩ := given
    obtain ⟨⟨_, b, mem', above'⟩, level⟩ := passed a mem
    refine ⟨⟨member, b, mem', ?_⟩, level ▸ Member.depth_lt_of_mem_ancestors above⟩
    exact Member.mem_ancestors_trans (Member.mem_upward_of_ancestors above') above

omit found in
/-- What is visible below drilled members lies at the next included depth or below one
that is drilled there. -/
theorem Taken.visible_onward (known : Taken h r.tree positions r depth taken)
    (ahead : Ahead r depth (next :: depths)) {pool : Pool}
    (free : ∀ m ∈ below h taken, m ∈ positions → m ∈ pool) {m : Member}
    (inside : m ∈ below h taken) (visible : Visible h r.tree positions m) :
    m.depth = next ∨ m ∈ below h (pool.filter (under taken next)) := by
  have deeper := ((ahead.mem_iff next).mp List.mem_cons_self).1
  obtain ⟨owned, low⟩ := known.owned_below sits inside
  have first := ahead.first_le low (sits.depth_lt_levels regular.toSound inside.1)
    ((sits.isIncluded_iff regular owned).mp visible.2.1)
  refine (Nat.lt_or_eq_of_le first).elim (fun strict => Or.inr ?_) fun same => Or.inl same.symm
  -- the member in between at the next depth is visible itself, so it has to be drilled
  obtain ⟨b, above, level⟩ := Member.exists_mem_upward_of_depth first
  have higher := Member.mem_ancestors_of_lt above (by omega)
  obtain ⟨_, a, mem, atop⟩ := inside
  have between : b ∈ below h taken :=
    ⟨regular.ancestors_mem visible.1 higher, a, mem, Member.mem_ancestors_of_lt
      (Member.mem_upward_of_depth_le (Member.mem_upward_of_ancestors atop) above
        (by rw [known.depth a mem]; omega)) (by rw [known.depth a mem]; omega)⟩
  have shownB := known.visible_below regular sits ahead between level
  have drilled := visible.2.2 b higher shownB.2.1
  refine ⟨visible.1, b, List.mem_filter.mpr ⟨free b between drilled, ?_⟩, higher⟩
  exact (under_iff regular known deeper shownB.1).mpr ⟨between, level⟩

theorem openDepths_grows (honest : Honest hs h r.tree positions p)
    (recorded : ∀ m ∈ positions, m ∈ h.members) (known : Taken h r.tree positions r depth taken)
    (ahead : Ahead r depth depths) (free : Unclaimed positions (below h taken) p) :
    Grows hs h r.tree positions (below h taken) p (openDepths taken depth depths p) := by
  induction depths generalizing taken depth p with
  | nil =>
    exact .refl honest fun m member => known.not_visible_below regular sits ahead member
  | cons next depths ih =>
    rw [openDepths]
    split
    · rename_i empty
      rw [List.isEmpty_iff.mp empty]
      exact .refl honest fun m member => absurd member below_nil
    · have deeper := ((ahead.mem_iff next).mp List.mem_cons_self).1
      have inPool : ∀ m ∈ p.pool, m ∈ h.members := fun m mem => recorded m (honest.pool m mem)
      have shown := openLevel_grows regular sits found honest known ahead
      generalize (if next = depth + 1 then p.axis.drill (Expr.members taken)
        else p.axis.add (Expr.within (Expr.members taken) ((next - depth : Nat) : Int) .self))
        = axis at shown ⊢
      have claimed := shown.honest.takeWhere (under taken next)
        (A := {m | m ∈ below h taken ∧ m.depth = next})
        (fun m mem => (under_iff regular known deeper (inPool m mem)).mp) shown.covers
      obtain ⟨onward, lower⟩ := known.onward regular sits ahead honest.pool inPool
      have upToNext := shown.trans claimed
      rw [Set.union_self] at upToNext
      have rest := ih upToNext.honest onward ahead.tail (upToNext.unclaimed
        (fun m inside => free m (lower inside).1)
        fun m inside same => Nat.ne_of_gt (lower inside).2 same.2)
      refine (upToNext.trans rest).mono ?_ fun m inside visible outside => absurd ?_ outside
      · intro m given
        rcases given with first | second
        · exact first.1
        · exact (lower second).1
      · exact (known.visible_onward regular sits ahead free inside visible).imp_left
          fun level => ⟨inside, level⟩

end

end CubeAxis.Collapsed
