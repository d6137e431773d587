import CubeAxis.Proofs.Resolution.Expanded.Walk
import CubeAxis.Proofs.Resolution.Visibility

namespace CubeAxis.Expanded

variable {hs : List Hierarchy} {h : Hierarchy} {t : SelectionTree} {positions : List Member}
  {p q : Progress}

/-- The members on levels of a sign that are not cut out of the set of their level. -/
def leveled (h : Hierarchy) (t : SelectionTree) (p : Progress) (ls : List (Level × Nat)) (s : Sign) :
    Set Member :=
  {x | x ∈ h.members ∧ ¬ Cut p x ∧ ∃ l ∈ ls, x.depth = l.2 ∧ t.levelSign l.1 = some s}

section

variable (regular : h.Regular) (found : Expr.findHierarchy hs h.name = .ok h)

include regular found

theorem showLevel_adds (known : ∀ c ∈ p.cutOuts, c.2 ∈ h.members) {level : Level} {depth : Nat}
    (atDepth : h.levels[depth]? = some level) (exact : level.Exact h) :
    Adds hs h p (showLevel t p level depth) (leveled h t p [(level, depth)] .included) ∅
      (leveled h t p [(level, depth)] .excluded) [] := by
  obtain ⟨number, owner⟩ := regular.level_at depth level atDepth
  have mem_cut : ∀ c, c ∈ p.cutOuts.filterMap (fun c => if c.1 = depth then some c.2 else none) ↔
      (depth, c) ∈ p.cutOuts := by
    intro c
    simp only [List.mem_filterMap, Option.ite_none_right_eq_some, Option.some.injEq, Prod.exists]
    constructor
    · intro given
      obtain ⟨d, k, mem, rfl, rfl⟩ := given
      exact mem
    · exact fun mem => ⟨depth, c, mem, rfl, rfl⟩
  generalize shape : p.cutOuts.filterMap (fun c => if c.1 = depth then some c.2 else none) = cut
    at mem_cut
  have inside : ∀ c ∈ cut, c ∈ h.members := fun c mem => known _ ((mem_cut c).mp mem)
  have fits : (MemberSet.level level (distinct cut)).Fits h :=
    ⟨owner, exact, fun c mem => inside c (mem_of_mem_distinct mem)⟩
  have term : (MemberSet.level level (distinct cut)).expr.Term hs (lone h.all) _ :=
    MemberSet.term_expr regular found fits
  have set : ∀ x, x ∈ h.members ∧ (MemberSet.level level (distinct cut)).contains x = true ↔
      x ∈ h.members ∧ ¬ Cut p x ∧ x.depth = depth := by
    intro x
    refine and_congr_right fun member => ?_
    rw [MemberSet.contains_level regular fits member, number, and_comm]
    refine and_congr_left fun level => ?_
    simp only [regular.mem_distinct inside, mem_cut, Cut, level, not_exists, not_and]
  unfold showLevel
  rw [shape]
  dsimp only
  split
  · rename_i unsigned
    refine (Adds.refl p).congr (Set.ext fun x => ?_) rfl (Set.ext fun x => ?_) rfl <;>
      simp [leveled, unsigned]
  · rename_i sign
    refine (Adds.add regular term).congr (Set.ext fun x => ?_) rfl (Set.ext fun x => ?_) rfl
    · rw [Set.mem_ofPred_eq, set]
      simp [leveled, sign]
    · simp [leveled, sign]
  · rename_i sign
    refine (Adds.exclude regular term).congr (Set.ext fun x => ?_) rfl (Set.ext fun x => ?_) rfl
    · simp [leveled, sign]
    · rw [Set.mem_ofPred_eq, set]
      simp [leveled, sign]

theorem foldl_showLevel_adds (ls : List (Level × Nat)) (p : Progress)
    (known : ∀ c ∈ p.cutOuts, c.2 ∈ h.members)
    (levels : ∀ l ∈ ls, h.levels[l.2]? = some l.1 ∧ l.1.Exact h) :
    Adds hs h p (ls.foldl (fun p l => showLevel t p l.1 l.2) p) (leveled h t p ls .included) ∅
      (leveled h t p ls .excluded) [] := by
  induction ls generalizing p with
  | nil =>
    refine (Adds.refl p).congr (Set.ext fun x => ?_) rfl (Set.ext fun x => ?_) rfl <;>
      simp [leveled]
  | cons l ls ih =>
    obtain ⟨atDepth, exact⟩ := levels l List.mem_cons_self
    have first : Adds hs h p (showLevel t p l.1 l.2) _ ∅ _ [] :=
      showLevel_adds regular found known atDepth exact
    have same : (showLevel t p l.1 l.2).cutOuts = p.cutOuts := by rw [first.cutOuts, List.append_nil]
    have rest := ih (showLevel t p l.1 l.2) (same ▸ known)
      fun k mem => levels k (List.mem_cons_of_mem _ mem)
    have cut : ∀ x, Cut (showLevel t p l.1 l.2) x ↔ Cut p x := by
      intro x
      simp only [Cut, same]
    have split : ∀ s, leveled h t p (l :: ls) s =
        leveled h t p [l] s ∪ leveled h t (showLevel t p l.1 l.2) ls s := by
      intro s
      ext x
      simp only [leveled, cut, Set.mem_union, Set.mem_ofPred_eq, List.mem_cons, List.not_mem_nil,
        or_false, exists_eq_or_imp, exists_eq_left, ← and_or_left]
    exact (first.trans rest).congr (split .included) (Set.union_empty _).symm (split .excluded) rfl

/-- The level-wide sets, all of them together. -/
theorem showLevels_adds (known : ∀ c ∈ p.cutOuts, c.2 ∈ h.members)
    (exact : ∀ l ∈ h.levels, l.Exact h) :
    Adds hs h p (showLevels t h.levels p)
      {x | x ∈ h.members ∧ ¬ Cut p x ∧ t.levelSignAt h.levels x.depth = some .included} ∅
      {x | x ∈ h.members ∧ ¬ Cut p x ∧ t.levelSignAt h.levels x.depth = some .excluded} [] := by
  have adds : Adds hs h p (showLevels t h.levels p) _ ∅ _ [] :=
    foldl_showLevel_adds regular found h.levels.zipIdx p known fun l mem => by
      have atDepth := List.mem_zipIdx_iff_getElem?.mp mem
      exact ⟨atDepth, exact l.1 (List.mem_of_getElem? atDepth)⟩
  have signs : ∀ s, leveled h t p h.levels.zipIdx s =
      {x | x ∈ h.members ∧ ¬ Cut p x ∧ t.levelSignAt h.levels x.depth = some s} := by
    intro s
    ext x
    simp only [leveled, Set.mem_ofPred_eq]
    refine and_congr_right fun inside => and_congr_right fun _ => ?_
    rw [SelectionTree.levelSignAt, regular.member_level x inside]
    constructor
    · intro given
      obtain ⟨l, mem, level, sign⟩ := given
      have atDepth := List.mem_zipIdx_iff_getElem?.mp mem
      rw [← level, regular.member_level x inside] at atDepth
      rwa [← Option.some.inj atDepth] at sign
    · intro sign
      exact ⟨(x.level, x.depth), List.mem_zipIdx_iff_getElem?.mpr (regular.member_level x inside),
        rfl, sign⟩
  exact adds.congr (signs .included).symm rfl (signs .excluded).symm rfl

end

theorem Edit.showLevel (t : SelectionTree) (level : Level) (depth : Nat) :
    Edit (showLevel t · level depth) := by
  let set (cutOuts : List (Nat × Member)) : Expr :=
    (MemberSet.level level (distinct (cutOuts.filterMap fun c =>
      if c.1 = depth then some c.2 else Option.none))).expr
  unfold Expanded.showLevel
  rcases t.levelSign level with _ | _ | _
  · exact .none
  · exact .add set
  · exact .exclude set

theorem Edit.showLevels (t : SelectionTree) (levels : List Level) : Edit (showLevels t levels) := by
  have step (l : Level × Nat) : Edit (Expanded.showLevel t · l.1 l.2) := .showLevel t l.1 l.2
  exact Edit.foldl step levels.zipIdx

theorem Fine.start (t : SelectionTree) (positions : List Member) :
    Fine hs h t positions { pool := positions } where
  evaluable := .empty
  drills := rfl
  pool _ := id
  cutOuts c none := absurd none List.not_mem_nil
  undrills u mem := by
    rw [UnionTerms.shown_empty] at mem
    exact absurd mem (Set.notMem_empty u)

section

variable (regular : h.Regular) (recorded : ∀ x ∈ positions, x ∈ h.members)
  (hung : t.overrides.Hung h none)

include regular recorded hung

/-- Above all nodes nothing has to be shown outside of the level-wide sets. -/
theorem closeRoots_grows :
    Grows hs h t positions ∅ (Region.area h ⟨t, h.levels, t.rootSite⟩) { pool := positions }
        (closeRegion ⟨t, h.levels, t.rootSite⟩ { pool := positions }) ∧
      ∀ l ∈ t.overrides.labels, Ready hs h t .top .nothing l
        (closeRegion ⟨t, h.levels, t.rootSite⟩ { pool := positions }) := by
  have sits := SelectionTree.sits_root hung
  obtain ⟨U, adds, closed⟩ := closeRegion_adds (p := { pool := positions }) regular sits recorded
  generalize closeRegion ⟨t, h.levels, t.rootSite⟩ { pool := positions } = final at adds closed ⊢
  have roots : ∀ x, x ∉ final.axis.roots.shown hs := by
    intro x mem
    rw [adds.roots, Set.union_empty, UnionTerms.shown_empty] at mem
    exact Set.notMem_empty x mem
  have excluded : ∀ x, x ∉ final.axis.excluded.shown hs := by
    intro x mem
    rw [adds.excluded, Set.union_empty, UnionTerms.shown_empty] at mem
    exact Set.notMem_empty x mem
  have uncut : ∀ x, ¬ Cut final x := by
    intro x given
    obtain ⟨c, mem, _⟩ := given
    rw [adds.cutOuts] at mem
    exact List.not_mem_nil mem
  refine ⟨adds.grows (adds.fine (.start t positions) closed.fewer (fun c none => ?_) fun u mem => ?_)
    (Set.empty_subset _) (Set.empty_subset _) (fun d c none => absurd none List.not_mem_nil)
    (fun x outside mem => closed.kept x outside mem) (fun x owned => ⟨owned.1, Or.inr ?_⟩)
    (fun x owned sign known => ?_), fun l label => ?_⟩
  · exact absurd none List.not_mem_nil
  · obtain ⟨_, sign, mem⟩ := closed.owned u mem
    exact ⟨sign, mem⟩
  · have plain : ¬ t.isSpecial x = true := fun special =>
      Bool.noConfusion ((sits.isSpecial_of_mem_area regular owned).mp special).2
    refine ⟨fun _ => iff_of_false (uncut x) plain, fun reached => ?_, fun _ _ => excluded x⟩
    have unsigned := reached.resolve_right plain
    refine iff_of_false (fun shown => roots x shown.1) ?_
    rw [sits.isIncluded_iff regular owned, Region.signAt]
    have level : Region.levelSign ⟨t, h.levels, t.rootSite⟩ x.depth = none := unsigned
    rw [level]
    split <;> exact Bool.false_ne_true
  · rcases closed.covers x owned sign known with mem | ⟨u, mem, above⟩
    · exact Or.inl (adds.mem_undrills.mpr (Or.inr mem))
    · exact Or.inr ⟨u, adds.mem_undrills.mpr (Or.inr mem), above⟩
  · refine ⟨fun x _ => iff_of_false (roots x) ?_, fun x _ => excluded x,
      fun _ => iff_of_false (uncut l) Bool.false_ne_true, fun x _ _ => uncut x⟩
    rcases x.depth - l.depth with _ | _ | k <;> exact Sign.noConfusion

variable (found : Expr.findHierarchy hs h.name = .ok h)

include found

/-- The whole walk, from the closed members of the root region to the last node. -/
theorem visit_all :
    ∃ q, resolve t h.levels positions = showLevels t h.levels q ∧ Fine hs h t positions q ∧
      ∀ m ∈ h.members, (Hidden hs q m ∨ Right hs h t q m) ∧
        (t.isIncluded m = true → m ∈ positions → m ∈ q.axis.undrills.shown hs ∨ Hidden hs q m) := by
  obtain ⟨roots, ready⟩ : Grows hs h t positions _ _ _ _ ∧ _ :=
    closeRoots_grows regular recorded hung
  have nodes := visit_grows regular recorded found (SelectionTree.sits_root hung).stands roots.fine
    ready (roots.unclaimed (fun m _ => id) fun m => Region.not_mem_area_of_below _)
  have walk := roots.trans nodes fun m owned inside => Region.not_mem_area_of_below _ inside owned
  refine ⟨_, rfl, walk.fine, fun m inside => ⟨?_, ?_⟩⟩
  · exact (walk.right m (SelectionTree.mem_area_root inside)).2
  · exact walk.closes m (SelectionTree.mem_area_root inside)

end

/-- What the level-wide sets leave of a member that was dealt with. -/
theorem shown_iff_of_right (sound : h.Sound) {m : Member} (inside : m ∈ h.members)
    (right : Right hs h t p m)
    (levels : Adds hs h p q
      {x | x ∈ h.members ∧ ¬ Cut p x ∧ t.levelSignAt h.levels x.depth = some .included} ∅
      {x | x ∈ h.members ∧ ¬ Cut p x ∧ t.levelSignAt h.levels x.depth = some .excluded} []) :
    Shown hs q m ↔ t.isIncluded m = true := by
  have own : t.levelSignAt h.levels m.depth = t.levelSign m.level := by
    rw [SelectionTree.levelSignAt, sound.member_level m inside]
    rfl
  rw [Shown, levels.mem_roots, levels.mem_excluded]
  cases signed : t.levelSignAt h.levels m.depth with
  | none =>
    rw [← right.plain (Or.inl signed), Shown]
    simp [signed]
  | some s =>
    have cut := right.cut (by rw [signed]; rfl)
    by_cases special : t.isSpecial m = true
    · rw [← right.plain (Or.inr special), Shown]
      simp [cut.mpr special]
    · have uncut : ¬ Cut p m := fun yes => special (cut.mp yes)
      have plain := Bool.eq_false_iff.mpr special
      rw [SelectionTree.isIncluded_of_levelSign plain (own ▸ signed)]
      cases s with
      | included =>
        have free := right.leveled signed plain
        simp [inside, uncut, signed, free, Sign.isIncluded]
      | excluded => simp [inside, uncut, signed, Sign.isIncluded]

/-- An expanded hierarchy shows the included members without a closed included
member above them. -/
theorem resolve_shown (regular : h.Regular) (exact : ∀ l ∈ h.levels, l.Exact h)
    (found : Expr.findHierarchy hs h.name = .ok h) (hung : t.overrides.Hung h none)
    (recorded : ∀ x ∈ positions, x ∈ h.members) :
    (resolve t h.levels positions).axis.Evaluable hs h ∧
      ∀ m, m ∈ (resolve t h.levels positions).axis.shown hs h ↔ Visible h t positions m := by
  obtain ⟨q, shape, fine, walk⟩ := visit_all regular recorded hung found
  have levels := showLevels_adds (t := t) regular found fine.cutOuts exact
  rw [shape]
  generalize showLevels t h.levels q = final at levels ⊢
  have evaluable := levels.evaluable fine.evaluable
  have closed : final.axis.drills = {} := levels.drills.trans fine.drills
  have hides : ∀ m, m ∈ final.axis.hidden hs ↔ Hidden hs q m := by
    intro m
    simp only [AxisSet.hidden, Hidden, levels.undrills, Set.union_empty, Set.mem_ofPred_eq]
  refine ⟨evaluable, fun m => ?_⟩
  by_cases inside : m ∈ h.members
  · have shown : m ∈ final.axis.shown hs h ↔ Shown hs final m ∧ ¬ Hidden hs q m := by
      rw [AxisSet.shown, closed, UnionTerms.shown_empty, Set.mem_sdiff, Set.mem_union, hides]
      simp only [Set.mem_ofPred_eq, Hierarchy.opened_of_no_drills, Shown]
      tauto
    obtain ⟨state, closes⟩ := walk m inside
    rw [shown]
    by_cases hidden : Hidden hs q m
    · obtain ⟨u, closedU, above⟩ := hidden
      obtain ⟨included, drilled⟩ := fine.undrills u closedU
      exact iff_of_false (fun both => both.2 ⟨u, closedU, above⟩)
        fun visible => visible.2.2 u above included drilled
    · rw [shown_iff_of_right regular.toSound inside (state.resolve_left hidden) levels,
        and_iff_left hidden]
      refine ⟨fun included => ⟨inside, included, fun a above sign drilled => hidden ?_⟩,
        fun visible => visible.2.1⟩
      obtain ⟨_, closesA⟩ := walk a (regular.ancestors_mem inside above)
      rcases closesA sign drilled with closedA | ⟨u, closedU, atop⟩
      · exact ⟨a, closedA, above⟩
      · exact ⟨u, closedU, Member.mem_ancestors_trans (Member.mem_upward_of_ancestors atop) above⟩
  · exact iff_of_false (fun mem => inside (evaluable.shown_subset mem)) fun visible =>
      inside visible.1

end CubeAxis.Expanded
