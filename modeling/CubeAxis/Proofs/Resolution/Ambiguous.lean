import CubeAxis.Proofs.Resolution.Expanded.Additions
import CubeAxis.Proofs.Resolution.Plain
import CubeAxis.Resolution.Dimension

namespace CubeAxis

variable {hs : List Hierarchy} {h : Hierarchy} {t : SelectionTree}

theorem AxisSet.expr_addMembers (ms : List Member) :
    (AxisSet.addMembers {} ms).expr = Expr.members ms := by
  cases ms <;> rfl

theorem AxisSet.Evaluable.addMembers {ms : List Member} (inside : ∀ m ∈ ms, m ∈ h.members) :
    (AxisSet.addMembers {} ms).Evaluable hs h :=
  ⟨⟨fun m mem => singleton_mem_lone.mpr (inside m mem), fun _ mem => absurd mem List.not_mem_nil⟩,
    .empty, .empty, .empty⟩

namespace Collapsed

theorem openRegion_nil (r : Region) (frontier : MemberSet) (first : Nat) (a : AxisSet) :
    openRegion r frontier first ⟨[], a⟩ = ⟨[], a⟩ := by
  change openDepths [] first (r.includedDepths (first + 1)) ⟨[], a⟩ = _
  cases r.includedDepths (first + 1) <;> rfl

/-- An included level alone is where the region of the root starts. -/
theorem frontierLevel?_level {levels : List Level} {l : Level} {e : Nat}
    (listed : levels[e]? = some l)
    (signed : ∀ k, t.levelSign k = if l == k then some .included else none) :
    ∃ first k, frontierLevel? ⟨t, levels, t.rootSite⟩ = some (first, k) ∧ (l == k) = true ∧
      levels[first]? = some k := by
  have sign : ∀ d, ((⟨t, levels, t.rootSite⟩ : Region).signAt d).isIncluded =
      levels[d]?.any (l == ·) := by
    intro d
    have resolved : (⟨t, levels, t.rootSite⟩ : Region).signAt d =
        Inherited.top.default.withLevel (levels[d]?.bind t.levelSign) := by
      unfold Region.signAt
      split <;> rfl
    rw [resolved]
    cases levels[d]? with
    | none => rfl
    | some k =>
      rw [Option.bind_some, signed, Option.any_some]
      cases l == k <;> rfl
  have included : e ∈ (⟨t, levels, t.rootSite⟩ : Region).includedDepths 0 := by
    have bound := (List.getElem?_eq_some_iff.mp listed).1
    refine List.mem_filter.mpr ⟨List.mem_range'_1.mpr ⟨Nat.zero_le e, by simpa using bound⟩, ?_⟩
    rw [sign, listed, Option.any_some]
    exact BEq.rfl
  cases depths : (⟨t, levels, t.rootSite⟩ : Region).includedDepths 0 with
  | nil =>
    rw [depths] at included
    exact absurd included List.not_mem_nil
  | cons first rest =>
    have shown : first ∈ (⟨t, levels, t.rootSite⟩ : Region).includedDepths 0 := by
      rw [depths]
      exact List.mem_cons_self
    have start := (List.mem_filter.mp shown).2
    rw [sign, Option.any_eq_true] at start
    obtain ⟨k, there, named⟩ := start
    refine ⟨first, k, ?_, named, there⟩
    change (((⟨t, levels, t.rootSite⟩ : Region).includedDepths 0).head?.bind fun d =>
      levels[d]?.bind fun level => some (d, level)) = _
    rw [depths, List.head?_cons, Option.bind_some, there]
    rfl

end Collapsed

namespace Expanded

variable {p : Progress}

theorem showLevels_unsigned (unsigned : ∀ l, t.levelSign l = none) (levels : List Level)
    (p : Progress) : showLevels t levels p = p := by
  have fold : ∀ ls : List (Level × Nat), ls.foldl (fun p l => showLevel t p l.1 l.2) p = p := by
    intro ls
    induction ls with
    | nil => rfl
    | cons l ls ih =>
      have first : showLevel t p l.1 l.2 = p := by
        rw [showLevel, unsigned]
      rw [List.foldl_cons, first]
      exact ih
  exact fold levels.zipIdx

section

variable (regular : h.Regular) (found : Expr.findHierarchy hs h.name = .ok h)
  (quiet : ∀ l, t.levelSign l ≠ some .included)

include regular found quiet

/-- The set of an excluded level takes its members by name, and spares the noted ones
by depth. -/
theorem showLevel_excludes (known : ∀ c ∈ p.cutOuts, c.2 ∈ h.members) {l : Level} {d : Nat}
    (atDepth : h.levels[d]? = some l) : ∃ X, Adds hs h p (showLevel t p l d) ∅ ∅ X [] ∧
      (t.levelSign l = some .excluded →
        ∀ m ∈ h.members, (m.level == l) = true → m.depth ≠ d → m ∈ X) := by
  cases sign : t.levelSign l with
  | none =>
    refine ⟨∅, ?_, nofun⟩
    rw [showLevel, sign]
    exact .refl p
  | some s =>
    cases s with
    | included => exact absurd sign (quiet l)
    | excluded =>
      obtain ⟨number, owner⟩ := regular.level_at d l atDepth
      let cut := distinct (p.cutOuts.filterMap fun c => if c.1 = d then some c.2 else none)
      have inside : ∀ c ∈ cut, c ∈ h.members := by
        intro c mem
        obtain ⟨k, noted, same⟩ := List.mem_filterMap.mp (mem_of_mem_distinct mem)
        obtain ⟨_, same⟩ := Option.ite_none_right_eq_some.mp same
        cases same
        exact known k noted
      have spared := Expr.picks_descendantsAt regular found (Expr.picks_members regular inside) l
      have set := MemberSet.picks_without regular cut (Expr.picks_levelMembers found owner) spared
        (by intro none; simp [none])
      have term := set.term (by unfold MemberSet.without; split <;> rfl)
      refine ⟨{m | m ∈ h.members ∧ (m.level == l) = true} \ {x | x ∈ h.members ∧
        ∃ c ∈ {m | m ∈ cut}, c ∈ x.upward ∧ (x.depth == l.depth) = true}, ?_,
        fun _ m member named off => ⟨⟨member, named⟩, fun kept => off ?_⟩⟩
      · rw [showLevel, sign]
        exact .exclude regular term
      · obtain ⟨_, _, _, _, same⟩ := kept
        exact (beq_iff_eq.mp same).trans number

theorem foldl_showLevel_excludes (ls : List (Level × Nat)) (p : Progress)
    (known : ∀ c ∈ p.cutOuts, c.2 ∈ h.members) (levels : ∀ l ∈ ls, h.levels[l.2]? = some l.1) :
    ∃ X, Adds hs h p (ls.foldl (fun p l => showLevel t p l.1 l.2) p) ∅ ∅ X [] ∧
      ∀ l ∈ ls, t.levelSign l.1 = some .excluded →
        ∀ m ∈ h.members, (m.level == l.1) = true → m.depth ≠ l.2 → m ∈ X := by
  induction ls generalizing p with
  | nil => exact ⟨∅, .refl p, fun l mem => absurd mem List.not_mem_nil⟩
  | cons l ls ih =>
    obtain ⟨X, first, own⟩ :=
      showLevel_excludes regular found quiet known (levels l List.mem_cons_self)
    have same : (showLevel t p l.1 l.2).cutOuts = p.cutOuts := by rw [first.cutOuts, List.append_nil]
    obtain ⟨Y, rest, others⟩ := ih (showLevel t p l.1 l.2) (same ▸ known)
      fun k mem => levels k (List.mem_cons_of_mem _ mem)
    refine ⟨X ∪ Y, (first.trans rest).congr (Set.union_empty _).symm (Set.union_empty _).symm rfl rfl,
      fun k mem sign m inside named off => ?_⟩
    rcases List.mem_cons.mp mem with rfl | later
    · exact Or.inl (own sign m inside named off)
    · exact Or.inr (others k later sign m inside named off)

end

end Expanded

namespace AxisDimension

/-- Without level-wide signs a plain selection lists members, in either mode. -/
theorem fullExpr_plain {d : AxisDimension} (plain : d.selection.Plain h)
    (unsigned : ∀ l, d.selection.levelSign l = none) : ∃ ms, d.fullExpr = Expr.members ms ∧
      (∀ m ∈ ms, m ∈ h.members) ∧
      ∀ node ∈ d.selection.overrides.trees, node.2.1.state.member = some .included →
        node.1 ∈ ms := by
  obtain ⟨selection, levels, mode⟩ := d
  cases mode with
  | collapsed =>
    obtain ⟨ms, run, rest⟩ := Collapsed.resolve_plain levels plain
    refine ⟨ms, ?_, rest⟩
    rw [← AxisSet.expr_addMembers, ← run]
    rfl
  | expanded =>
    obtain ⟨ms, ks, run, known, all, _⟩ := Expanded.resolve_plain levels plain
    refine ⟨ms, ?_, known, all⟩
    rw [Expanded.showLevels_unsigned unsigned] at run
    rw [← AxisSet.expr_addMembers]
    exact congrArg (fun q => q.axis.expr) run

/-- Where a collapsed hierarchy includes a level alone, its set shows every member of
that name. -/
theorem fullExpr_collapsed_level {d : AxisDimension} (mode : d.mode = .collapsed)
    (bare : d.selection.overrides = .nil) {l : Level} {e : Nat} (listed : d.levels[e]? = some l)
    (signed : ∀ k, d.selection.levelSign k = if l == k then some .included else none) :
    ∃ k, (l == k) = true ∧ k ∈ d.levels ∧ d.fullExpr = Expr.levelMembers k := by
  obtain ⟨t, levels, _⟩ := d
  subst mode
  obtain ⟨first, k, frontier, named, there⟩ := Collapsed.frontierLevel?_level listed signed
  refine ⟨k, named, List.mem_of_getElem? there, ?_⟩
  have noNodes : distinct (Region.overridden ⟨t, levels, t.rootSite⟩) = [] := by
    rw [Region.overridden, SelectionTree.rootSite, bare]
    rfl
  have roots : Collapsed.showRoots t levels { pool := [] } =
      ⟨[], AxisSet.add {} (Expr.levelMembers k)⟩ := by
    rw [Collapsed.showRoots, frontier]
    dsimp only
    rw [noNodes]
    split <;> exact Collapsed.openRegion_nil ..
  change (Collapsed.resolve t levels []).axis.expr = _
  rw [Collapsed.resolve, roots, bare]
  rfl

/-- Where an expanded hierarchy excludes a level, a member of the same name elsewhere
goes too, whatever its own sign. -/
theorem fullExpr_expanded_level {d : AxisDimension} (regular : h.Regular)
    (found : Expr.findHierarchy hs h.name = .ok h) (mode : d.mode = .expanded)
    (levels : d.levels = h.levels) (plain : d.selection.Plain h) {l : Level} (listed : l ∈ h.levels)
    (sign : d.selection.levelSign l = some .excluded) {m : Member} (inside : m ∈ h.members)
    (named : (m.level == l) = true) (off : m.depth ≠ l.depth) :
    ∃ A, d.fullExpr.Term hs (lone h.all) (lone A) ∧ m ∉ A := by
  obtain ⟨selection, _, _⟩ := d
  subst levels mode
  obtain ⟨ms, ks, run, known, _, noted⟩ := Expanded.resolve_plain h.levels plain
  obtain ⟨X, adds, hides⟩ := Expanded.foldl_showLevel_excludes regular found plain.levels
    h.levels.zipIdx ⟨[], AxisSet.addMembers {} ms, ks⟩ (fun k mem => (noted k mem).1)
    fun k mem => List.mem_zipIdx_iff_getElem?.mp mem
  have fine := adds.evaluable (AxisSet.Evaluable.addMembers known)
  obtain ⟨e, atDepth⟩ := List.mem_iff_getElem?.mp listed
  have depth := (regular.level_at e l atDepth).1
  have gone : m ∈ X := hides (l, e) (List.mem_zipIdx_iff_getElem?.mpr atDepth) sign m inside named
    (depth ▸ off)
  have term := fine.term_expr regular found
  have shape : AxisDimension.fullExpr ⟨selection, h.levels, .expanded⟩ =
      (Expanded.showLevels selection h.levels ⟨[], AxisSet.addMembers {} ms, ks⟩).axis.expr :=
    congrArg (fun q => q.axis.expr) run
  rw [shape]
  refine ⟨_, term, fun shown => shown.2 (Or.inr ?_)⟩
  rw [adds.excluded]
  exact Or.inr gone

end AxisDimension
end CubeAxis
