import CubeAxis.Proofs.Resolution.Collapsed.Walk
import CubeAxis.Proofs.Resolution.Expanded.Levels
import CubeAxis.Resolution.Dimension

namespace CubeAxis

/-- What a mode asks of the names of levels. An expanded hierarchy shows whole levels
by name, a collapsed one no more than the outermost included level. -/
def Mode.Tells (mode : Mode) (h : Hierarchy) : Prop :=
  match mode with
  | .collapsed => h.Layered
  | .expanded => ∀ l ∈ h.levels, l.Exact h

theorem Hierarchy.Sound.tells {h : Hierarchy} (sound : h.Sound)
    (names : (h.levels.map Level.name).Nodup) (mode : Mode) : mode.Tells h := by
  cases mode with
  | collapsed => exact sound.layered names
  | expanded => exact sound.exact names

theorem Expr.findHierarchy_singleton (h : Hierarchy) : findHierarchy [h] h.name = .ok h :=
  findHierarchy_of_nodup (by simp) (List.mem_singleton_self h)

/-- The first year and all below it, but no month. -/
def SelectionTree.yearly : SelectionTree :=
  (SelectionTree.empty.apply (.onMember .included .descendants .year)).apply
    (.onLevel .excluded ⟨"Time", "Month", 1⟩)

theorem SelectionTree.yearly_reached : yearly.Reached Hierarchy.calendar :=
  .apply _ (.apply _ .empty Hierarchy.year_mem_calendar) (List.mem_cons_of_mem _ List.mem_cons_self)

namespace AxisDimension

variable {hs : List Hierarchy} {h : Hierarchy} {d : AxisDimension} {positions : List Member}

/-- A dimension evaluates, in either mode, to the members that are visible. -/
theorem resolve_shown (regular : h.Regular) (levels : d.levels = h.levels) (tells : d.mode.Tells h)
    (found : Expr.findHierarchy hs h.name = .ok h) (hung : d.selection.overrides.Hung h none)
    (recorded : ∀ m ∈ positions, m ∈ h.members) :
    (d.resolve positions).Evaluable hs h ∧ ∀ m, m ∈ (d.resolve positions).shown hs h ↔
      m ∈ h.members ∧ d.isVisible positions m = true := by
  obtain ⟨selection, _, mode⟩ := d
  subst levels
  cases mode with
  | collapsed =>
    obtain ⟨fine, shown⟩ := Collapsed.resolve_shown regular tells found hung recorded
    refine ⟨fine, fun m => (shown m).trans ⟨fun visible => ⟨visible.1, ?_⟩, ?_⟩⟩
    · exact (Collapsed.isVisible_iff regular recorded visible.1).mpr visible
    · exact fun ⟨inside, visible⟩ => (Collapsed.isVisible_iff regular recorded inside).mp visible
  | expanded =>
    obtain ⟨fine, shown⟩ := Expanded.resolve_shown regular tells found hung recorded
    refine ⟨fine, fun m => (shown m).trans ⟨fun visible => ⟨visible.1, ?_⟩, ?_⟩⟩
    · exact (Expanded.isVisible_iff regular recorded visible.1).mpr visible
    · exact fun ⟨inside, visible⟩ => (Expanded.isVisible_iff regular recorded inside).mp visible

theorem evaluate_resolve (regular : h.Regular) (levels : d.levels = h.levels)
    (tells : d.mode.Tells h) (found : Expr.findHierarchy hs h.name = .ok h)
    (hung : d.selection.overrides.Hung h none) (recorded : ∀ m ∈ positions, m ∈ h.members) :
    ∃ ms : List Member, (d.resolve positions).expr.evaluate hs = .ok (ms.map ([·])) ∧
      ∀ m, m ∈ ms ↔ m ∈ h.members ∧ d.isVisible positions m = true := by
  obtain ⟨fine, shown⟩ := resolve_shown regular levels tells found hung recorded
  obtain ⟨ms, run, mem⟩ := fine.evaluate_expr regular found
  exact ⟨ms, run, fun m => (mem m).trans (shown m)⟩

/-- A collapsed hierarchy denotes the included members whose included ancestors are
all drilled. -/
theorem collapsed_exact (built : h.Built) (members : (h.members.map Member.uniqueName).Nodup)
    (levels : (h.levels.map Level.name).Nodup) {t : SelectionTree} (reached : t.Reached h)
    (recorded : ∀ m ∈ positions, m ∈ h.members) :
    ∃ ms : List Member,
      ((⟨t, h.levels, .collapsed⟩ : AxisDimension).resolve positions).expr.evaluate [h] =
        .ok (ms.map ([·])) ∧
      ∀ m, m ∈ ms ↔ m ∈ h.members ∧ Mode.collapsed.isVisible t positions m = true := by
  have regular := built.regular members
  exact evaluate_resolve (d := ⟨t, h.levels, .collapsed⟩) regular rfl (regular.layered levels)
    (Expr.findHierarchy_singleton h) (reached.hung regular) recorded

theorem collapsed_exact_calendar :
    ∃ ms : List Member,
      ((⟨.yearly, Hierarchy.calendar.levels, .collapsed⟩ : AxisDimension).resolve
          [.year]).expr.evaluate [.calendar] = .ok (ms.map ([·])) ∧
        ∀ m, m ∈ ms ↔ m ∈ Hierarchy.calendar.members ∧
          Mode.collapsed.isVisible .yearly [.year] m = true :=
  collapsed_exact Hierarchy.calendar_built (by decide) (by decide) SelectionTree.yearly_reached
    fun m mem => List.mem_singleton.mp mem ▸ Hierarchy.year_mem_calendar

/-- An expanded hierarchy denotes the included members without a closed included
ancestor. -/
theorem expanded_exact (built : h.Built) (members : (h.members.map Member.uniqueName).Nodup)
    (levels : (h.levels.map Level.name).Nodup) {t : SelectionTree} (reached : t.Reached h)
    (recorded : ∀ m ∈ positions, m ∈ h.members) :
    ∃ ms : List Member,
      ((⟨t, h.levels, .expanded⟩ : AxisDimension).resolve positions).expr.evaluate [h] =
        .ok (ms.map ([·])) ∧
      ∀ m, m ∈ ms ↔ m ∈ h.members ∧ Mode.expanded.isVisible t positions m = true := by
  have regular := built.regular members
  exact evaluate_resolve (d := ⟨t, h.levels, .expanded⟩) regular rfl (regular.exact levels)
    (Expr.findHierarchy_singleton h) (reached.hung regular) recorded

theorem expanded_exact_calendar :
    ∃ ms : List Member,
      ((⟨.yearly, Hierarchy.calendar.levels, .expanded⟩ : AxisDimension).resolve
          [.year]).expr.evaluate [.calendar] = .ok (ms.map ([·])) ∧
        ∀ m, m ∈ ms ↔ m ∈ Hierarchy.calendar.members ∧
          Mode.expanded.isVisible .yearly [.year] m = true :=
  expanded_exact Hierarchy.calendar_built (by decide) (by decide) SelectionTree.yearly_reached
    fun m mem => List.mem_singleton.mp mem ▸ Hierarchy.year_mem_calendar

end AxisDimension
end CubeAxis
