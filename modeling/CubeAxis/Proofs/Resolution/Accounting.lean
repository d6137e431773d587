import CubeAxis.Proofs.Resolution.Collapsed.Claims
import CubeAxis.Proofs.Resolution.Expanded.Claims
import CubeAxis.Proofs.Resolution.Reveal

namespace CubeAxis.Mode

variable {h : Hierarchy} {t : SelectionTree} {positions : List Member}

/-- Every recorded position is accounted for. A collapsed hierarchy leaves, in order, those that
are not visible. An expanded one closes each visible one once, and leaves none of these. -/
theorem resolve_accounting (sound : h.Sound) (names : (h.members.map Member.uniqueName).Nodup)
    (levels : (h.levels.map Level.name).Nodup) (reached : t.Reached h) (once : positions.Nodup)
    (recorded : ∀ m ∈ positions, m ∈ h.members) :
    (collapsed.resolve t h.levels positions).2 =
        positions.filter (fun m => !collapsed.isVisible t positions m) ∧
      (expanded.resolve t h.levels positions).1.undrilled.Perm
        (positions.filter (expanded.isVisible t positions)) ∧
      (∀ m ∈ positions, expanded.isVisible t positions m = true →
        m ∉ (expanded.resolve t h.levels positions).2) ∧
      (expanded.resolve t h.levels positions).2.Sublist positions := by
  have regular : h.Regular := ⟨sound, Hierarchy.eq_of_nodup_uniqueNames names⟩
  have hung := reached.hung regular
  exact ⟨Collapsed.resolve_pool regular recorded once (regular.layered levels) hung,
    Expanded.resolve_account regular recorded once hung⟩

/-- The excluded quarter is never visible, so a collapsed hierarchy leaves it. In an expanded one
the closed year hides the month. -/
theorem resolve_accounting_quarterly :
    (collapsed.resolve .skipping Hierarchy.quarterly.levels [.firstMonth, .quarter, .year]).2 =
        [.quarter] ∧
      (expanded.resolve .skipping Hierarchy.quarterly.levels
        [.firstMonth, .quarter, .year]).1.undrilled = [.year] ∧
      .year ∉ (expanded.resolve .skipping Hierarchy.quarterly.levels
        [.firstMonth, .quarter, .year]).2 ∧
      (expanded.resolve .skipping Hierarchy.quarterly.levels
        [.firstMonth, .quarter, .year]).2.Sublist [.firstMonth, .quarter, .year] := by
  have recorded : ∀ m ∈ [Member.firstMonth, .quarter, .year], m ∈ Hierarchy.quarterly.members := by
    simp [Hierarchy.members_quarterly]
  obtain ⟨left, closed, gone, order⟩ := resolve_accounting Hierarchy.quarterly_built.sound
    (by decide) (by decide) SelectionTree.skipping_reached
    (.of_map Member.uniqueName (by decide)) recorded
  exact ⟨left, List.perm_singleton.mp closed, gone .year (by simp) rfl, order⟩

end CubeAxis.Mode
