import CubeAxis.Proofs.Resolution.Collapsed.Sifting
import CubeAxis.Proofs.Resolution.Exact
import CubeAxis.Proofs.Resolution.Expanded.Sifting

namespace CubeAxis

variable {h : Hierarchy} {t : SelectionTree} {positions : List Member} {keep : Member → Bool}

section

variable (regular : h.Regular) (recorded : ∀ m ∈ positions, m ∈ h.members)

include regular recorded

theorem Collapsed.keep_of_visible
    (through : ∀ m ∈ h.members, Mode.collapsed.isVisible t positions m = true → keep m = true)
    {m : Member} (visible : Collapsed.Visible h t positions m) : keep m = true :=
  through m visible.1 ((Collapsed.isVisible_iff regular recorded visible.1).mpr visible)

theorem Expanded.keep_of_visible
    (through : ∀ m ∈ h.members, Mode.expanded.isVisible t positions m = true → keep m = true)
    {m : Member} (visible : Expanded.Visible h t positions m) : keep m = true :=
  through m visible.1 ((Expanded.isVisible_iff regular recorded visible.1).mpr visible)

end

/-- The outermost of the recorded included members from one up is visible. -/
theorem Expanded.exists_visible_above (sound : h.Sound) {m : Member} (inside : m ∈ h.members)
    (closed : ∃ a ∈ m.upward, t.isIncluded a = true ∧ a ∈ positions) :
    ∃ a ∈ m.upward, a ∈ positions ∧ Expanded.Visible h t positions a := by
  induction m with
  | root =>
    obtain ⟨a, only, sign, drilled⟩ := closed
    obtain rfl := List.mem_singleton.mp only
    exact ⟨_, only, drilled, inside, sign, fun b none => absurd none List.not_mem_nil⟩
  | child p n l ih =>
    by_cases higher : ∃ a ∈ p.upward, t.isIncluded a = true ∧ a ∈ positions
    · obtain ⟨a, above, rest⟩ := ih (sound.ancestors_mem inside p.mem_upward_self) higher
      exact ⟨a, List.mem_cons_of_mem _ above, rest⟩
    · obtain ⟨a, above, sign, drilled⟩ := closed
      rcases List.mem_cons.mp above with rfl | strict
      · exact ⟨_, above, drilled, inside, sign,
          fun b atop signB drilledB => higher ⟨b, atop, signB, drilledB⟩⟩
      · exact absurd ⟨a, strict, sign, drilled⟩ higher

section

variable (sound : h.Sound) {m : Member}

include sound

/-- Above a visible member the included ones are visible, and so stay recorded. -/
theorem Collapsed.visible_filter_iff
    (through : ∀ a, Collapsed.Visible h t positions a → keep a = true) :
    Collapsed.Visible h t (positions.filter keep) m ↔ Collapsed.Visible h t positions m := by
  refine and_congr_right fun inside => and_congr_right fun _ => ⟨fun drilled a higher sign => ?_,
    fun drilled a higher sign => ?_⟩
  · exact List.mem_of_mem_filter (drilled a higher sign)
  · refine List.mem_filter.mpr ⟨drilled a higher sign, through a ?_⟩
    exact ⟨sound.ancestors_mem inside higher, sign, fun b atop => drilled b
      (Member.mem_ancestors_trans (Member.mem_upward_of_ancestors atop) higher)⟩

/-- Below a closed member there is a visible closed one above, which stays recorded. -/
theorem Expanded.visible_filter_iff
    (through : ∀ a, Expanded.Visible h t positions a → keep a = true) :
    Expanded.Visible h t (positions.filter keep) m ↔ Expanded.Visible h t positions m := by
  refine and_congr_right fun inside => and_congr_right fun _ =>
    ⟨fun undrilled a higher sign drilled => ?_, fun undrilled a higher sign drilled => ?_⟩
  · obtain ⟨b, atop, mem, top⟩ := Expanded.exists_visible_above sound
      (sound.ancestors_mem inside higher) ⟨a, a.mem_upward_self, sign, drilled⟩
    exact undrilled b (Member.mem_ancestors_trans atop higher) top.2.1
      (List.mem_filter.mpr ⟨mem, through b top⟩)
  · exact undrilled a higher sign (List.mem_of_mem_filter drilled)

end

namespace AxisDimension

variable {d : AxisDimension}

section

variable (regular : h.Regular) (recorded : ∀ m ∈ positions, m ∈ h.members)
  (visible : ∀ m ∈ h.members, d.isVisible positions m = true → keep m = true)

include regular recorded visible

/-- Any sieve that lets the visible positions through leaves the set as it is. -/
theorem resolve_filter (levels : d.levels = h.levels) (layered : h.Layered)
    (hung : d.selection.overrides.Hung h none) :
    d.resolve (positions.filter keep) = d.resolve positions := by
  obtain ⟨t, _, mode⟩ := d
  subst levels
  cases mode with
  | collapsed =>
    exact Collapsed.resolve_sifted regular recorded
      (fun _ => Collapsed.keep_of_visible regular recorded visible) layered hung
  | expanded =>
    exact Expanded.resolve_sifted regular recorded
      (fun _ => Expanded.keep_of_visible regular recorded visible) hung

/-- Nor does such a sieve change what is visible. -/
theorem isVisible_filter {m : Member} (inside : m ∈ h.members) :
    d.isVisible (positions.filter keep) m = d.isVisible positions m := by
  obtain ⟨t, levels, mode⟩ := d
  have kept : ∀ a ∈ positions.filter keep, a ∈ h.members :=
    fun a mem => recorded a (List.mem_of_mem_filter mem)
  rw [Bool.eq_iff_iff]
  cases mode with
  | collapsed =>
    have through := fun a => Collapsed.keep_of_visible regular recorded visible (m := a)
    exact (Collapsed.isVisible_iff regular kept inside).trans
      ((Collapsed.visible_filter_iff regular.toSound through).trans
        (Collapsed.isVisible_iff regular recorded inside).symm)
  | expanded =>
    have through := fun a => Expanded.keep_of_visible regular recorded visible (m := a)
    exact (Expanded.isVisible_iff regular kept inside).trans
      ((Expanded.visible_filter_iff regular.toSound through).trans
        (Expanded.isVisible_iff regular recorded inside).symm)

end

/-- Hidden positions leave no trace: without them the expression is the same. -/
theorem expr_without_hidden (built : h.Built) (members : (h.members.map Member.uniqueName).Nodup)
    (levels : (h.levels.map Level.name).Nodup) {t : SelectionTree} (reached : t.Reached h)
    (mode : Mode) (recorded : ∀ m ∈ positions, m ∈ h.members) :
    let d : AxisDimension := ⟨t, h.levels, mode⟩
    (d.resolve (positions.filter (d.isVisible positions))).expr = (d.resolve positions).expr := by
  intro d
  have regular := built.regular members
  rw [resolve_filter regular recorded (fun _ _ => id) rfl (regular.layered levels)
    (reached.hung regular)]

theorem expr_without_hidden_calendar :
    let d : AxisDimension := ⟨.yearly, Hierarchy.calendar.levels, .collapsed⟩
    [.january, .year].filter (d.isVisible [.january, .year]) = [.year] ∧
      (d.resolve [.year]).expr = (d.resolve [.january, .year]).expr := by
  have recorded : ∀ m ∈ [Member.january, .year], m ∈ Hierarchy.calendar.members := by
    simp [Hierarchy.january_mem_calendar, Hierarchy.year_mem_calendar]
  exact ⟨rfl, expr_without_hidden Hierarchy.calendar_built (by decide) (by decide)
    SelectionTree.yearly_reached .collapsed recorded⟩

end AxisDimension
end CubeAxis
