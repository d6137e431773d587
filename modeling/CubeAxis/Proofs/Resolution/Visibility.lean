import CubeAxis.Proofs.Hierarchy
import CubeAxis.Resolution.Mode

namespace CubeAxis

variable {h : Hierarchy} {t : SelectionTree} {positions : List Member}

namespace Collapsed

/-- The member is included and every included member above it is drilled. -/
def Visible (h : Hierarchy) (t : SelectionTree) (positions : List Member) (m : Member) : Prop :=
  m ∈ h.members ∧ t.isIncluded m = true ∧
    ∀ a ∈ m.ancestors, t.isIncluded a = true → a ∈ positions

/-- Every included member from here up is drilled, so that included children are shown. -/
def Open (t : SelectionTree) (positions : List Member) (m : Member) : Prop :=
  ∀ a ∈ m.upward, t.isIncluded a = true → a ∈ positions

theorem isVisible_iff (regular : h.Regular) (known : ∀ a ∈ positions, a ∈ h.members) {m : Member}
    (inside : m ∈ h.members) :
    Mode.collapsed.isVisible t positions m = true ↔ Visible h t positions m := by
  simp only [Mode.isVisible, Mode.opens, Bool.and_eq_true, List.all_eq_true, List.mem_filter,
    and_imp, Visible, inside, true_and]
  refine and_congr_right fun _ => forall₃_congr fun a above _ => ?_
  exact regular.contains_iff known (regular.ancestors_mem inside above)

namespace Visible

variable {m x : Member}

theorem opens (visible : Visible h t positions m) (drilled : m ∈ positions) : Open t positions m := by
  intro a above sign
  rcases Member.mem_upward_iff.mp above with rfl | higher
  · exact drilled
  · exact visible.2.2 a higher sign

end Visible

/-- Below an open parent a member is open if it is drilled or does not count. -/
theorem open_of_parent {m : Member} (above : ∀ k, m.parent? = some k → Open t positions k)
    (drilled : t.isIncluded m = true → m ∈ positions) : Open t positions m :=
  Member.forall_mem_upward drilled above

/-- Below an open member, what lies in between has to be drilled. -/
theorem Open.visible {m x : Member} (opened : Open t positions m) (inside : x ∈ h.members)
    (below : m ∈ x.ancestors) (included : t.isIncluded x = true)
    (between : ∀ a ∈ x.ancestors, m ∈ a.ancestors → t.isIncluded a = true → a ∈ positions) :
    Visible h t positions x := by
  refine ⟨inside, included, fun a above sign => ?_⟩
  by_cases order : a.depth ≤ m.depth
  · exact opened a (Member.mem_upward_of_depth_le (Member.mem_upward_of_ancestors above)
      (Member.mem_upward_of_ancestors below) order) sign
  · have lower := Member.mem_upward_of_depth_le (Member.mem_upward_of_ancestors below)
      (Member.mem_upward_of_ancestors above) (by omega)
    exact between a above (Member.mem_ancestors_of_lt lower (by omega)) sign

end Collapsed

namespace Expanded

/-- The member is included and no included member above it is closed. -/
def Visible (h : Hierarchy) (t : SelectionTree) (positions : List Member) (m : Member) : Prop :=
  m ∈ h.members ∧ t.isIncluded m = true ∧
    ∀ a ∈ m.ancestors, t.isIncluded a = true → a ∉ positions

theorem isVisible_iff (regular : h.Regular) (known : ∀ a ∈ positions, a ∈ h.members) {m : Member}
    (inside : m ∈ h.members) :
    Mode.expanded.isVisible t positions m = true ↔ Visible h t positions m := by
  simp only [Mode.isVisible, Mode.opens, Bool.and_eq_true, Bool.not_eq_true', ← Bool.not_eq_true,
    List.any_eq_true, List.mem_filter, not_exists, not_and, and_imp, Visible, inside, true_and]
  refine and_congr_right fun _ => forall₃_congr fun a above _ => ?_
  exact not_congr (regular.contains_iff known (regular.ancestors_mem inside above))

/-- No included member from here up is recorded, so that included members below are shown. -/
def Unclosed (t : SelectionTree) (positions : List Member) (m : Member) : Prop :=
  ∀ a ∈ m.upward, t.isIncluded a = true → a ∉ positions

theorem unclosed_of_parent {m : Member} (above : ∀ k, m.parent? = some k → Unclosed t positions k)
    (free : t.isIncluded m = true → m ∉ positions) : Unclosed t positions m :=
  Member.forall_mem_upward free above

theorem visible_of_unclosed {m : Member} (inside : m ∈ h.members) (sign : t.isIncluded m = true)
    (above : ∀ k, m.parent? = some k → Unclosed t positions k) : Visible h t positions m := by
  refine ⟨inside, sign, fun a higher => ?_⟩
  obtain ⟨k, link, atop⟩ := Member.exists_parent_of_mem_ancestors higher
  exact above k link a atop

end Expanded
end CubeAxis
