import CubeAxis.Proofs.Resolution.Exact

namespace CubeAxis

variable {h : Hierarchy} {t : SelectionTree} {positions : List Member} {m x : Member}

namespace Collapsed

/-- The member is included and below the other one, with no included member in between. -/
def Revealed (h : Hierarchy) (t : SelectionTree) (m x : Member) : Prop :=
  x ∈ h.members ∧ t.isIncluded x = true ∧ m ∈ x.ancestors ∧
    ∀ a ∈ x.ancestors, m ∈ a.ancestors → t.isIncluded a = false

theorem Visible.mono {more : List Member} (visible : Visible h t positions x)
    (drilled : positions ⊆ more) : Visible h t more x :=
  ⟨visible.1, visible.2.1, fun a above sign => drilled (visible.2.2 a above sign)⟩

/-- All that is included from a visible member up is drilled once the member is. -/
theorem Revealed.visible (below : Revealed h t m x) (atop : Visible h t positions m) :
    Visible h t (positions ++ [m]) x := by
  obtain ⟨inside, sign, under, between⟩ := below
  have opened : Open t (positions ++ [m]) m :=
    (atop.mono (List.subset_append_left _ _)).opens List.mem_concat_self
  refine opened.visible inside under sign fun a above lower included => ?_
  exact absurd included (Bool.eq_false_iff.mp (between a above lower))

theorem Revealed.not_visible (below : Revealed h t m x) (sign : t.isIncluded m = true)
    (fresh : m ∉ positions) : ¬ Visible h t positions x :=
  fun visible => fresh (visible.2.2 m below.2.2.1 sign)

/-- With nothing below it drilled before, a member shows below it only what has no
included member in between. -/
theorem Visible.revealed (visible : Visible h t (positions ++ [m]) x)
    (undrilled : ∀ a ∈ positions, m ∉ a.ancestors) (under : m ∈ x.ancestors) :
    Revealed h t m x := by
  refine ⟨visible.1, visible.2.1, under, fun a above lower => Bool.eq_false_iff.mpr fun sign => ?_⟩
  rcases List.mem_append.mp (visible.2.2 a above sign) with drilled | last
  · exact undrilled a drilled lower
  · obtain rfl := List.mem_singleton.mp last
    exact Member.not_mem_ancestors_of_upward a.mem_upward_self lower

theorem Visible.of_concat (visible : Visible h t (positions ++ [m]) x) (apart : m ∉ x.ancestors) :
    Visible h t positions x := by
  refine ⟨visible.1, visible.2.1, fun a above sign => ?_⟩
  rcases List.mem_append.mp (visible.2.2 a above sign) with drilled | last
  · exact drilled
  · exact absurd (List.mem_singleton.mp last ▸ above) apart

theorem Visible.concat_iff (visible : Visible h t positions m)
    (undrilled : ∀ a ∈ positions, m ∉ a.ancestors) :
    Visible h t (positions ++ [m]) x ↔ Visible h t positions x ∨ Revealed h t m x := by
  constructor
  · intro after
    by_cases under : m ∈ x.ancestors
    · exact Or.inr (after.revealed undrilled under)
    · exact Or.inl (after.of_concat under)
  · rintro (before | below)
    · exact before.mono (List.subset_append_left _ _)
    · exact below.visible visible

end Collapsed

/-- Closing an included member hides what is below it and nothing else. -/
theorem Expanded.visible_concat_iff (sign : t.isIncluded m = true) :
    Visible h t (positions ++ [m]) x ↔ Visible h t positions x ∧ m ∉ x.ancestors := by
  constructor
  · intro after
    refine ⟨⟨after.1, after.2.1, fun a above included closed => ?_⟩, fun under => ?_⟩
    · exact after.2.2 a above included (List.mem_append_left _ closed)
    · exact after.2.2 m under sign List.mem_concat_self
  · rintro ⟨before, apart⟩
    refine ⟨before.1, before.2.1, fun a above included closed => ?_⟩
    rcases List.mem_append.mp closed with earlier | last
    · exact before.2.2 a above included earlier
    · exact apart (List.mem_singleton.mp last ▸ above)

/-- A month in a quarter of the year. -/
def Hierarchy.quarterly : Hierarchy :=
  ((Hierarchy.new "Time" ["Year", "Quarter", "Month"]).addPath "2024/Q1/Jan").2

def Member.quarter : Member :=
  child year "Q1" "Quarter"

def Member.firstMonth : Member :=
  child quarter "Jan" "Month"

theorem Hierarchy.quarterly_built : quarterly.Built :=
  .addPath _ (.new _ _)

theorem Hierarchy.members_quarterly : quarterly.members = [.year, .quarter, .firstMonth] :=
  rfl

theorem Hierarchy.year_mem_quarterly : Member.year ∈ quarterly.members := by
  rw [members_quarterly]
  exact List.mem_cons_self

/-- The year and all below it, but no quarter. -/
def SelectionTree.skipping : SelectionTree :=
  (SelectionTree.empty.apply (.onMember .included .descendants .year)).apply
    (.onLevel .excluded ⟨"Time", "Quarter", 1⟩)

theorem SelectionTree.skipping_reached : skipping.Reached Hierarchy.quarterly :=
  .apply _ (.apply _ .empty Hierarchy.year_mem_quarterly)
    (List.mem_cons_of_mem _ List.mem_cons_self)

theorem Collapsed.revealed_firstMonth :
    Revealed .quarterly .skipping .year .firstMonth := by
  refine ⟨Hierarchy.members_quarterly ▸ by simp, rfl,
    List.mem_cons_of_mem _ List.mem_cons_self, fun a above lower => ?_⟩
  rcases List.mem_pair.mp above with rfl | rfl
  · rfl
  · exact absurd lower List.not_mem_nil

namespace AxisDimension

theorem denotes_collapsed (regular : h.Regular) (levels : (h.levels.map Level.name).Nodup)
    (reached : t.Reached h) (recorded : ∀ a ∈ positions, a ∈ h.members) :
    ((⟨t, h.levels, .collapsed⟩ : AxisDimension).resolve positions).expr.Denotes [h]
      (lone {x | Collapsed.Visible h t positions x}) := by
  have resolved := Collapsed.resolve_shown regular (regular.layered levels)
    (Expr.findHierarchy_singleton h) (reached.hung regular) recorded
  exact resolved.1.denotes_expr regular (Expr.findHierarchy_singleton h) resolved.2

theorem denotes_expanded (regular : h.Regular) (levels : (h.levels.map Level.name).Nodup)
    (reached : t.Reached h) (recorded : ∀ a ∈ positions, a ∈ h.members) :
    ((⟨t, h.levels, .expanded⟩ : AxisDimension).resolve positions).expr.Denotes [h]
      (lone {x | Expanded.Visible h t positions x}) := by
  have resolved := Expanded.resolve_shown regular (regular.exact levels)
    (Expr.findHierarchy_singleton h) (reached.hung regular) recorded
  exact resolved.1.denotes_expr regular (Expr.findHierarchy_singleton h) resolved.2

/-- Recording one more visible member adds the nearest included members below it to a
collapsed hierarchy, and takes all that is below it from an expanded one. -/
theorem resolve_concat (sound : h.Sound) (names : (h.members.map Member.uniqueName).Nodup)
    (levels : (h.levels.map Level.name).Nodup) (reached : t.Reached h)
    (recorded : ∀ a ∈ positions, a ∈ h.members) (inside : m ∈ h.members) (fresh : m ∉ positions) :
    (Mode.collapsed.isVisible t positions m = true → (∀ a ∈ positions, m ∉ a.ancestors) →
      ∃ before : Set Member,
        ((⟨t, h.levels, .collapsed⟩ : AxisDimension).resolve positions).expr.Denotes [h]
          (lone before) ∧
        ((⟨t, h.levels, .collapsed⟩ : AxisDimension).resolve (positions ++ [m])).expr.Denotes [h]
          (lone (before ∪ {x | Collapsed.Revealed h t m x})) ∧
        ∀ x, Collapsed.Revealed h t m x → x ∉ before) ∧
    (Mode.expanded.isVisible t positions m = true →
      ∃ before : Set Member,
        ((⟨t, h.levels, .expanded⟩ : AxisDimension).resolve positions).expr.Denotes [h]
          (lone before) ∧
        ((⟨t, h.levels, .expanded⟩ : AxisDimension).resolve (positions ++ [m])).expr.Denotes [h]
          (lone {x ∈ before | m ∉ x.ancestors})) := by
  have regular : h.Regular := ⟨sound, Hierarchy.eq_of_nodup_uniqueNames names⟩
  have more : ∀ a ∈ positions ++ [m], a ∈ h.members :=
    List.forall_mem_append.mpr ⟨recorded, List.forall_mem_singleton.mpr inside⟩
  refine ⟨fun shown undrilled => ?_, fun shown => ?_⟩
  · have visible := (Collapsed.isVisible_iff regular recorded inside).mp shown
    have grown : {x | Collapsed.Visible h t (positions ++ [m]) x} =
        {x | Collapsed.Visible h t positions x} ∪ {x | Collapsed.Revealed h t m x} :=
      Set.ext fun x => visible.concat_iff undrilled
    exact ⟨_, denotes_collapsed regular levels reached recorded,
      grown ▸ denotes_collapsed regular levels reached more,
      fun x below => below.not_visible visible.2.1 fresh⟩
  · have visible := (Expanded.isVisible_iff regular recorded inside).mp shown
    have left : {x | Expanded.Visible h t (positions ++ [m]) x} =
        {x ∈ {x | Expanded.Visible h t positions x} | m ∉ x.ancestors} :=
      Set.ext fun x => Expanded.visible_concat_iff visible.2.1
    exact ⟨_, denotes_expanded regular levels reached recorded,
      left ▸ denotes_expanded regular levels reached more⟩

/-- The month is revealed past the excluded quarter. -/
theorem resolve_concat_quarterly :
    Collapsed.Revealed .quarterly .skipping .year .firstMonth ∧
    (∃ before : Set Member,
      ((⟨.skipping, Hierarchy.quarterly.levels, .collapsed⟩ : AxisDimension).resolve
          []).expr.Denotes [.quarterly] (lone before) ∧
      ((⟨.skipping, Hierarchy.quarterly.levels, .collapsed⟩ : AxisDimension).resolve
          [.year]).expr.Denotes [.quarterly]
        (lone (before ∪ {x | Collapsed.Revealed .quarterly .skipping .year x})) ∧
      ∀ x, Collapsed.Revealed .quarterly .skipping .year x → x ∉ before) ∧
    ∃ before : Set Member,
      ((⟨.skipping, Hierarchy.quarterly.levels, .expanded⟩ : AxisDimension).resolve
          []).expr.Denotes [.quarterly] (lone before) ∧
      ((⟨.skipping, Hierarchy.quarterly.levels, .expanded⟩ : AxisDimension).resolve
          [.year]).expr.Denotes [.quarterly] (lone {x ∈ before | .year ∉ x.ancestors}) := by
  have one := resolve_concat Hierarchy.quarterly_built.sound (by decide) (by decide)
    SelectionTree.skipping_reached (List.forall_mem_nil _) Hierarchy.year_mem_quarterly
    List.not_mem_nil
  exact ⟨Collapsed.revealed_firstMonth, one.1 rfl (List.forall_mem_nil _), one.2 rfl⟩

end AxisDimension
end CubeAxis
