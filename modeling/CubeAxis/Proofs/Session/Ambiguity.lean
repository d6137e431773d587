import CubeAxis.Proofs.Session.Focus

namespace CubeAxis

namespace Dimension

variable {d : Dimension} {m : Member} {l : Level}

/-- Members of one name are shown together, as no member above has their name. -/
theorem mem_shown_of_same_names (sound : d.hierarchy.Sound) {ms : List Member}
    (inside : ∀ m ∈ ms, m ∈ d.hierarchy.members)
    (same : ∀ m ∈ ms, ∀ k ∈ ms, m.uniqueName = k.uniqueName) (mem : m ∈ ms) :
    m ∈ (d.including ms).shown [] := by
  refine mem_shown_including sound inside mem fun a above k listed => ?_
  refine Bool.eq_false_iff.mpr fun path => ?_
  have shorter := Member.uniqueName_lt_of_mem_ancestors above
  rw [Member.uniqueName_of_path_beq path, same m mem k listed] at shorter
  exact Nat.lt_irrefl _ shorter

/-- A collapsed hierarchy that includes a level alone denotes whatever has its name. -/
theorem term_onLevel (regular : d.hierarchy.Regular) {hs : List Hierarchy}
    (found : Expr.findHierarchy hs d.hierarchy.name = .ok d.hierarchy) (mode : d.mode = .collapsed)
    (listed : l ∈ d.hierarchy.levels) :
    (d.selecting [.onLevel .included l]).onAxis.fullExpr.Term hs (lone d.hierarchy.all)
      (lone {m | m ∈ d.hierarchy.members ∧ (m.level == l) = true}) := by
  obtain ⟨e, atDepth⟩ := List.mem_iff_getElem?.mp listed
  obtain ⟨k, same, known, shape⟩ := AxisDimension.fullExpr_collapsed_level
    (d := (d.selecting [.onLevel .included l]).onAxis) mode rfl atDepth
    (SelectionTree.levelSign_applyLevel rfl .included l)
  obtain ⟨f, there⟩ := List.mem_iff_getElem?.mp known
  have picks := Expr.picks_levelMembers found (regular.level_at f k there).2
  have named : ∀ m : Member, (m.level == k) = true ↔ (m.level == l) = true := by
    intro m
    rw [Level.beq_iff, Level.beq_iff, Level.beq_iff.mp same]
  simp only [named] at picks
  rw [shape]
  exact picks.term rfl

/-- There a member is hidden by the member of the level above it. -/
theorem not_mem_shown_onLevel (mode : d.mode = .collapsed) {a : Member} (above : a ∈ m.ancestors)
    (named : a.level = l) : m ∉ (d.selecting [.onLevel .included l]).shown [] := by
  intro shown
  have visible : (d.mode.isVisible (d.selection.clear.applyLevel .included l) [] m) = true := shown.2
  have included : (d.selection.clear.applyLevel .included l).isIncluded a = true := by
    refine SelectionTree.isIncluded_of_levelSign (s := .included) ?_ ?_
    · have nothing : (Forest.nil : Forest Override).Plain d.hierarchy := trivial
      rw [SelectionTree.isSpecial, Bool.or_eq_false_iff]
      refine ⟨rfl, ?_⟩
      change (Forest.nil.inherited .top a.pathFromRoot).children.isSome = false
      rw [nothing.inherited]
      rfl
    · rw [SelectionTree.levelSign_applyLevel rfl, named]
      simp
  rw [mode, Mode.isVisible, Bool.and_eq_true] at visible
  have opened := List.all_eq_true.mp visible.2 a (List.mem_filter.mpr ⟨above, included⟩)
  cases opened

/-- An included member is shown by an expanded hierarchy even if its level is excluded. -/
theorem mem_shown_offLevel (sound : d.hierarchy.Sound) (mode : d.mode = .expanded)
    (inside : m ∈ d.hierarchy.members) :
    m ∈ (d.selecting [.onMember .included .member m, .onLevel .excluded l]).shown [] := by
  have bare := SelectionTree.clear_plain d.hierarchy d.selection
  have plain := (bare.includeMember sound inside).excludeLevel rfl l
  have included := (bare.isIncluded_includeMember (k := m) sound inside).mpr (Or.inl BEq.rfl)
  have state := (bare.includeMember sound inside).isIncluded_iff.mp included
  exact mem_shown_nil inside (plain.isIncluded_iff.mpr state)
    fun collapsed => nomatch mode.symm.trans collapsed

end Dimension

namespace Session

section

variable {pre post : List Dimension} {d : Dimension} {drills : DrillTree}
  (consistent : (⟨pre ++ d :: post, drills⟩ : Session).Consistent)
  (inhabited : ∀ e ∈ pre ++ d :: post, e.hierarchy.members ≠ [])
  (exact : ∀ t, (⟨pre ++ d :: post, drills⟩ : Session).Leads t → t.Exact)

include consistent inhabited exact

theorem exact_focus {as : List Selection} (within : ∀ a ∈ as, a.target.Within d.hierarchy) :
    (⟨focus pre d as post, .empty⟩ : Session).Exact := by
  refine exact _ (leads_focus (fun e mem => ?_) within)
  have inside : e ∈ pre ++ d :: post := mem_of_mem_others mem
  exact (Dimension.lead_spec (consistent.built e inside).sound (inhabited e inside)).1

/-- Members of one name would be shown in tuples of one name, of which evaluation keeps
one. -/
theorem eq_of_same_name {x y : Member} (left : x ∈ d.hierarchy.members)
    (right : y ∈ d.hierarchy.members) (same : x.uniqueName = y.uniqueName) : x = y := by
  have sound : ∀ e ∈ pre ++ d :: post, e.hierarchy.Sound :=
    fun e mem => (consistent.built e mem).sound
  have both : ∀ m ∈ [x, y], m ∈ d.hierarchy.members :=
    List.forall_mem_cons.mpr ⟨left, List.forall_mem_singleton.mpr right⟩
  have named : ∀ m ∈ [x, y], ∀ k ∈ [x, y], m.uniqueName = k.uniqueName := by simp [same]
  have within : ∀ a ∈ [x, y].map (Selection.onMember .included .member),
      a.target.Within d.hierarchy := List.forall_mem_map.mpr both
  obtain ⟨ts, run, listed⟩ := exact_focus consistent inhabited exact within
  have tidy := focus_tidy sound inhabited both ts (mapError_eq_ok.mp run)
  have evaluated : ∀ m ∈ [x, y], focusTuple pre m post ∈ ts := by
    intro m mem
    refine (listed _).mpr ((mem_visibleTuples_focus fun e other => ?_).mpr ?_)
    · have inside := mem_of_mem_others (d := d) other
      exact ⟨sound e inside, inhabited e inside⟩
    · exact Dimension.mem_shown_of_same_names (sound d (by simp)) both named mem
  have equal : (focusTuple pre x post == focusTuple pre y post) = true := by
    rw [Member.list_beq_iff]
    simp [focusTuple, same]
  simpa [focusTuple] using tidy _ _ (evaluated x (by simp)) (evaluated y (by simp)) equal

variable (regular : ∀ e ∈ pre ++ d :: post, e.hierarchy.Regular)

include regular

/-- In the dimension in focus, the session denotes what is shown. -/
theorem denotes_shown {as : List Selection} (within : ∀ a ∈ as, a.target.Within d.hierarchy)
    {A : Set Member} (term : (d.selecting as).onAxis.fullExpr.Term
      ((pre ++ d :: post).map (·.hierarchy)) (lone d.hierarchy.all) (lone A)) :
    A = (d.selecting as).shown [] :=
  (exact_focus consistent inhabited exact within).denotes_shown rfl regular inhabited term

/-- A collapsed hierarchy would show the members of an inner level with those of the
outer level of the same name. -/
theorem depth_le_of_collapsed (mode : d.mode = .collapsed) {a b : Member}
    (left : a ∈ d.hierarchy.members) (right : b ∈ d.hierarchy.members)
    (named : a.levelName = b.levelName) : b.depth ≤ a.depth := by
  by_contra lower
  have known := regular d (by simp)
  have listed := known.member_level a left
  have found := consistent.findHierarchy (d := d) (by simp)
  have within : ∀ c ∈ [Selection.onLevel .included a.level], c.target.Within d.hierarchy :=
    List.forall_mem_singleton.mpr (List.mem_of_getElem? listed)
  have shown := denotes_shown consistent inhabited exact regular within
    (Dimension.term_onLevel known found mode (List.mem_of_getElem? listed))
  have denoted : b ∈ (d.selecting [.onLevel .included a.level]).shown [] := by
    rw [← shown]
    exact ⟨right, (known.level_beq_iff right listed).mpr named.symm⟩
  obtain ⟨c, above, depth⟩ := Member.exists_mem_upward_of_depth (m := b) (d := a.depth) (by omega)
  have level := known.member_level c (known.upward_mem right above)
  rw [depth] at level
  have higher := Member.mem_ancestors_of_lt above (by omega)
  have outer : c.level = a.level := Option.some.inj (level.symm.trans listed)
  exact Dimension.not_mem_shown_onLevel mode higher outer denoted

/-- An expanded hierarchy would hide an included member with an excluded level of its
name. -/
theorem depth_eq_of_expanded (mode : d.mode = .expanded) {l : Level} (listed : l ∈ d.hierarchy.levels)
    {m : Member} (inside : m ∈ d.hierarchy.members) (named : (m.level == l) = true) :
    m.depth = l.depth := by
  by_contra off
  have known := regular d (by simp)
  have found := consistent.findHierarchy (d := d) (by simp)
  have within : ∀ a ∈ [Selection.onMember .included .member m, .onLevel .excluded l],
      a.target.Within d.hierarchy :=
    List.forall_mem_cons.mpr ⟨inside, List.forall_mem_singleton.mpr listed⟩
  have bare := SelectionTree.clear_plain d.hierarchy d.selection
  have plain := (bare.includeMember known.toSound inside).excludeLevel rfl l
  have sign : ((d.selection.clear.includeMember m).applyLevel .excluded l).levelSign l =
      some .excluded := by
    rw [SelectionTree.levelSign_applyLevel rfl]
    simp
  obtain ⟨A, term, hidden⟩ := AxisDimension.fullExpr_expanded_level
    (d := (d.selecting [.onMember .included .member m, .onLevel .excluded l]).onAxis)
    known found mode rfl plain listed sign inside named off
  rw [denotes_shown consistent inhabited exact regular within term] at hidden
  exact hidden (Dimension.mem_shown_offLevel known.toSound mode inside)

end

variable {s : Session}

/-- A session of hierarchies with members is exact along every run only where names
leave no doubt. -/
theorem Consistent.unambiguous (consistent : s.Consistent)
    (inhabited : ∀ d ∈ s.dimensions, d.hierarchy.members ≠ [])
    (exact : ∀ t, s.Leads t → t.Exact) : ∀ d ∈ s.dimensions, d.Unambiguous := by
  obtain ⟨dimensions, drills⟩ := s
  have unique : ∀ d ∈ dimensions, ∀ a ∈ d.hierarchy.members, ∀ b ∈ d.hierarchy.members,
      a.uniqueName = b.uniqueName → a = b := by
    intro d mem a left b right same
    obtain ⟨pre, post, rfl⟩ := List.append_of_mem mem
    exact eq_of_same_name consistent inhabited exact left right same
  have regular : ∀ d ∈ dimensions, d.hierarchy.Regular :=
    fun d mem => ⟨(consistent.built d mem).sound, unique d mem⟩
  intro d mem
  refine ⟨unique d mem, ?_⟩
  obtain ⟨pre, post, rfl⟩ := List.append_of_mem mem
  cases mode : d.mode with
  | collapsed =>
    intro a left b right named
    have one := depth_le_of_collapsed consistent inhabited exact regular mode left right named
    have other := depth_le_of_collapsed consistent inhabited exact regular mode right left named.symm
    exact Nat.le_antisymm other one
  | expanded =>
    intro l listed m inside
    have named := depth_eq_of_expanded consistent inhabited exact regular mode listed inside
    refine ⟨named, fun depth => ?_⟩
    obtain ⟨e, atDepth⟩ := List.mem_iff_getElem?.mp listed
    have level := (regular d mem).member_level m inside
    rw [depth, ((regular d mem).level_at e l atDepth).1, atDepth] at level
    rw [Option.some.inj level]
    exact BEq.rfl

/-- A session is exact along every run just where names leave no doubt. Only beside a
hierarchy without members, where nothing is visible, it is enough that evaluation never
fails. -/
theorem always_exact_iff {spec : SessionSpec} {mode : Mode} (built : build spec mode = .ok s)
    (any : spec.hierarchies ≠ []) :
    (∀ t, s.Leads t → t.Exact) ↔
      (∀ d ∈ s.dimensions, d.Unambiguous) ∨
        (∃ d ∈ s.dimensions, d.hierarchy.members = []) ∧
          ∀ t, s.Leads t → ∃ ts, t.evaluate = .ok ts := by
  have consistent := build_consistent built
  constructor
  · intro exact
    by_cases void : ∃ d ∈ s.dimensions, d.hierarchy.members = []
    · refine Or.inr ⟨void, fun t leads => ?_⟩
      exact ((leads.consistent consistent).exact_iff_evaluates (leads.memberless void)).mp (exact t leads)
    · refine Or.inl (consistent.unambiguous (fun d mem none => ?_) exact)
      exact void ⟨d, mem, none⟩
  · intro condition t leads
    have along := leads.consistent consistent
    rcases condition with unambiguous | ⟨void, evaluates⟩
    · refine along.exact ?_ (leads.unambiguous unambiguous)
      rw [← List.length_pos_iff, leads.length_dimensions, length_dimensions_of_build built]
      exact List.length_pos_iff.mpr any
    · exact (along.exact_iff_evaluates (leads.memberless void)).mpr (evaluates t leads)

/-- The calendar with all of its first year selected and that year drilled. -/
def calendarSpec : SessionSpec where
  hierarchies :=
    [{ name := "Time", levels := ["Year", "Month"], members := ["2024/Jan", "2025/Feb"] }]
  selections :=
    [{ hierarchy := "Time", sign := .included, operator := .descendants, member := some "2024" }]
  drills := [{ position := ["2024"] }]

/-- What is built from it. -/
def calendarSession : Session where
  dimensions :=
    [⟨.calendar, .collapsed, SelectionTree.empty.apply (.onMember .included .descendants .year)⟩]
  drills := DrillTree.empty.add [.year]

theorem always_exact_iff_calendar :
    build calendarSpec .collapsed = .ok calendarSession ∧ calendarSpec.hierarchies ≠ [] ∧
      (∀ d ∈ calendarSession.dimensions, d.Unambiguous) ∧
      ∀ t, calendarSession.Leads t → t.Exact := by
  have unambiguous : ∀ d ∈ calendarSession.dimensions, d.Unambiguous := by
    refine List.forall_mem_singleton.mpr ⟨Hierarchy.eq_of_nodup_uniqueNames (by decide), ?_⟩
    exact Hierarchy.calendar_built.sound.tells (by decide) .collapsed
  have built : build calendarSpec .collapsed = .ok calendarSession := rfl
  exact ⟨built, by decide, unambiguous,
    (always_exact_iff built (by decide)).mpr (Or.inl unambiguous)⟩

/-- One member below another, on levels of one name, with that level selected. -/
def twinSpec : SessionSpec where
  hierarchies := [{ name := "H", levels := ["L", "L"], members := ["A/B"], mode := some .collapsed }]
  selections := [{ hierarchy := "H", sign := .included, level := some "L" }]

def twinSession : Session where
  dimensions := [⟨((Hierarchy.new "H" ["L", "L"]).addPath "A/B").2, .collapsed,
    SelectionTree.empty.apply (.onLevel .included ⟨"H", "L", 0⟩)⟩]

/-- The inner member is evaluated though it is hidden below the outer one. -/
theorem not_exact_twins :
    build twinSpec .collapsed = .ok twinSession ∧ twinSpec.hierarchies ≠ [] ∧
      ¬ ∀ t, twinSession.Leads t → t.Exact := by
  refine ⟨rfl, by decide, fun always => ?_⟩
  obtain ⟨ts, run, shown⟩ := always twinSession .start
  have both : twinSession.evaluate =
      .ok [[.root "H" "A" "L"], [.child (.root "H" "A" "L") "B" "L"]] := rfl
  have inner : [Member.child (.root "H" "A" "L") "B" "L"] ∈ ts := by
    cases run.symm.trans both
    simp
  have visible := ((shown _).mp inner).2 0 _ _ rfl rfl
  revert visible
  decide

end Session
end CubeAxis
