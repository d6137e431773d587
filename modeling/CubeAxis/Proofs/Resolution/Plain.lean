import CubeAxis.Proofs.Selection.Plain
import CubeAxis.Resolution.Collapsed
import CubeAxis.Resolution.Expanded

namespace CubeAxis

/-- More members by themselves. -/
def AxisSet.addMembers (a : AxisSet) (ms : List Member) : AxisSet :=
  { a with roots := { a.roots with members := a.roots.members ++ ms } }

theorem AxisSet.addMembers_nil (a : AxisSet) : a.addMembers [] = a := by
  simp [addMembers]

theorem AxisSet.addMembers_append (a : AxisSet) (ms ks : List Member) :
    (a.addMembers ms).addMembers ks = a.addMembers (ms ++ ks) := by
  simp [addMembers]

/-- What a plain node lists of its own: its member, where that is included. -/
def Override.listed (o : Override) (m : Member) : List Member :=
  if o.state.member = some .included then [m] else []

variable {h : Hierarchy} {t : SelectionTree} {m : Member} {o : Override} {f : Forest Override}

theorem Override.eq_of_mem_listed {k : Member} (mem : k ∈ o.listed m) : k = m := by
  unfold listed at mem
  split at mem
  · exact List.mem_singleton.mp mem
  · exact absurd mem List.not_mem_nil

theorem Override.mem_listed (included : o.state.member = some .included) : m ∈ o.listed m := by
  rw [listed, if_pos included]
  exact List.mem_singleton_self m

theorem AxisSet.addMembers_listed (a : AxisSet) (o : Override) (m : Member) :
    a.addMembers (o.listed m) = if o.state.member = some .included then a.addMember m else a := by
  unfold Override.listed
  split
  · rfl
  · exact a.addMembers_nil

/-- A plain node decides over its own member only. -/
theorem Override.Plain.sign (node : o.Plain) (quiet : ∀ l, t.levelSign l ≠ some .included)
    (levels : List Level) (d : Nat) :
    (Inherited.top.memberSign o.state).withLevel (t.levelSignAt levels d) =
      if o.state.member = some .included then .included else .excluded := by
  have level : t.levelSignAt levels d ≠ some .included := by
    unfold SelectionTree.levelSignAt
    cases levels[d]? with
    | none => exact nofun
    | some l => exact quiet l
  have member := node.member
  rw [Inherited.memberSign, node.descendants]
  cases state : o.state.member with
  | none =>
    cases signed : t.levelSignAt levels d with
    | none => rfl
    | some s =>
      cases s with
      | included => exact absurd signed level
      | excluded => rfl
  | some s =>
    cases s with
    | included => rfl
    | excluded => exact absurd state member

/-- Nothing is included where nothing is handed down. -/
theorem Region.signAt_of_top {r : Region} (quiet : ∀ l, r.tree.levelSign l ≠ some .included)
    (handed : r.site.handsDown = .top) (d : Nat) : r.signAt d = .excluded := by
  have node : (Override.fresh 0).Plain := Override.fresh_plain 0
  have sign := node.sign quiet r.levels d
  unfold signAt Site.childrenSign Site.descendantsDefault
  rw [handed]
  split <;> exact sign

theorem Region.includedDepths_of_top {r : Region} (quiet : ∀ l, r.tree.levelSign l ≠ some .included)
    (handed : r.site.handsDown = .top) (start : Nat) : r.includedDepths start = [] := by
  refine List.filter_eq_nil_iff.mpr fun d _ => ?_
  rw [r.signAt_of_top quiet handed]
  exact Bool.false_ne_true

variable (levels : List Level)

namespace Collapsed

theorem frontierLevel?_of_top {r : Region} (quiet : ∀ l, r.tree.levelSign l ≠ some .included)
    (handed : r.site.handsDown = .top) : frontierLevel? r = none := by
  rw [frontierLevel?, r.includedDepths_of_top quiet handed]
  rfl

/-- A plain node shows its member or lets the walk go on. -/
theorem enter_plain {children : Forest Override} (node : o.Plain)
    (quiet : ∀ l, t.levelSign l ≠ some .included) (a : AxisSet) :
    enter t levels .top true false m o children ⟨[], a⟩ =
      if o.state.member = some .included then (none, ⟨[], a.addMember m⟩)
      else (some false, ⟨[], a⟩) := by
  unfold enter
  rw [node.sign quiet]
  by_cases included : o.state.member = some .included
  · simp [included, Pool.take, Sign.isIncluded]
  · have region : showRegion ⟨t, levels, ⟨some (m, .top), o.state, o.sequence, children⟩⟩ m false
        ⟨[], a⟩ = (false, ⟨[], a⟩) := by
      have nowhere : frontierLevel? ⟨t, levels, ⟨some (m, .top), o.state, o.sequence, children⟩⟩ =
          none := frontierLevel?_of_top quiet node.handDown
      rw [showRegion, nowhere]
    simp [included, Pool.take, Sign.isIncluded, region]

/-- Over plain nodes the walk lists members by themselves, those at the top if they are
included. -/
theorem visit_plain (plain : f.Plain h) (quiet : ∀ l, t.levelSign l ≠ some .included)
    (a : AxisSet) :
    ∃ ms, visit t levels .top true false f ⟨[], a⟩ = ⟨[], a.addMembers ms⟩ ∧
      (∀ m ∈ ms, m ∈ h.members) ∧
      ∀ node ∈ f.trees, node.2.1.state.member = some .included → node.1 ∈ ms := by
  induction f generalizing a with
  | nil =>
    refine ⟨[], ?_, fun m mem => absurd mem List.not_mem_nil,
      fun node mem => absurd mem List.not_mem_nil⟩
    rw [AxisSet.addMembers_nil]
    rfl
  | cons m o children siblings ihBelow ihBeside =>
    obtain ⟨inside, _, node, below, beside⟩ := plain
    rw [visit, enter_plain levels node quiet]
    by_cases included : o.state.member = some .included
    · rw [if_pos included]
      obtain ⟨ms, run, known, all⟩ := ihBeside beside (a.addMember m)
      refine ⟨m :: ms, ?_, ?_, fun node mem sign => ?_⟩
      · exact run.trans (congrArg _ (AxisSet.addMembers_append a [m] ms))
      · exact List.forall_mem_cons.mpr ⟨inside, known⟩
      · rcases List.mem_cons.mp mem with rfl | later
        · exact List.mem_cons_self
        · exact List.mem_cons_of_mem _ (all node later sign)
    · rw [if_neg included, node.handDown]
      obtain ⟨ks, lower, knownBelow, _⟩ := ihBelow below a
      obtain ⟨ms, run, known, all⟩ := ihBeside beside (a.addMembers ks)
      refine ⟨ks ++ ms, ?_, ?_, fun node mem sign => ?_⟩
      · dsimp only
        rw [lower, run, AxisSet.addMembers_append]
      · exact List.forall_mem_append.mpr ⟨knownBelow, known⟩
      · rcases List.mem_cons.mp mem with rfl | later
        · exact absurd sign included
        · exact List.mem_append_right _ (all node later sign)

/-- A plain selection shows listed members only. -/
theorem resolve_plain (plain : t.Plain h) : ∃ ms,
    (resolve t levels []).axis = AxisSet.addMembers {} ms ∧ (∀ m ∈ ms, m ∈ h.members) ∧
      ∀ node ∈ t.overrides.trees, node.2.1.state.member = some .included → node.1 ∈ ms := by
  obtain ⟨ms, run, known, all⟩ := visit_plain levels plain.overrides plain.levels {}
  refine ⟨ms, ?_, known, all⟩
  have roots : showRoots t levels { pool := [] } = ⟨[], {}⟩ := by
    have nowhere : frontierLevel? ⟨t, levels, t.rootSite⟩ = none :=
      frontierLevel?_of_top plain.levels rfl
    rw [showRoots, nowhere]
  rw [resolve, roots, run]

end Collapsed

namespace Expanded

theorem childrenTarget_of_top {r : Region} (quiet : ∀ l, r.tree.levelSign l ≠ some .included)
    (handed : r.site.handsDown = .top) : childrenTarget r ≠ some .included := by
  unfold childrenTarget
  rw [r.signAt_of_top quiet handed]
  split <;> exact nofun

theorem closeRegion_nil (r : Region) (a : AxisSet) (cs : List (Nat × Member)) :
    closeRegion r ⟨[], a, cs⟩ = ⟨[], a, cs⟩ := rfl

/-- The region of a plain node is left as it is. -/
theorem showRegion_plain {r : Region} (quiet : ∀ l, r.tree.levelSign l ≠ some .included)
    (handed : r.site.handsDown = .top) (self : Bool) (a : AxisSet) (cs : List (Nat × Member)) :
    showRegion r m .nothing self ⟨[], a, cs⟩ =
      (.nothing, ⟨[], if self then a.addMember m else a, cs⟩) := by
  have target := childrenTarget_of_top quiet handed
  have wanted : r.site.descendantsDefault.sign = .excluded := by
    rw [Site.descendantsDefault, handed]
    rfl
  cases self <;> simp [showRegion, target, wanted, Ambient.nothing, showParts, Progress.when,
    Progress.addMember, closeRegion_nil]

theorem cutOutNode_plain {r : Region} (bare : r.hasExplicitChildren = false) (a : AxisSet)
    (cs : List (Nat × Member)) : ∃ ks, (∀ k ∈ ks, k = (m.depth, m)) ∧
      cutOutNode r m ⟨[], a, cs⟩ = ⟨[], a, cs ++ ks⟩ := by
  unfold cutOutNode Progress.when
  rw [bare, Bool.false_and]
  by_cases noted : ((r.levelSign m.depth).isSome && r.site.state.member.isSome) = true
  · exact ⟨[(m.depth, m)], fun k mem => List.mem_singleton.mp mem, by rw [if_pos noted]; rfl⟩
  · exact ⟨[], fun k mem => absurd mem List.not_mem_nil, by rw [if_neg noted, List.append_nil]; rfl⟩

/-- A plain node shows its member and notes where it stands. -/
theorem enter_plain (m : Member) (children : Forest Override) (node : o.Plain)
    (quiet : ∀ l, t.levelSign l ≠ some .included) (a : AxisSet) (cs : List (Nat × Member)) :
    ∃ ks, (∀ k ∈ ks, k = (m.depth, m)) ∧
      enter t levels .top .nothing m o children ⟨[], a, cs⟩ = (some .nothing,
        ⟨[], a.addMembers (o.listed m), cs ++ ks⟩) := by
  have bare : Region.hasExplicitChildren
      ⟨t, levels, ⟨some (m, .top), o.state, o.sequence, children⟩⟩ = false := by
    rw [Region.hasExplicitChildren, node.children]
    rfl
  obtain ⟨ks, known, noted⟩ := cutOutNode_plain bare a cs
  refine ⟨ks, known, ?_⟩
  have sign : (Inherited.top.memberSign o.state).withLevel (Region.levelSign
      ⟨t, levels, ⟨some (m, .top), o.state, o.sequence, children⟩⟩ m.depth) =
      if o.state.member = some .included then .included else .excluded := node.sign quiet levels _
  have region := fun self => showRegion_plain (m := m)
    (r := ⟨t, levels, ⟨some (m, .top), o.state, o.sequence, children⟩⟩) quiet node.handDown self a
    (cs ++ ks)
  unfold enter
  dsimp only
  rw [noted, sign, AxisSet.addMembers_listed]
  have nothing : Ambient.nothing.member = .excluded := rfl
  by_cases included : o.state.member = some .included <;>
    simp [included, nothing, Progress.when, Pool.take, Sign.isIncluded, region]

/-- Over plain nodes the walk lists the included members and notes nodes at their
depths. -/
theorem visit_plain (plain : f.Plain h) (quiet : ∀ l, t.levelSign l ≠ some .included) (a : AxisSet)
    (cs : List (Nat × Member)) : ∃ ms ks,
      visit t levels .top .nothing f ⟨[], a, cs⟩ = ⟨[], a.addMembers ms, cs ++ ks⟩ ∧
      (∀ m ∈ ms, m ∈ h.members) ∧
      (∀ node ∈ f.trees, node.2.1.state.member = some .included → node.1 ∈ ms) ∧
      ∀ k ∈ ks, k.2 ∈ h.members ∧ k.1 = k.2.depth := by
  induction f generalizing a cs with
  | nil =>
    refine ⟨[], [], ?_, fun m mem => absurd mem List.not_mem_nil,
      fun node mem => absurd mem List.not_mem_nil, fun k mem => absurd mem List.not_mem_nil⟩
    rw [AxisSet.addMembers_nil, List.append_nil]
    rfl
  | cons m o children siblings ihBelow ihBeside =>
    obtain ⟨inside, _, node, below, beside⟩ := plain
    obtain ⟨own, here, entered⟩ := enter_plain levels m children node quiet a cs
    obtain ⟨ms, ks, lower, knownBelow, _, notedBelow⟩ :=
      ihBelow below (a.addMembers (o.listed m)) (cs ++ own)
    obtain ⟨ns, ls, run, known, all, noted⟩ :=
      ihBeside beside ((a.addMembers (o.listed m)).addMembers ms) (cs ++ own ++ ks)
    refine ⟨o.listed m ++ (ms ++ ns), own ++ (ks ++ ls), ?_, ?_, ?_, ?_⟩
    · rw [visit, entered]
      simp only [node.handDown, lower]
      rw [run]
      simp only [AxisSet.addMembers_append, List.append_assoc]
    · have self : ∀ k ∈ o.listed m, k ∈ h.members :=
        fun k mem => Override.eq_of_mem_listed mem ▸ inside
      exact List.forall_mem_append.mpr ⟨self, List.forall_mem_append.mpr ⟨knownBelow, known⟩⟩
    · intro k mem sign
      rcases List.mem_cons.mp mem with rfl | later
      · exact List.mem_append_left _ (Override.mem_listed sign)
      · exact List.mem_append_right _ (List.mem_append_right _ (all k later sign))
    · have self : ∀ k ∈ own, k.2 ∈ h.members ∧ k.1 = k.2.depth := by
        intro k mem
        rw [here k mem]
        exact ⟨inside, rfl⟩
      exact List.forall_mem_append.mpr ⟨self, List.forall_mem_append.mpr ⟨notedBelow, noted⟩⟩

/-- A plain selection shows listed members, less the excluded levels. -/
theorem resolve_plain (plain : t.Plain h) : ∃ ms ks,
    resolve t levels [] = showLevels t levels ⟨[], AxisSet.addMembers {} ms, ks⟩ ∧
      (∀ m ∈ ms, m ∈ h.members) ∧
      (∀ node ∈ t.overrides.trees, node.2.1.state.member = some .included → node.1 ∈ ms) ∧
      ∀ k ∈ ks, k.2 ∈ h.members ∧ k.1 = k.2.depth := by
  obtain ⟨ms, ks, run, rest⟩ := visit_plain levels plain.overrides plain.levels {} []
  refine ⟨ms, ks, ?_, rest⟩
  have start : closeRegion ⟨t, levels, t.rootSite⟩ { pool := [] } = ⟨[], {}, []⟩ := rfl
  rw [resolve, start, run, List.nil_append]

end Expanded
end CubeAxis
