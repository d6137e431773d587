import CubeAxis.Proofs.Builder
import CubeAxis.Proofs.Expr.Repetition
import CubeAxis.Proofs.Identity
import Mathlib.Algebra.Order.BigOperators.Group.List
import Mathlib.Algebra.Order.Group.Nat

namespace CubeAxis

namespace Hierarchy

variable {h : Hierarchy} {drills : List Member} {m x c : Member}

theorem drillDown_eq (h : Hierarchy) (drills : List Member) (m : Member) :
    h.drillDown drills m =
      m :: if drills.contains m then (h.children m).flatMap (h.drillDown drills) else [] := by
  rw [Hierarchy.drillDown]
  split
  · simp
  · rfl

theorem mem_drillDown_self : m ∈ h.drillDown drills m := by
  rw [drillDown_eq]
  exact List.mem_cons_self

/-- A member below the first is a child of a drilled one, and what is below a child is below
its parent. -/
theorem mem_drillDown_iff : x ∈ h.drillDown drills m ↔
    x = m ∨ drills.contains m = true ∧ ∃ c ∈ h.children m, x ∈ h.drillDown drills c := by
  rw [drillDown_eq, List.mem_cons]
  split
  · rename_i drilled
    rw [List.mem_flatMap, and_iff_right drilled]
  · rename_i closed
    simp [closed]

theorem mem_of_mem_drillDown (mem : x ∈ h.drillDown drills m) : x = m ∨ x ∈ h.members := by
  induction m using Hierarchy.drillDown.induct h with
  | case1 m ih =>
    rcases mem_drillDown_iff.mp mem with rfl | ⟨_, c, child, below⟩
    · exact Or.inl rfl
    · rcases ih ⟨c, child⟩ below with rfl | inside
      · exact Or.inr (children_uniqueName_lt child).1
      · exact Or.inr inside

/-- With every drilled member all of its children are there. -/
theorem drillDown_closed (mem : x ∈ h.drillDown drills m) (drilled : drills.contains x = true)
    (child : c ∈ h.children x) : c ∈ h.drillDown drills m := by
  induction m using Hierarchy.drillDown.induct h with
  | case1 m ih =>
    rcases mem_drillDown_iff.mp mem with rfl | ⟨open', k, branch, below⟩
    · exact mem_drillDown_iff.mpr (Or.inr ⟨drilled, c, child, mem_drillDown_self⟩)
    · exact mem_drillDown_iff.mpr (Or.inr ⟨open', k, branch, ih ⟨k, branch⟩ below⟩)

end Hierarchy

namespace Expr

/-- What drilling opens: the roots, and with each of its members that equals a drilled one the
children of that member, in the first hierarchy of its name. -/
inductive Drilled (hs : List Hierarchy) (roots drills : Set Member) : Member → Prop
  | root {m : Member} : m ∈ roots → Drilled hs roots drills m
  | child {m d c : Member} {h : Hierarchy} : Drilled hs roots drills m → d ∈ drills →
      (m == d) = true → findHierarchy hs m.hierarchy = .ok h → c ∈ h.children m →
      Drilled hs roots drills c

/-- The hierarchy is the first of its name, and its members carry that name. -/
structure Home (hs : List Hierarchy) (h : Hierarchy) : Prop where
  found : findHierarchy hs h.name = .ok h
  owner : ∀ m ∈ h.members, m.hierarchy = h.name

variable {hs : List Hierarchy} {h : Hierarchy} {roots drills inner : Set Member}
  {ds ss : List Member} {m x : Member} {set drilling : Expr}

theorem Drilled.trans (drilled : Drilled hs inner drills x)
    (within : ∀ r ∈ inner, Drilled hs roots drills r) : Drilled hs roots drills x := by
  induction drilled with
  | root mem => exact within _ mem
  | child _ mem same found below ih => exact .child ih mem same found below

theorem drilled_of_no_drills : Drilled hs roots ∅ x ↔ x ∈ roots := by
  refine ⟨fun drilled => ?_, .root⟩
  cases drilled with
  | root mem => exact mem
  | child _ mem => exact absurd mem (Set.notMem_empty _)

theorem not_drilled_of_no_roots : ¬ Drilled hs ∅ drills x := by
  intro drilled
  induction drilled with
  | root mem => exact Set.notMem_empty _ mem
  | child _ _ _ _ _ ih => exact ih

theorem drilled_of_contains (opened : Drilled hs roots {d | d ∈ ds} m)
    (drilled : ds.contains m = true) (found : findHierarchy hs m.hierarchy = .ok h)
    (child : x ∈ h.children m) : Drilled hs roots {d | d ∈ ds} x := by
  obtain ⟨d, mem, same⟩ := List.contains_iff_exists_mem_beq.mp drilled
  exact .child opened mem same found child

theorem Home.drilled_of_mem_drillDown (home : Home hs h) (named : m.hierarchy = h.name)
    (mem : x ∈ h.drillDown ds m) : Drilled hs {m} {d | d ∈ ds} x := by
  induction m using Hierarchy.drillDown.induct h with
  | case1 m ih =>
    rcases Hierarchy.mem_drillDown_iff.mp mem with rfl | ⟨drilled, c, child, below⟩
    · exact .root rfl
    · have inside := (Hierarchy.children_uniqueName_lt child).1
      refine (ih ⟨c, child⟩ (home.owner c inside) below).trans ?_
      rintro _ rfl
      exact drilled_of_contains (.root rfl) drilled (named ▸ home.found) child

theorem Home.mem_drillDown_iff (home : Home hs h) (named : m.hierarchy = h.name) :
    x ∈ h.drillDown ds m ↔ Drilled hs {m} {d | d ∈ ds} x := by
  refine ⟨home.drilled_of_mem_drillDown named, fun opened => ?_⟩
  induction opened with
  | root only =>
    rw [Set.mem_singleton_iff.mp only]
    exact Hierarchy.mem_drillDown_self
  | @child k d c g _ mem same found child ih =>
    have called : k.hierarchy = h.name := by
      rcases Hierarchy.mem_of_mem_drillDown ih with rfl | inside
      · exact named
      · exact home.owner k inside
    rw [called, home.found] at found
    cases found
    exact Hierarchy.drillDown_closed ih (List.contains_iff_exists_mem_beq.mpr ⟨d, mem, same⟩) child

/-- Drilling gives what it opens, freed from repetition. -/
theorem evaluate_drilldownMember (runS : set.evaluateMembers hs = .ok ss)
    (runD : drilling.evaluateMembers hs = .ok ds)
    (homes : ∀ m ∈ ss, ∃ h, Home hs h ∧ m.hierarchy = h.name) :
    ∃ ms, (drilldownMember set drilling).evaluate hs = .ok (singletons ms) ∧
      ∀ x, x ∈ ms ↔ Drilled hs {m | m ∈ ss} {d | d ∈ ds} x := by
  have : Nonempty Hierarchy := ⟨.new "" []⟩
  choose! home isHome named using homes
  have opens : ∀ m ∈ ss, (do
      if ds.contains m then return (← findHierarchy hs m.hierarchy).drillDown ds m
      else return [m]) = Except.ok ((home m).drillDown ds m) := by
    intro m mem
    rw [Hierarchy.drillDown_eq]
    split
    · rename_i drilled
      rw [named m mem, (isHome m mem).found]
      change Except.ok ((home m).drillDown ds m) = _
      rw [Hierarchy.drillDown_eq, if_pos drilled]
    · rfl
  refine ⟨(ss.map fun m => (home m).drillDown ds m).flatten, ?_, fun x => ?_⟩
  · change evalDrilldown hs ⟨set, set.evaluate hs⟩ ⟨drilling, drilling.evaluate hs⟩ = _
    have argS : (⟨set, set.evaluate hs⟩ : Argument).members = .ok ss := runS
    have argD : (⟨drilling, drilling.evaluate hs⟩ : Argument).members = .ok ds := runD
    rw [evalDrilldown, argS, argD]
    change (do
      let found ← ss.mapM fun m => do
        if ds.contains m then return (← findHierarchy hs m.hierarchy).drillDown ds m
        else return [m]
      return singletons found.flatten) = _
    rw [mapM_eq_ok opens]
    rfl
  · simp only [List.mem_flatten, List.mem_map, exists_exists_and_eq_and]
    constructor
    · rintro ⟨m, mem, below⟩
      refine (((isHome m mem).mem_drillDown_iff (named m mem)).mp below).trans ?_
      rintro _ rfl
      exact .root mem
    · intro opened
      induction opened with
      | root mem => exact ⟨_, mem, Hierarchy.mem_drillDown_self⟩
      | @child k d c g _ mem same found child ih =>
        obtain ⟨m, listed, below⟩ := ih
        have reach := ((isHome m listed).mem_drillDown_iff (named m listed)).mp below
        refine ⟨m, listed, ((isHome m listed).mem_drillDown_iff (named m listed)).mpr ?_⟩
        exact .child reach mem same found child

/-- The member is one of a listed hierarchy. -/
def Inside (hs : List Hierarchy) (m : Member) : Prop :=
  ∃ h ∈ hs, m ∈ h.members

theorem Inside.home (assembled : ∀ h ∈ hs, h.Assembled) (inside : Inside hs m) :
    ∃ h, Home hs h ∧ m.hierarchy = h.name := by
  obtain ⟨g, listed, mem⟩ := inside
  obtain ⟨h, found⟩ := exists_findHierarchy listed
  obtain ⟨first, named⟩ := mem_of_findHierarchy found
  refine ⟨h, ⟨named ▸ found, (assembled h first).orderly.owner⟩, ?_⟩
  rw [(assembled g listed).orderly.owner m mem, named]

/-- Drilling goes from a member to members with longer unique names. None is longer than all
of those in the hierarchies, so it does not go on forever, whatever the names. -/
theorem wellFounded_drilling (hs : List Hierarchy) (ds : List Member) :
    WellFounded fun c m => ∃ h, findHierarchy hs m.hierarchy = .ok h ∧ ds.contains m = true ∧
      c ∈ h.children m := by
  let bound := (hs.map Hierarchy.nameBound).sum
  refine Subrelation.wf ?_ (measure fun m : Member => bound - m.uniqueName.length).wf
  rintro c m ⟨h, found, _, child⟩
  obtain ⟨inside, longer⟩ := Hierarchy.children_uniqueName_lt child
  have within := Hierarchy.uniqueName_length_le_nameBound inside
  have below : h.nameBound ≤ bound :=
    List.le_sum_of_mem (List.mem_map_of_mem (mem_of_findHierarchy found).1)
  change bound - c.uniqueName.length < bound - m.uniqueName.length
  omega

/-- Drilling down comes to an end, and gives the least collection that holds the members of
the set and, with each member that equals a drilled one, all of its children. -/
theorem drilldownMember_closure (assembled : ∀ h ∈ hs, h.Assembled)
    (runS : set.evaluateMembers hs = .ok ss) (inside : ∀ m ∈ ss, Inside hs m)
    (runD : drilling.evaluateMembers hs = .ok ds) :
    (WellFounded fun c m => ∃ h, findHierarchy hs m.hierarchy = .ok h ∧ ds.contains m = true ∧
      c ∈ h.children m) ∧
    ∃ ms, (drilldownMember set drilling).evaluateMembers hs = .ok ms ∧ Unrepeated ms ∧
      (∀ m ∈ ms, Drilled hs {m | m ∈ ss} {d | d ∈ ds} m) ∧
      ∀ m, Drilled hs {m | m ∈ ss} {d | d ∈ ds} m → ms.contains m = true := by
  obtain ⟨ms, run, mem⟩ :=
    evaluate_drilldownMember runS runD fun m listed => (inside m listed).home assembled
  refine ⟨wellFounded_drilling hs ds, distinct ms, ?_, unrepeated_distinct ms, ?_, ?_⟩
  · rw [evaluateMembers_eq_ok, run, singletons_eq]
  · exact fun m kept => (mem m).mp (mem_of_mem_distinct kept)
  · exact fun m drilled =>
      contains_distinct.mpr (List.contains_iff_exists_mem_beq.mpr ⟨m, (mem m).mpr drilled, BEq.rfl⟩)

/-- A root that equals a member further down by name opens where that one is drilled, into
the children of the other. -/
theorem drilldownMember_closure_bracketed :
    let top : Member := .root "H" "A].[B" "One"
    let inner : Member := .child (.root "H" "A" "One") "B" "Two"
    let leaf : Member := .child inner "C" "Three"
    ∃ ms, (drilldownMember (member top) (member inner)).evaluateMembers [.bracketed] = .ok ms ∧
      Unrepeated ms ∧ ms.contains top = true ∧ ms.contains leaf = true := by
  intro top inner leaf
  have built : Hierarchy.bracketed.Built := .addPath _ (.addPath _ (.new _ _))
  have assembled : ∀ h ∈ [Hierarchy.bracketed], h.Assembled :=
    List.forall_mem_singleton.mpr built.assembled
  have inside : ∀ m ∈ [top], Inside [.bracketed] m :=
    List.forall_mem_singleton.mpr ⟨_, List.mem_singleton_self _, List.mem_of_getElem? (i := 0) rfl⟩
  have start : (member top).evaluateMembers [.bracketed] = .ok [top] := rfl
  have drilled : (member inner).evaluateMembers [.bracketed] = .ok [inner] := rfl
  obtain ⟨_, ms, run, once, _, all⟩ := drilldownMember_closure assembled start inside drilled
  have first : Drilled [.bracketed] {m | m ∈ [top]} {d | d ∈ [inner]} top :=
    .root (List.mem_singleton_self _)
  have child : leaf ∈ Hierarchy.bracketed.children top := List.mem_of_getElem? (i := 0) rfl
  refine ⟨ms, run, once, all top first, all leaf ?_⟩
  exact .child first (List.mem_singleton_self inner) (by decide) rfl child

end Expr
end CubeAxis
