import CubeAxis.Proofs.Resolution.Collapsed.Walk
import CubeAxis.Proofs.Resolution.Sifting

namespace CubeAxis.Collapsed

variable {h : Hierarchy} {t : SelectionTree} {positions : List Member} {keep : Member → Bool}
  {p q : Progress}

/-- Two walks at the same place, the second with a sifted pool. -/
structure Sifted (keep : Member → Bool) (positions : List Member) (p q : Progress) : Prop where
  axis : q.axis = p.axis
  pool : q.pool = p.pool.filter keep
  recorded : ∀ m ∈ p.pool, m ∈ positions

namespace Sifted

variable (sifted : Sifted keep positions p q)

include sifted

theorem change (f : AxisSet → AxisSet) :
    Sifted keep positions { p with axis := f p.axis } { q with axis := f q.axis } :=
  ⟨congrArg f sifted.axis, sifted.pool, sifted.recorded⟩

/-- Both walks claim the same members where the sieve lets these through. -/
theorem takeWhere {test : Member → Bool}
    (through : ∀ m ∈ p.pool, test m = true → keep m = true) :
    (q.pool.takeWhere test).1 = (p.pool.takeWhere test).1 ∧
      Sifted keep positions { p with pool := (p.pool.takeWhere test).2 }
        { q with pool := (q.pool.takeWhere test).2 } := by
  have both := Pool.takeWhere_filter through
  rw [sifted.pool, both]
  exact ⟨rfl, sifted.axis, rfl, fun m mem => sifted.recorded m (List.mem_of_mem_filter mem)⟩

theorem take {m : Member} (regular : h.Regular) (recorded : ∀ k ∈ positions, k ∈ h.members)
    (inside : m ∈ h.members) (through : keep m = true) :
    q.pool.contains m = p.pool.contains m ∧
      Sifted keep positions { p with pool := p.pool.erase m } { q with pool := q.pool.erase m } := by
  have both := Pool.take_filter regular (fun k mem => recorded k (sifted.recorded k mem)) inside
    through
  simp only [Pool.take, Prod.mk.injEq] at both
  rw [sifted.pool]
  exact ⟨both.1, sifted.axis, both.2, fun k mem => sifted.recorded k (List.mem_of_mem_erase mem)⟩

end Sifted

section

variable {r : Region} {depth : Nat} {depths : List Nat} {taken : List Member}
  (regular : h.Regular) (sits : r.Sits h) (recorded : ∀ m ∈ positions, m ∈ h.members)
  (visible : ∀ m, Visible h r.tree positions m → keep m = true)

include regular sits recorded visible

/-- Following drills down a region claims visible members only. -/
theorem openDepths_sifted (known : Taken h r.tree positions r depth taken)
    (ahead : Ahead r depth depths) (sifted : Sifted keep positions p q) :
    Sifted keep positions (openDepths taken depth depths p) (openDepths taken depth depths q) := by
  induction depths generalizing taken depth p q with
  | nil => exact sifted
  | cons next depths ih =>
    rw [openDepths, openDepths]
    split
    · exact sifted
    · have deeper := ((ahead.mem_iff next).mp List.mem_cons_self).1
      have inside : ∀ m ∈ p.pool, m ∈ h.members := fun m mem => recorded m (sifted.recorded m mem)
      have through : ∀ m ∈ p.pool, under taken next m = true → keep m = true := by
        intro m mem passed
        obtain ⟨lower, level⟩ := (under_iff regular known deeper (inside m mem)).mp passed
        exact visible m (known.visible_below regular sits ahead lower level)
      obtain ⟨onward, _⟩ := known.onward regular sits ahead sifted.recorded inside
      obtain ⟨same, left⟩ := sifted.takeWhere through
      have opened := left.change fun axis =>
        if next = depth + 1 then axis.drill (Expr.members taken)
        else axis.add (Expr.within (Expr.members taken) ((next - depth : Nat) : Int) .self)
      change Sifted keep positions (openDepths (p.pool.filter (under taken next)) next depths _)
        (openDepths (q.pool.filter (under taken next)) next depths _)
      change q.pool.filter (under taken next) = p.pool.filter (under taken next) at same
      rw [same]
      exact ih onward ahead.tail opened

variable {first : Nat} {frontier : MemberSet}
  (opened : ∀ m, r.site.member? = some m → Open r.tree positions m)

include opened

theorem openRegion_sifted (outer : Frontier h r first frontier)
    (sifted : Sifted keep positions p q) :
    Sifted keep positions (openRegion r frontier first p) (openRegion r frontier first q) := by
  have inside : ∀ m ∈ p.pool, m ∈ h.members := fun m mem => recorded m (sifted.recorded m mem)
  have known := outer.taken regular sits opened sifted.recorded inside
  obtain ⟨same, left⟩ := sifted.takeWhere fun m mem passed =>
    visible m (known.visible m (List.mem_filter.mpr ⟨mem, passed⟩))
  rw [openRegion, openRegion]
  change (q.pool.filter fun m => m.depth == first && frontier.contains m) =
    p.pool.filter fun m => m.depth == first && frontier.contains m at same
  simp only [Pool.takeWhere] at left ⊢
  rw [same]
  exact openDepths_sifted regular sits recorded visible known (ahead_includedDepths r first) left

/-- Both walks show a region alike. -/
theorem showRegion_sifted {m : Member} (site : r.site.member? = some m) (drilled : Bool)
    (sifted : Sifted keep positions p q) :
    (showRegion r m drilled q).1 = (showRegion r m drilled p).1 ∧
      Sifted keep positions (showRegion r m drilled p).2 (showRegion r m drilled q).2 := by
  unfold showRegion
  split
  · exact ⟨rfl, sifted⟩
  · rename_i first level top
    obtain ⟨_, _, sign, _⟩ := frontierLevel?_eq_some top
    by_cases near : first = r.childrenDepth
    · rw [if_pos near, if_pos near]
      subst near
      have outer := (frontier_children regular sits site sign).2
      exact ⟨rfl, openRegion_sifted regular sits recorded visible opened outer
        (sifted.change fun axis => if drilled then axis.drill (.member m)
          else axis.add (MemberSet.children m (distinct r.overridden)).expr)⟩
    · rw [if_neg near, if_neg near]
      have outer := (frontier_descendants regular sits top site).2
      exact ⟨rfl, openRegion_sifted regular sits recorded visible opened outer
        (sifted.change (·.add _))⟩

end

section

variable (regular : h.Regular) (recorded : ∀ m ∈ positions, m ∈ h.members)
  (visible : ∀ m, Visible h t positions m → keep m = true)

include regular recorded visible

theorem showRoots_sifted (layered : h.Layered) (hung : t.overrides.Hung h none)
    (sifted : Sifted keep positions p q) :
    Sifted keep positions (showRoots t h.levels p) (showRoots t h.levels q) := by
  have sits := SelectionTree.sits_root hung
  unfold showRoots
  dsimp only
  split
  · exact sifted
  · rename_i first level top
    have outer := (frontier_root regular sits layered rfl top rfl).2
    exact openRegion_sifted regular sits recorded visible (fun m none => by cases none) outer
      (sifted.change (·.add _))

/-- A node's member is claimed where it is included, and then it is visible. -/
theorem marked_sifted {m : Member} (inside : m ∈ h.members)
    (shown : t.isIncluded m = true → Visible h t positions m) (inBase : Bool)
    (sifted : Sifted keep positions p q) :
    (t.isIncluded m = true → q.pool.contains m = p.pool.contains m) ∧
      Sifted keep positions (marked (t.isIncluded m) inBase m p)
        (marked (t.isIncluded m) inBase m q) := by
  cases sign : t.isIncluded m with
  | false =>
    refine ⟨fun no => absurd no Bool.false_ne_true, ?_⟩
    cases inBase with
    | false => exact sifted
    | true => exact sifted.change (·.excludeMember m)
  | true =>
    obtain ⟨same, left⟩ := sifted.take regular recorded inside (visible m (shown sign))
    refine ⟨fun _ => same, ?_⟩
    cases inBase with
    | false => exact left.change (·.addMember m)
    | true => exact left

variable {parent : Option Member} {i : Inherited}

theorem visitNode_sifted {m : Member} {o : Override} {below beside : Forest Override}
    (stands : t.Stands h parent i (.cons m o below beside))
    (opened : ∀ k, parent = some k → Open t positions k) (inBase : Bool)
    (sifted : Sifted keep positions p q)
    (visits : Open t positions m → ∀ inBase p q, Sifted keep positions p q →
      Sifted keep positions (visit t h.levels (i.handDown o.state) true inBase below p)
        (visit t h.levels (i.handDown o.state) true inBase below q)) :
    Sifted keep positions (visitNode t h.levels i inBase m o below p)
      (visitNode t h.levels i inBase m o below q) := by
  have inside := stands.node_mem
  have openedAbove : ∀ k, m.parent? = some k → Open t positions k :=
    fun k link => opened k (stands.node_parent.symm.trans link)
  have shown := fun sign => visible_of_open inside sign openedAbove
  obtain ⟨same, mark⟩ := marked_sifted regular recorded visible inside shown inBase sifted
  -- a member that is not included may be missing from the sifted pool, but nobody asks for it
  have onward : (!t.isIncluded m || q.pool.contains m) = (!t.isIncluded m || p.pool.contains m) := by
    cases sign : t.isIncluded m with
    | false => rfl
    | true => rw [same sign]
  have drilled : (t.isIncluded m && q.pool.contains m) = (t.isIncluded m && p.pool.contains m) := by
    cases sign : t.isIncluded m with
    | false => rfl
    | true => rw [same sign]
  rw [visitNode, visitNode, enter_eq, enter_eq, ← stands.isIncluded_node regular.toSound]
  dsimp only
  rw [onward, drilled]
  by_cases go : (!t.isIncluded m || p.pool.contains m) = true
  · rw [if_pos go, if_pos go]
    have known : ∀ k ∈ p.pool, k ∈ h.members := fun k mem => recorded k (sifted.recorded k mem)
    have openM : Open t positions m := by
      refine open_of_parent openedAbove fun sign => ?_
      rw [sign] at go
      exact sifted.recorded m ((regular.contains_iff known inside).mp go)
    obtain ⟨answer, region⟩ := showRegion_sifted regular stands.region recorded visible
      (fun k same => by cases same; exact openM) rfl (t.isIncluded m && p.pool.contains m) mark
    dsimp only
    rw [answer]
    exact visits openM _ _ _ region
  · rw [if_neg go, if_neg go]
    exact mark

/-- The walk over the nodes of a forest claims visible members only. -/
theorem visit_sifted {f : Forest Override} (stands : t.Stands h parent i f)
    (opened : ∀ k, parent = some k → Open t positions k) (inBase : Bool)
    (sifted : Sifted keep positions p q) :
    Sifted keep positions (visit t h.levels i true inBase f p)
      (visit t h.levels i true inBase f q) := by
  induction f generalizing parent i inBase p q with
  | nil => exact sifted
  | cons m o below beside ihBelow ihBeside =>
    rw [visit_cons, visit_cons]
    refine ihBeside (stands.siblings regular) opened inBase ?_
    refine visitNode_sifted regular recorded visible stands opened inBase sifted ?_
    intro openM inBase p q sifted
    exact ihBelow stands.region.stands (fun k same => by cases same; exact openM) inBase sifted

/-- A pool sifted from hidden positions leads to the same set. -/
theorem resolve_sifted (layered : h.Layered) (hung : t.overrides.Hung h none) :
    (resolve t h.levels (positions.filter keep)).axis = (resolve t h.levels positions).axis := by
  have start : Sifted keep positions { pool := positions } { pool := positions.filter keep } :=
    ⟨rfl, rfl, fun _ => id⟩
  have roots := showRoots_sifted regular recorded visible layered hung start
  exact (visit_sifted regular recorded visible (SelectionTree.sits_root hung).stands
    (fun k none => by cases none) false roots).axis

end

end CubeAxis.Collapsed
