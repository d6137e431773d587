import CubeAxis.Proofs.Expr.Descent

namespace CubeAxis

theorem discrete_lone {K : Set Member} (discrete : Discrete (· ∈ K)) : Discrete (· ∈ lone K) := by
  intro a b left right same
  obtain ⟨m, inside, rfl⟩ := mem_lone.mp left
  obtain ⟨k, inside', rfl⟩ := mem_lone.mp right
  rw [Tuple.beq_singleton] at same
  rw [discrete m k inside inside' same]

namespace Expr

/-- Members that are told apart by name, with all members of the hierarchies they are looked
up in. -/
structure Scope (hs : List Hierarchy) (K : Set Member) : Prop where
  discrete : Discrete (· ∈ K)
  home : ∀ m ∈ K, ∃ h, Home hs h ∧ m.hierarchy = h.name ∧ ∀ k ∈ h.members, k ∈ K

/-- The second member is one of the hierarchy the first is looked up in, at or below it. -/
def Under (hs : List Hierarchy) (u x : Member) : Prop :=
  ∃ h, findHierarchy hs u.hierarchy = .ok h ∧ x ∈ h.members ∧ (x = u ∨ u.isAncestorOf x = true)

variable {hs : List Hierarchy} {K s u : Set Member} {e l r : Expr} {ms : List Member} {m x : Member}

theorem denotes_of_singletons (discrete : Discrete (· ∈ K))
    (run : e.evaluate hs = .ok (singletons ms)) (mem : ∀ m, m ∈ ms ↔ m ∈ s) (within : s ⊆ K) : e.Denotes hs (lone s) := by
  refine ⟨_, run, fun t => ?_⟩
  rw [singletons_eq, List.mem_map, mem_lone]
  refine exists_congr fun m => ?_
  rw [discrete.mem_distinct fun k inside => within ((mem k).mp inside), mem, eq_comm (a := t)]

namespace Scope

variable (scope : Scope hs K)

include scope

theorem mem_of_found {h : Hierarchy} (inside : m ∈ K) (found : findHierarchy hs m.hierarchy = .ok h)
    (member : x ∈ h.members) : x ∈ K := by
  obtain ⟨g, home, named, all⟩ := scope.home m inside
  rw [named, home.found] at found
  cases found
  exact all x member

theorem mem_of_drilled (within : s ⊆ K) (drilled : Drilled hs s u x) : x ∈ K := by
  induction drilled with
  | root mem => exact within mem
  | child _ _ _ found child ih => exact scope.mem_of_found ih found (List.mem_filter.mp child).1

theorem denotes_drilldownMember (set : e.Denotes hs (lone s)) (drills : r.Denotes hs (lone u))
    (within : s ⊆ K) : (drilldownMember e r).Denotes hs (lone {x | Drilled hs s u x}) := by
  obtain ⟨ss, runS, memS⟩ := set.argument_members
  obtain ⟨ds, runD, memD⟩ := drills.argument_members
  obtain ⟨ms, run, opens⟩ := evaluate_drilldownMember runS runD fun m listed => by
    obtain ⟨h, home, named, _⟩ := scope.home m (within ((memS m).mp listed))
    exact ⟨h, home, named⟩
  have starts : {m | m ∈ ss} = s := Set.ext memS
  have through : {d | d ∈ ds} = u := Set.ext memD
  rw [starts, through] at opens
  exact denotes_of_singletons scope.discrete run opens fun _ drilled =>
    scope.mem_of_drilled within drilled

theorem denotes_descent (accept : Nat → Member → Bool) (set : e.Denotes hs (lone s))
    (within : s ⊆ K) (shape : r.evaluate hs = evalDescendants hs accept ⟨e, e.evaluate hs⟩) :
    r.Denotes hs (lone {x | ∃ u ∈ s, Under hs u x ∧ accept (x.depth - u.depth) x = true}) := by
  obtain ⟨us, run, mem⟩ := set.argument_members
  have inside : ∀ u ∈ us, u ∈ K := fun u listed => within ((mem u).mp listed)
  obtain ⟨ms, value, below⟩ := evaluate_descent accept run (fun u listed => by
    obtain ⟨h, home, named, all⟩ := scope.home u (inside u listed)
    refine ⟨h, named ▸ home.found, fun m member same => ?_⟩
    rw [scope.discrete m u (all m member) (inside u listed) same]) shape
  refine denotes_of_singletons scope.discrete value (fun x => (below x).trans ?_) ?_
  · refine exists_congr fun u => ?_
    rw [mem]
    refine and_congr_right fun listed => ?_
    simp only [Under, exists_and_right, ← and_assoc]
    refine and_congr_left fun _ => and_congr_right fun ⟨h, found, inside⟩ => ?_
    have known := scope.mem_of_found (within listed) found inside
    refine or_congr ⟨scope.discrete x u known (within listed), fun same => ?_⟩ Iff.rfl
    rw [same]
    exact BEq.rfl
  · rintro x ⟨u, listed, ⟨h, found, member, _⟩, _⟩
    exact scope.mem_of_found (within listed) found member

end Scope

/-- Hierarchies whose members do not share unique names are a scope. -/
theorem scope_inside (assembled : ∀ h ∈ hs, h.Assembled) (discrete : Discrete (Inside hs)) :
    Scope hs {m | Inside hs m} where
  discrete := discrete
  home m inside := by
    obtain ⟨h, home, named⟩ := Inside.home assembled inside
    exact ⟨h, home, named, fun k member => ⟨h, (mem_of_findHierarchy home.found).1, member⟩⟩

end Expr
end CubeAxis
