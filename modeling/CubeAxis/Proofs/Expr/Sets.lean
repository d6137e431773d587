import CubeAxis.Proofs.Expr.Scope

namespace CubeAxis

theorem Expr.findHierarchy_of_nodup {hs : List Hierarchy} (names : (hs.map (·.name)).Nodup)
    {h : Hierarchy} (mem : h ∈ hs) : findHierarchy hs h.name = .ok h := by
  have first : hs.find? (fun g => g.name == h.name) = some h := by
    induction hs with
    | nil => exact absurd mem List.not_mem_nil
    | cons g gs ih =>
      obtain ⟨fresh, later⟩ := List.nodup_cons.mp names
      rcases List.mem_cons.mp mem with rfl | tail
      · simp
      · have other : (g.name == h.name) = false := by
          rw [beq_eq_false_iff_ne]
          exact fun same => fresh (List.mem_map.mpr ⟨h, tail, same.symm⟩)
        rw [List.find?_cons, other]
        exact ih later tail
  rw [findHierarchy, first]

/-- The members of a hierarchy as a set. -/
def Hierarchy.all (h : Hierarchy) : Set Member :=
  {m | m ∈ h.members}

/-- What drilling shows: the roots, and with every shown member that is drilled
its children. -/
inductive Hierarchy.Opened (h : Hierarchy) (roots drills : Set Member) : Member → Prop
  | root {m : Member} : m ∈ roots → Opened h roots drills m
  | child {m c : Member} : Opened h roots drills m → m ∈ drills → c ∈ h.members →
      c.parent? = some m → Opened h roots drills c

theorem Hierarchy.Opened.mem_of_roots {h : Hierarchy} {roots drills : Set Member} {x : Member}
    (opened : h.Opened roots drills x) (within : roots ⊆ h.all) : x ∈ h.members := by
  cases opened with
  | root mem => exact within mem
  | child _ _ inside _ => exact inside

namespace Hierarchy.Regular

variable {h : Hierarchy} (regular : h.Regular)

include regular

theorem discrete_lone : Discrete (· ∈ lone h.all) :=
  CubeAxis.discrete_lone regular.discrete

end Hierarchy.Regular

namespace Expr

/-- Over `hs` the expression evaluates to one-member tuples, those of `s`, which
are members of `h`. -/
structure Picks (hs : List Hierarchy) (h : Hierarchy) (e : Expr) (s : Set Member) : Prop where
  within : s ⊆ h.all
  denotes : e.Denotes hs (lone s)

variable {hs : List Hierarchy} {h : Hierarchy} {e l r : Expr} {s u : Set Member}

theorem Picks.congr (value : e.Picks hs h s) (same : ∀ m, m ∈ u ↔ m ∈ s) : e.Picks hs h u :=
  Set.ext same ▸ value

theorem picks_member {m : Member} (inside : m ∈ h.members) : (member m).Picks hs h {m} := by
  refine ⟨Set.singleton_subset_iff.mpr inside, [[m]], rfl, fun t => ?_⟩
  rw [List.mem_singleton, mem_lone]
  simp

theorem evaluate_members (ms : List Member) : (members ms).evaluate hs = .ok (singletons ms) := by
  change evalBrace (arguments hs (ms.map member)) = _
  have values : (arguments hs (ms.map member)).mapM (·.value) = .ok (ms.map fun m => [[m]]) := by
    rw [arguments_eq_map, List.map_map, List.mapM_map]
    exact mapM_eq_ok fun m _ => rfl
  rw [evalBrace, values]
  change Except.ok (distinct (ms.map fun m => [[m]]).flatten) = .ok (distinct (ms.map ([·])))
  rw [← List.flatMap_def, List.map_eq_flatMap]

section

variable (regular : h.Regular)

include regular

theorem Picks.except (left : l.Picks hs h s) (right : r.Picks hs h u) :
    (Expr.except l r).Picks hs h (s \ u) := by
  refine ⟨Set.sdiff_subset.trans left.within, ?_⟩
  rw [lone_diff]
  exact left.denotes.except regular.discrete_lone right.denotes (lone_mono left.within)
    (lone_mono right.within)

theorem picks_of_singletons (ms : List Member) (run : e.evaluate hs = .ok (singletons ms))
    (mem : ∀ m, m ∈ ms ↔ m ∈ s) (within : s ⊆ h.all) : e.Picks hs h s :=
  ⟨within, denotes_of_singletons regular.discrete run mem within⟩

theorem picks_members {ms : List Member} (inside : ∀ m ∈ ms, m ∈ h.members) :
    (members ms).Picks hs h {m | m ∈ ms} :=
  picks_of_singletons regular ms (evaluate_members ms) (fun _ => Iff.rfl) inside

end

section

variable (regular : h.Regular) (found : findHierarchy hs h.name = .ok h)

include regular found

theorem findHierarchy_of_mem {m : Member} (inside : m ∈ h.members) :
    findHierarchy hs m.hierarchy = .ok h := by
  rw [regular.member_hierarchy inside, found]

theorem picks_children {m : Member} (inside : m ∈ h.members) :
    (children m).Picks hs h {c | c ∈ h.members ∧ c.parent? = some m} := by
  refine picks_of_singletons regular (h.children m) ?_ (fun c => ?_) fun _ mem => mem.1
  · change (do
      let found ← [m].mapM fun (k : Member) => do
        return (← findHierarchy hs k.hierarchy).children k
      return singletons found.flatten) = _
    rw [mapM_eq_ok (g := h.children) fun k only => by
      rw [List.mem_singleton.mp only, findHierarchy_of_mem regular found inside]
      rfl]
    change Except.ok (singletons (h.children m ++ [])) = _
    rw [List.append_nil]
  · exact regular.mem_children_iff inside

omit regular in
theorem picks_levelMembers {level : Level} (owner : level.hierarchy = h.name) :
    (levelMembers level).Picks hs h {m | m ∈ h.members ∧ (m.level == level) = true} := by
  refine ⟨fun _ mem => mem.1, (h.members.filter fun m => m.level == level).map ([·]), ?_,
    fun t => ?_⟩
  · change evalLevelMembers hs level = _
    rw [evalLevelMembers, owner, found]
    rfl
  · simp only [List.mem_map, List.mem_filter, mem_lone, Set.mem_ofPred_eq, eq_comm]

/-- In one hierarchy without shared names, the members under another one are those with that
one on their line. -/
theorem under_iff {a x : Member} (inside : a ∈ h.members) :
    Under hs a x ↔ x ∈ h.members ∧ a ∈ x.upward := by
  simp only [Under, findHierarchy_of_mem regular found inside, Except.ok.injEq, exists_eq_left']
  refine and_congr_right fun member => ?_
  rw [regular.isAncestorOf_iff inside member, Member.mem_upward_iff, eq_comm]

theorem scope_all : Scope hs h.all where
  discrete := regular.discrete
  home _ inside := ⟨h, ⟨found, fun _ member => regular.member_hierarchy member⟩,
    regular.member_hierarchy inside, fun _ member => member⟩

theorem picks_evalDescendants (accept : Nat → Member → Bool) (value : e.Picks hs h s)
    (run : r.evaluate hs = evalDescendants hs accept ⟨e, e.evaluate hs⟩) :
    r.Picks hs h {x | x ∈ h.members ∧
      ∃ root ∈ s, root ∈ x.upward ∧ accept (x.depth - root.depth) x = true} := by
  have below := (scope_all regular found).denotes_descent accept value.denotes value.within run
  have same : {x | x ∈ h.members ∧ ∃ root ∈ s, root ∈ x.upward ∧
      accept (x.depth - root.depth) x = true} =
      {x | ∃ u ∈ s, Under hs u x ∧ accept (x.depth - u.depth) x = true} := by
    ext x
    constructor
    · rintro ⟨member, root, given, above, accepted⟩
      have under := (under_iff regular found (value.within given)).mpr ⟨member, above⟩
      exact ⟨root, given, under, accepted⟩
    · rintro ⟨root, given, under, accepted⟩
      obtain ⟨member, above⟩ := (under_iff regular found (value.within given)).mp under
      exact ⟨member, root, given, above, accepted⟩
  exact ⟨fun _ mem => mem.1, same ▸ below⟩

theorem picks_within (value : e.Picks hs h s) (distance : Nat) (reach : Reach) :
    (within e distance reach).Picks hs h {x | x ∈ h.members ∧
      ∃ root ∈ s, root ∈ x.upward ∧ reach.accepts distance (x.depth - root.depth) = true} := by
  refine picks_evalDescendants regular found (fun found _ => reach.accepts distance found) value ?_
  cases reach <;> rfl

theorem picks_descendantsAt (value : e.Picks hs h s) (level : Level) :
    (descendantsAt e level).Picks hs h {x | x ∈ h.members ∧
      ∃ root ∈ s, root ∈ x.upward ∧ (x.depth == level.depth) = true} :=
  picks_evalDescendants regular found (fun _ m => m.depth == level.depth) value rfl

/-- In one hierarchy without shared names, equality of members is equality and children are
those with the member for a parent. -/
theorem drilled_iff_opened {x : Member} (within : s ⊆ h.all) (known : u ⊆ h.all) :
    Drilled hs s u x ↔ h.Opened s u x := by
  constructor
  · intro drilled
    induction drilled with
    | root mem => exact .root mem
    | @child m d c g _ mem same home child ih =>
      have inside := ih.mem_of_roots within
      rw [findHierarchy_of_mem regular found inside] at home
      cases home
      obtain ⟨member, link⟩ := (regular.mem_children_iff inside).mp child
      rw [← (regular.beq_iff inside (known mem)).mp same] at mem
      exact .child ih mem member link
  · intro opened
    induction opened with
    | root mem => exact .root mem
    | @child m c before mem member link ih =>
      have inside := before.mem_of_roots within
      exact .child ih mem BEq.rfl (findHierarchy_of_mem regular found inside)
        ((regular.mem_children_iff inside).mpr ⟨member, link⟩)

end
end Expr
end CubeAxis
