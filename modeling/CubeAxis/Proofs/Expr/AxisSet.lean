import CubeAxis.Proofs.Expr.Union

namespace CubeAxis
namespace UnionTerms

/-- The members among the tuples of a union. -/
def shown (hs : List Hierarchy) (u : UnionTerms) : Set Member :=
  {m | [m] ∈ u.value hs}

variable {hs : List Hierarchy} {h : Hierarchy} {u : UnionTerms} {e : Expr} {s : Set Member}

theorem shown_empty : ({} : UnionTerms).shown hs = ∅ := by
  simp [shown, value_empty]

theorem shown_addMember (m : Member) : (u.addMember m).shown hs = u.shown hs ∪ {m} := by
  ext k
  simp [shown, value_addMember]

theorem Evaluable.value_eq (fine : u.Evaluable hs (lone h.all)) : u.value hs = lone (u.shown hs) := by
  ext t
  rw [mem_lone]
  constructor
  · intro mem
    obtain ⟨m, _, rfl⟩ := mem_lone.mp (fine.value_subset mem)
    exact ⟨m, mem, rfl⟩
  · intro given
    obtain ⟨m, mem, rfl⟩ := given
    exact mem

theorem Evaluable.shown_subset (fine : u.Evaluable hs (lone h.all)) : u.shown hs ⊆ h.all :=
  fun _ mem => singleton_mem_lone.mp (fine.value_subset mem)

theorem shown_add (regular : h.Regular) (term : e.Term hs (lone h.all) (lone s)) :
    (u.add e).shown hs = u.shown hs ∪ s := by
  ext k
  simp [shown, value_add regular.discrete_lone term]

end UnionTerms

theorem Hierarchy.opened_of_no_drills {h : Hierarchy} {roots : Set Member} {x : Member} :
    h.Opened roots ∅ x ↔ x ∈ roots := by
  refine ⟨fun opened => ?_, .root⟩
  cases opened with
  | root mem => exact mem
  | child _ drilled _ _ => exact absurd drilled (Set.notMem_empty _)

theorem Hierarchy.not_opened_of_no_roots {h : Hierarchy} {drills : Set Member} {x : Member} :
    ¬ h.Opened ∅ drills x := by
  intro opened
  induction opened with
  | root mem => exact Set.notMem_empty _ mem
  | child _ _ _ _ ih => exact ih

namespace AxisSet

/-- The four unions denote these sets of members. -/
structure Parts (hs : List Hierarchy) (a : AxisSet) (roots drills undrills excluded : Set Member) :
    Prop where
  roots : a.roots.expr.Denotes hs (lone roots)
  drills : a.drills.expr.Denotes hs (lone drills)
  undrills : a.undrills.expr.Denotes hs (lone undrills)
  excluded : a.excluded.expr.Denotes hs (lone excluded)

/-- The members below those of a set, each in the hierarchy that one is looked up in. -/
def below (hs : List Hierarchy) (s : Set Member) : Set Member :=
  {m | ∃ u ∈ s, ∃ h, Expr.findHierarchy hs u.hierarchy = .ok h ∧ m ∈ h.members ∧
    u.isAncestorOf m = true}

section

variable {hs : List Hierarchy} {a : AxisSet} {e : Expr} {K R D U X : Set Member}

theorem denotes_below (scope : Expr.Scope hs K) (set : e.Denotes hs (lone U)) (within : U ⊆ K) :
    (Expr.within e 0 .after).Denotes hs (lone (below hs U)) := by
  have descent := scope.denotes_descent (r := Expr.within e 0 .after)
    (fun found _ => Reach.after.accepts 0 found) set within rfl
  have same : below hs U = {x | ∃ u ∈ U, Expr.Under hs u x ∧
      Reach.after.accepts 0 (x.depth - u.depth) = true} := by
    ext x
    refine exists_congr fun u => and_congr_right fun _ => ?_
    simp only [Expr.Under, Reach.accepts, decide_eq_true_eq]
    constructor
    · rintro ⟨h, found, inside, above⟩
      have deeper : u.depth < x.depth := by
        simp only [Member.isAncestorOf, Bool.and_eq_true, decide_eq_true_eq] at above
        exact above.1
      exact ⟨⟨h, found, inside, Or.inr above⟩, by omega⟩
    · rintro ⟨⟨h, found, inside, rfl | above⟩, deeper⟩
      · omega
      · exact ⟨h, found, inside, above⟩
  exact same ▸ descent

theorem below_subset (scope : Expr.Scope hs K) (within : U ⊆ K) : below hs U ⊆ K := by
  rintro x ⟨u, given, h, found, inside, _⟩
  exact scope.mem_of_found (within given) found inside

theorem Parts.eq_empty {u : UnionTerms} (none : u.expr? = none)
    (value : u.expr.Denotes hs (lone U)) : U = ∅ := by
  rw [UnionTerms.expr, none] at value
  exact lone_injective ((value.unique Expr.denotes_emptySet).trans lone_empty.symm)

theorem Parts.of_some {u : UnionTerms} (some : u.expr? = some e)
    (value : u.expr.Denotes hs (lone U)) : e.Denotes hs (lone U) := by
  rwa [UnionTerms.expr, some] at value

variable (parts : a.Parts hs R D U X)

include parts

theorem Parts.denotes_base? (scope : Expr.Scope hs K) (within : R ⊆ K) (base : a.base? = some e) :
    e.Denotes hs (lone {m | Expr.Drilled hs R D m}) := by
  obtain ⟨roots, shape, rfl⟩ := Option.map_eq_some_iff.mp base
  have set := Parts.of_some shape parts.roots
  cases drilled : a.drills.expr? with
  | none =>
    have same : {m | Expr.Drilled hs R ∅ m} = R := Set.ext fun _ => Expr.drilled_of_no_drills
    rwa [Parts.eq_empty drilled parts.drills, same]
  | some drills =>
    exact scope.denotes_drilldownMember set (Parts.of_some drilled parts.drills) within

theorem Parts.denotes_removed? (scope : Expr.Scope hs K) (hidden : U ⊆ K) (out : X ⊆ K)
    (removed : a.removed? = some e) : e.Denotes hs (lone (below hs U ∪ X)) := by
  unfold removed? at removed
  cases undrilled : a.undrills.expr? with
  | none =>
    rw [undrilled] at removed
    have nothing : below hs U = ∅ := by
      simp [below, Parts.eq_empty undrilled parts.undrills]
    rw [nothing, Set.empty_union]
    exact Parts.of_some removed parts.excluded
  | some hiders =>
    have descent := denotes_below scope (Parts.of_some undrilled parts.undrills) hidden
    rw [undrilled] at removed
    cases excluded : a.excluded.expr? with
    | none =>
      rw [excluded] at removed
      cases removed
      rwa [Parts.eq_empty excluded parts.excluded, Set.union_empty]
    | some others =>
      rw [excluded] at removed
      cases removed
      rw [lone_union]
      exact descent.union (discrete_lone scope.discrete) (Parts.of_some excluded parts.excluded)
        (lone_mono (below_subset scope hidden)) (lone_mono out)

theorem Parts.removed_eq_empty (removed : a.removed? = none) : below hs U ∪ X = ∅ := by
  unfold removed? at removed
  cases undrilled : a.undrills.expr? with
  | none =>
    rw [undrilled] at removed
    simp [below, Parts.eq_empty undrilled parts.undrills, Parts.eq_empty removed parts.excluded]
  | some hiders =>
    rw [undrilled] at removed
    cases excluded : a.excluded.expr? <;> rw [excluded] at removed <;> cases removed

/-- Whichever parts are left out for being empty, the expression denotes the same: what the
drills open from the roots, less what is below the undrilled members and what is excluded. -/
theorem Parts.denotes_expr (scope : Expr.Scope hs K) (within : R ⊆ K) (hidden : U ⊆ K)
    (out : X ⊆ K) : a.expr.Denotes hs (lone ({m | Expr.Drilled hs R D m} \ (below hs U ∪ X))) := by
  unfold expr
  cases base : a.base? with
  | none =>
    rw [Parts.eq_empty (Option.map_eq_none_iff.mp base) parts.roots]
    simpa [Expr.not_drilled_of_no_roots, lone_empty] using Expr.denotes_emptySet
  | some opened =>
    have value := parts.denotes_base? scope within base
    cases removed : a.removed? with
    | none => rwa [parts.removed_eq_empty removed, Set.sdiff_empty]
    | some gone =>
      rw [lone_diff]
      refine value.except (discrete_lone scope.discrete)
        (parts.denotes_removed? scope hidden out removed) (lone_mono ?_) (lone_mono ?_)
      · exact fun _ drilled => scope.mem_of_drilled within drilled
      · exact Set.union_subset (below_subset scope hidden) out

end

/-- All four unions evaluate to members of the hierarchy. -/
structure Evaluable (hs : List Hierarchy) (h : Hierarchy) (a : AxisSet) : Prop where
  roots : a.roots.Evaluable hs (lone h.all)
  drills : a.drills.Evaluable hs (lone h.all)
  undrills : a.undrills.Evaluable hs (lone h.all)
  excluded : a.excluded.Evaluable hs (lone h.all)

/-- The members below which nothing is shown, all of their descendants. -/
def hidden (hs : List Hierarchy) (a : AxisSet) : Set Member :=
  {m | ∃ u ∈ a.undrills.shown hs, u ∈ m.ancestors}

/-- What the set shows: what the drills open, less what is hidden or excluded. -/
def shown (hs : List Hierarchy) (h : Hierarchy) (a : AxisSet) : Set Member :=
  {m | h.Opened (a.roots.shown hs) (a.drills.shown hs) m} \ (a.hidden hs ∪ a.excluded.shown hs)

variable {hs : List Hierarchy} {h : Hierarchy} {a : AxisSet} {e : Expr} {s : Set Member}

theorem Evaluable.empty : ({} : AxisSet).Evaluable hs h :=
  ⟨.empty, .empty, .empty, .empty⟩

theorem Evaluable.add (fine : a.Evaluable hs h) (term : e.Term hs (lone h.all) (lone s)) :
    (a.add e).Evaluable hs h :=
  { fine with roots := fine.roots.add term }

theorem Evaluable.addMember (fine : a.Evaluable hs h) {m : Member} (inside : m ∈ h.members) :
    (a.addMember m).Evaluable hs h :=
  { fine with roots := fine.roots.addMember (singleton_mem_lone.mpr inside) }

theorem Evaluable.drill (fine : a.Evaluable hs h) (term : e.Term hs (lone h.all) (lone s)) :
    (a.drill e).Evaluable hs h :=
  { fine with drills := fine.drills.add term }

theorem Evaluable.undrill (fine : a.Evaluable hs h) {m : Member} (inside : m ∈ h.members) :
    (a.undrill m).Evaluable hs h :=
  { fine with undrills := fine.undrills.addMember (singleton_mem_lone.mpr inside) }

theorem Evaluable.exclude (fine : a.Evaluable hs h) (term : e.Term hs (lone h.all) (lone s)) :
    (a.exclude e).Evaluable hs h :=
  { fine with excluded := fine.excluded.add term }

theorem Evaluable.excludeMember (fine : a.Evaluable hs h) {m : Member} (inside : m ∈ h.members) :
    (a.excludeMember m).Evaluable hs h :=
  { fine with excluded := fine.excluded.addMember (singleton_mem_lone.mpr inside) }

theorem Evaluable.shown_subset (fine : a.Evaluable hs h) : a.shown hs h ⊆ h.all :=
  fun _ mem => mem.1.mem_of_roots fine.roots.shown_subset

theorem shown_of_isEmpty (empty : a.isEmpty = true) : a.shown hs h = ∅ := by
  have noRoots : a.roots.shown hs = ∅ := by
    simp [UnionTerms.shown, UnionTerms.value_of_isEmpty empty]
  rw [shown, noRoots]
  ext m
  simp [Hierarchy.not_opened_of_no_roots]

theorem expr_of_isEmpty (empty : a.isEmpty = true) : a.expr = Expr.emptySet := by
  have noRoots : a.roots.expr? = none := UnionTerms.expr?_eq_none.mpr empty
  simp [expr, base?, noRoots]

/-- A member excluded on top is all that goes. -/
theorem shown_excludeMember (m : Member) : (a.excludeMember m).shown hs h = a.shown hs h \ {m} := by
  ext k
  simp only [shown, hidden, excludeMember, UnionTerms.shown_addMember, Set.mem_sdiff, Set.mem_union,
    Set.mem_singleton_iff]
  tauto

section

variable (regular : h.Regular) (found : Expr.findHierarchy hs h.name = .ok h)

include regular found

omit found in
theorem Evaluable.parts (fine : a.Evaluable hs h) :
    a.Parts hs (a.roots.shown hs) (a.drills.shown hs) (a.undrills.shown hs)
      (a.excluded.shown hs) := by
  have denoted : ∀ u : UnionTerms, u.Evaluable hs (lone h.all) →
      u.expr.Denotes hs (lone (u.shown hs)) := fun u evaluable =>
    evaluable.value_eq ▸ (evaluable.term_expr regular.discrete_lone).denotes
  exact ⟨denoted _ fine.roots, denoted _ fine.drills, denoted _ fine.undrills,
    denoted _ fine.excluded⟩

/-- What the set shows, said by drilling and by what is removed. -/
theorem Evaluable.shown_eq (fine : a.Evaluable hs h) : a.shown hs h =
    {m | Expr.Drilled hs (a.roots.shown hs) (a.drills.shown hs) m} \
      (below hs (a.undrills.shown hs) ∪ a.excluded.shown hs) := by
  have within := fine.roots.shown_subset
  ext m
  simp only [shown, Set.mem_sdiff, Set.mem_ofPred_eq, Set.mem_union,
    Expr.drilled_iff_opened regular found within fine.drills.shown_subset]
  refine and_congr_right fun opened => not_congr (or_congr_left ?_)
  have member := opened.mem_of_roots within
  refine exists_congr fun u => and_congr_right fun given => ?_
  have inside := fine.undrills.shown_subset given
  rw [← regular.isAncestorOf_iff inside member]
  simp [Expr.findHierarchy_of_mem regular found inside, member]

omit regular found in
theorem listed?_expr {ms : List Member} (shape : UnionTerms.listed? a.expr = some ms) :
    ms = [] ∨ a.roots.expr? = some a.expr := by
  unfold expr at shape ⊢
  cases base : a.base? with
  | none =>
    rw [base] at shape
    cases shape
    exact Or.inl rfl
  | some opened =>
    rw [base] at shape
    cases removed : a.removed? with
    | some gone =>
      rw [removed] at shape
      cases shape
    | none =>
      rw [removed] at shape
      obtain ⟨roots, some, rfl⟩ := Option.map_eq_some_iff.mp base
      cases drilled : a.drills.expr? with
      | none => exact Or.inr some
      | some drills =>
        rw [drilled] at shape
        cases shape

/-- The expression of an axis set evaluates, to the members the set shows. -/
theorem Evaluable.term_expr (fine : a.Evaluable hs h) :
    a.expr.Term hs (lone h.all) (lone (a.shown hs h)) where
  denotes := by
    rw [fine.shown_eq regular found]
    exact (fine.parts regular).denotes_expr (Expr.scope_all regular found) fine.roots.shown_subset
      fine.undrills.shown_subset fine.excluded.shown_subset
  within := lone_mono fine.shown_subset
  listed ms shape := by
    rcases listed?_expr shape with rfl | roots
    · exact fun m none => absurd none List.not_mem_nil
    · exact (fine.roots.term_expr? regular.discrete_lone roots).listed ms shape

theorem Evaluable.evaluate_expr (fine : a.Evaluable hs h) :
    ∃ ms : List Member, a.expr.evaluate hs = .ok (ms.map ([·])) ∧
      ∀ m, m ∈ ms ↔ m ∈ a.shown hs h :=
  (fine.term_expr regular found).denotes.members

theorem Evaluable.denotes_expr {P : Member → Prop} (fine : a.Evaluable hs h)
    (shown : ∀ m, m ∈ a.shown hs h ↔ P m) : a.expr.Denotes hs (lone {m | P m}) := by
  have same : a.shown hs h = {m | P m} := Set.ext shown
  exact same ▸ (fine.term_expr regular found).denotes

end

end AxisSet
end CubeAxis
