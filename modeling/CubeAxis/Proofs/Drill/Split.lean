import CubeAxis.Proofs.Drill.Cross

namespace CubeAxis

/-- The tuples with a member of `S d` for each dimension `d`. -/
def tuplesOf (S : Dimension → Set Member) (ds : List Dimension) : Set Tuple :=
  {tuple | List.Forall₂ (fun d m => m ∈ S d) ds tuple}

theorem tuplesOf_nil (S : Dimension → Set Member) : tuplesOf S [] = {[]} := by
  ext tuple
  exact List.forall₂_nil_left_iff

theorem tuplesOf_cons (S : Dimension → Set Member) (d : Dimension) (ds : List Dimension) :
    tuplesOf S (d :: ds) = Expr.product (lone (S d)) (tuplesOf S ds) := by
  ext tuple
  constructor
  · intro chosen
    obtain ⟨m, rest, first, later, rfl⟩ := List.forall₂_cons_left_iff.mp chosen
    exact ⟨[m], singleton_mem_lone.mpr first, rest, later, rfl⟩
  · intro chosen
    obtain ⟨x, first, rest, later, rfl⟩ := chosen
    obtain ⟨m, inside, rfl⟩ := mem_lone.mp first
    exact List.Forall₂.cons inside later

/-- A dimension without members to choose from leaves no tuples. -/
theorem tuplesOf_of_void {S : Dimension → Set Member} {ds : List Dimension}
    (void : ∃ e ∈ ds, S e = ∅) : tuplesOf S ds = ∅ := by
  induction ds with
  | nil =>
    obtain ⟨e, mem, _⟩ := void
    exact absurd mem List.not_mem_nil
  | cons d ds ih =>
    obtain ⟨e, mem, nothing⟩ := void
    rw [tuplesOf_cons]
    rcases List.mem_cons.mp mem with rfl | later
    · rw [nothing, lone_empty, Expr.empty_product]
    · rw [ih ⟨e, later, nothing⟩, Expr.product_empty]

namespace DrillTree

/-- The tuples that are visible throughout. -/
def visibleTuples (t : DrillTree) (ds : List Dimension) : Set Tuple :=
  {tuple | t.Visible ds tuple}

variable {t : DrillTree} {d : Dimension} {ds : List Dimension} {m : Member} {tuple : Tuple}

theorem drilledAt_empty (path : List Member) : empty.drilledAt path = [] :=
  drilledAt_eq_nil rfl rfl path

theorem after_empty (m : Member) : empty.after m = empty := rfl

theorem visibleTuples_singleton : t.visibleTuples [d] = lone (d.shown t.drilled) := by
  ext tuple
  rw [mem_lone]
  constructor
  · intro visible
    obtain ⟨m, rest, rfl, inside, first, later⟩ := visible.exists_cons
    exact ⟨m, ⟨inside, first⟩, congrArg (m :: ·) (visible_nil.mp later)⟩
  · intro given
    obtain ⟨m, ⟨inside, visible⟩, rfl⟩ := given
    exact visible_cons.mpr ⟨inside, visible, visible_nil.mpr rfl⟩

theorem visibleTuples_of_shown_eq_empty (nothing : d.shown t.drilled = ∅) :
    t.visibleTuples (d :: ds) = ∅ := by
  refine Set.eq_empty_iff_forall_notMem.mpr fun tuple visible => ?_
  obtain ⟨m, rest, rfl, inside, first, _⟩ := Visible.exists_cons visible
  exact (Set.eq_empty_iff_forall_notMem.mp nothing) m ⟨inside, first⟩

theorem visibleTuples_empty : empty.visibleTuples ds = tuplesOf (·.shown []) ds := by
  ext tuple
  change empty.Visible ds tuple ↔ List.Forall₂ (fun d m => m ∈ d.shown []) ds tuple
  induction ds generalizing tuple with
  | nil => exact visible_nil.trans List.forall₂_nil_left_iff.symm
  | cons d ds ih =>
    cases tuple with
    | nil => exact iff_of_false not_visible_cons_nil (nomatch ·)
    | cons m rest =>
      rw [visible_cons, List.forall₂_cons, after_empty, ih, ← and_assoc]
      rfl

/-- A node has recorded positions below it and its member is shown. -/
def opensBelow (d : Dimension) (drilled : List Member) :
    Member × List Member × Forest (List Member) → Bool :=
  fun (m, ms, children) => (!ms.isEmpty || children.anyDrilled) && d.onAxis.isVisible drilled m

section

variable {hs : List Hierarchy} (aligned : t.Aligned (d.hierarchy :: hs))

include aligned

theorem Aligned.mem_of_mem_trees {ms : List Member} {children : Forest (List Member)}
    (node : (m, ms, children) ∈ t.below.trees) : m ∈ d.hierarchy.members :=
  (aligned.below.of_mem_trees node).1 d.hierarchy rfl

variable (regular : d.hierarchy.Regular)

include regular

theorem Aligned.after_of_mem_trees {ms : List Member} {children : Forest (List Member)}
    (node : (m, ms, children) ∈ t.below.trees) : t.after m = ⟨ms, children⟩ := by
  have discrete : Discrete (Forest.Rule.axis.allows (d.hierarchy :: hs)) :=
    fun a b left right same =>
      (regular.beq_iff (left d.hierarchy rfl) (right d.hierarchy rfl)).mp same
  unfold DrillTree.after
  rw [aligned.below.find?_of_mem_trees discrete node]
  rfl

/-- Without a node that opens, nothing is recorded below a shown member. -/
theorem Aligned.drilledAt_after (shown : m ∈ d.shown t.drilled)
    (closed : ∀ node ∈ t.below.trees, opensBelow d t.drilled node = true → node.1 ≠ m)
    (path : List Member) : (t.after m).drilledAt path = empty.drilledAt path := by
  rw [drilledAt_empty]
  cases found : t.below.find? [m] with
  | none =>
    have nothing : t.after m = empty := by simp [DrillTree.after, found]
    rw [nothing, drilledAt_empty]
  | some node =>
    obtain ⟨k, same, mem⟩ := Forest.mem_trees_of_find? found
    obtain rfl := (regular.beq_iff (aligned.mem_of_mem_trees mem) shown.1).mp same
    rw [aligned.after_of_mem_trees regular mem]
    have quiet : opensBelow d t.drilled (k, node.1, node.2) = false :=
      Bool.eq_false_iff.mpr fun opened => closed _ mem opened rfl
    simp only [opensBelow, shown.2, Bool.and_true, Bool.or_eq_false_iff, Bool.not_eq_false',
      List.isEmpty_iff] at quiet
    exact drilledAt_eq_nil quiet.1 quiet.2 path

/-- A visible tuple starts with a member without positions below it, or with the
member of a node that opens. -/
theorem Aligned.visibleTuples_cons : t.visibleTuples (d :: ds) =
    Expr.product (lone (d.shown t.drilled \
        {m | ∃ node ∈ t.below.trees.filter (opensBelow d t.drilled), node.1 = m}))
      (empty.visibleTuples ds) ∪
    {tuple | ∃ node ∈ t.below.trees.filter (opensBelow d t.drilled),
      tuple ∈ Expr.product {[node.1]} (visibleTuples ⟨node.2.1, node.2.2⟩ ds)} := by
  ext tuple
  constructor
  · intro visible
    obtain ⟨m, rest, rfl, inside, first, later⟩ := visible.exists_cons
    by_cases opened : ∃ node ∈ t.below.trees.filter (opensBelow d t.drilled), node.1 = m
    · obtain ⟨⟨k, ms, children⟩, node, rfl⟩ := opened
      rw [aligned.after_of_mem_trees regular (List.mem_of_mem_filter node)] at later
      exact Or.inr ⟨_, node, [k], rfl, rest, later, rfl⟩
    · have closed := aligned.drilledAt_after regular ⟨inside, first⟩ fun node mem opens same =>
        opened ⟨node, List.mem_filter.mpr ⟨mem, opens⟩, same⟩
      have bare : empty.Visible ds rest := (visible_congr closed).mp later
      exact Or.inl ⟨[m], singleton_mem_lone.mpr ⟨⟨inside, first⟩, opened⟩, rest, bare, rfl⟩
  · intro given
    rcases given with ⟨x, first, rest, later, rfl⟩ |
      ⟨⟨m, ms, children⟩, node, x, first, rest, later, rfl⟩
    · obtain ⟨m, ⟨shown, apart⟩, rfl⟩ := mem_lone.mp first
      have closed := aligned.drilledAt_after regular shown fun node mem opens same =>
        apart ⟨node, List.mem_filter.mpr ⟨mem, opens⟩, same⟩
      exact visible_cons.mpr ⟨shown.1, shown.2, (visible_congr closed).mpr later⟩
    · cases first
      obtain ⟨mem, opens⟩ := List.mem_filter.mp node
      refine visible_cons.mpr ⟨aligned.mem_of_mem_trees mem, ?_, ?_⟩
      · exact ((Bool.and_eq_true _ _).mp opens).2
      · rw [aligned.after_of_mem_trees regular mem]
        exact later

end

end DrillTree
end CubeAxis
