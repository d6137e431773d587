import CubeAxis.Proofs.Drill.Axis

namespace CubeAxis
namespace Expr

/-- No two tuples of the value equal each other by name. -/
def Tidy (hs : List Hierarchy) (e : Expr) : Prop :=
  ∀ ts, e.evaluate hs = .ok ts → Discrete (· ∈ ts)

variable {hs : List Hierarchy} {e l r : Expr}

theorem tidy_brace (es : List Expr) : (brace es).Tidy hs := by
  intro ts run
  change evalBrace _ = _ at run
  rw [evalBrace, bind_eq_ok] at run
  obtain ⟨parts, _, same⟩ := run
  cases same
  exact discrete_distinct (α := Tuple) _

theorem tidy_crossJoin (l r : Expr) : (crossJoin l r).Tidy hs := by
  intro ts run
  change evalCrossJoin ⟨l, l.evaluate hs⟩ ⟨r, r.evaluate hs⟩ = _ at run
  rw [evalCrossJoin, bind_eq_ok] at run
  obtain ⟨right, _, run⟩ := run
  rw [bind_eq_ok] at run
  obtain ⟨left, _, same⟩ := run
  cases same
  exact discrete_distinct (α := Tuple) _

theorem tidy_join (l r : Expr) : (l.join r).Tidy hs := by
  unfold join
  split
  · intro ts run
    obtain ⟨parts, _, rfl⟩ := evaluate_tuple_eq_ok.mp run
    intro a b left right _
    rw [List.mem_singleton.mp left, List.mem_singleton.mp right]
  · exact tidy_crossJoin l r

theorem tidy_add (tidy : e.Tidy hs) : (({} : UnionTerms).add e).expr.Tidy hs := by
  unfold UnionTerms.add
  split
  · rename_i ms _
    cases ms <;> exact tidy_brace _
  · exact tidy

end Expr

theorem CrossJoin.tidy_joinAll {hs : List Hierarchy} {c : CrossJoin} {es : List Expr}
    (first : ∀ e, c.expr? = some e → e.Tidy hs) (each : ∀ e ∈ es, e.Tidy hs) :
    ∀ e, (c.joinAll es).expr? = some e → e.Tidy hs := by
  induction es generalizing c with
  | nil => exact first
  | cons e es ih =>
    refine ih (fun k shape => ?_) fun k mem => each k (List.mem_cons_of_mem _ mem)
    cases shape
    cases c.expr? with
    | none => exact each e List.mem_cons_self
    | some left => exact Expr.tidy_join left e

namespace DrillTree

open CubeAxis.Expr

variable {hs : List Hierarchy} {Ω : Set Tuple} {c : CrossJoin} {u : UnionTerms} {d : Dimension}
  {ds : List Dimension} {S : Dimension → Set Member}

/-- Without recorded positions all members share one term. -/
theorem addTerms_bare (c : CrossJoin) (d : Dimension) (ds : List Dimension) (u : UnionTerms) :
    addTerms c d.onAxis (ds.map fun e => (e.onAxis, e.onAxis.fullExpr)) [] .nil u =
      if (d.onAxis.resolve []).isEmpty then u
      else if (ds.map fun e => e.onAxis.fullExpr).any Expr.isEmptySet then u
      else addTerms.addTerm
        ((c.join d.onAxis.fullExpr).joinAll (ds.map fun e => e.onAxis.fullExpr)) u := by
  cases ds with
  | nil => rfl
  | cons next rest =>
    simp only [List.map_cons, addTerms, Forest.trees, List.filter_nil, List.foldl_nil, List.map_map]
    rfl

/-- Without recorded positions an axis denotes the cross product of its dimensions,
whatever these show. -/
theorem axisExpr_empty_denotes (any : ds ≠ []) (regular : ∀ d ∈ ds, d.hierarchy.Regular)
    (terms : ∀ d ∈ ds, d.onAxis.fullExpr.Term hs (lone d.hierarchy.all) (lone (S d))) :
    (empty.axisExpr (ds.map (·.onAxis))).Denotes hs (tuplesOf S ds) := by
  have discrete := discrete_tuplesAlong regular
  cases ds with
  | nil => exact absurd rfl any
  | cons d rest =>
    have first := terms d List.mem_cons_self
    have gains : UnionTerms.Gains hs (tuplesAlong ((d :: rest).map (·.hierarchy))) {}
        (tuplesOf S (d :: rest))
        (addTerms {} d.onAxis (rest.map fun e => (e.onAxis, e.onAxis.fullExpr)) [] .nil {}) := by
      rw [addTerms_bare, tuplesOf_cons]
      split
      · rename_i bare
        have literal : d.onAxis.fullExpr.isEmptySet = true := by
          rw [AxisDimension.fullExpr, AxisSet.expr_of_isEmpty bare]
          rfl
        refine UnionTerms.Evaluable.empty.gains_nothing ?_
        rw [first.denotes.empty_of_isEmptySet literal, empty_product]
      · have shared := shared_gains discrete first (fun e mem => terms e (List.mem_cons_of_mem _ mem))
          CrossJoin.Spans.empty (product_singleton_nil _).subset UnionTerms.Evaluable.empty
        rwa [product_singleton_nil] at shared
    have term := gains.evaluable.term_expr discrete
    rw [gains.value, UnionTerms.value_empty, Set.empty_union] at term
    simp only [List.map_cons, axisExpr, List.map_map]
    exact wrapped_denotes discrete term

theorem axisExpr_empty_tidy (tidy : ∀ d ∈ ds, d.onAxis.fullExpr.Tidy hs) :
    (empty.axisExpr (ds.map (·.onAxis))).Tidy hs := by
  cases ds with
  | nil => exact tidy_brace []
  | cons d rest =>
    have union : (addTerms {} d.onAxis (rest.map fun e => (e.onAxis, e.onAxis.fullExpr)) [] .nil
        {}).expr.Tidy hs := by
      rw [addTerms_bare]
      split
      · exact tidy_brace []
      · split
        · exact tidy_brace []
        · have exprs : ∀ e ∈ (d :: rest).map fun k => k.onAxis.fullExpr, e.Tidy hs := by
            intro e listed
            obtain ⟨k, mem, rfl⟩ := List.mem_map.mp listed
            exact tidy k mem
          have start : ∀ e, ({} : CrossJoin).expr? = some e → e.Tidy hs :=
            fun e none => nomatch none
          have joined := CrossJoin.tidy_joinAll start exprs
          unfold addTerms.addTerm
          cases shape : ((({} : CrossJoin).join d.onAxis.fullExpr).joinAll
              (rest.map fun k => k.onAxis.fullExpr)).expr? with
          | none => exact tidy_brace []
          | some e => exact tidy_add (joined e shape)
    simp only [List.map_cons, axisExpr, List.map_map]
    split
    · exact tidy_brace _
    · exact union

end DrillTree
end CubeAxis
