import CubeAxis.Proofs.Drill.Axis

namespace CubeAxis
namespace Expr

/-- Not written as a tuple, and without tuples if it evaluates at all. -/
structure Barren (hs : List Hierarchy) (e : Expr) : Prop where
  form : e.tupleElements? = none
  value : ∀ ts, e.evaluate hs = .ok ts → ts = []

variable {hs : List Hierarchy} {e l r : Expr}

theorem Denotes.barren (nothing : e.Denotes hs ∅) : e.Barren hs := by
  obtain ⟨us, run, none⟩ := nothing
  have empty : us = [] := List.eq_nil_iff_forall_not_mem.mpr fun t mem => (none t).mp mem
  subst empty
  refine ⟨?_, fun ts again => ?_⟩
  · cases shape : e.tupleElements? with
    | none => rfl
    | some es =>
      rw [evaluate_of_tupleElements shape] at run
      obtain ⟨parts, _, single⟩ := evaluate_tuple_eq_ok.mp run
      cases single
  · cases run.symm.trans again
    rfl

theorem Barren.form?_ne_tuple (barren : e.Barren hs) : e.form? ≠ some .tuple := by
  intro tuple
  have form := barren.form
  cases e with
  | call kind name args =>
    cases tuple
    cases form
  | _ => cases tuple

theorem barren_emptySet : emptySet.Barren hs :=
  denotes_emptySet.barren

theorem barren_crossJoin (either : l.Barren hs ∨ r.Barren hs) : (crossJoin l r).Barren hs := by
  refine ⟨rfl, fun ts run => ?_⟩
  change evalCrossJoin ⟨l, l.evaluate hs⟩ ⟨r, r.evaluate hs⟩ = _ at run
  rw [evalCrossJoin, bind_eq_ok] at run
  obtain ⟨right, ranR, run⟩ := run
  rw [bind_eq_ok] at run
  obtain ⟨left, ranL, same⟩ := run
  cases same
  rcases either with barren | barren
  · rw [barren.value left ranL]
    rfl
  · rw [barren.value right ranR]
    have none : left.flatMap (fun t => ([] : List Tuple).map (t ++ ·)) = [] := by simp
    rw [none]
    rfl

theorem barren_join (either : l.Barren hs ∨ r.Barren hs) : (l.join r).Barren hs := by
  unfold join
  split
  · rename_i ls rs shapeL shapeR
    rcases either with barren | barren
    · cases shapeL.symm.trans barren.form
    · cases shapeR.symm.trans barren.form
  · exact barren_crossJoin either

theorem barren_union (left : l.Barren hs) (right : r.Barren hs) : (union l r).Barren hs := by
  refine ⟨rfl, fun ts run => ?_⟩
  change evalUnion ⟨l, l.evaluate hs⟩ ⟨r, r.evaluate hs⟩ = _ at run
  rw [evalUnion, bind_eq_ok] at run
  obtain ⟨ls, ranL, run⟩ := run
  rw [bind_eq_ok] at run
  obtain ⟨rs, ranR, same⟩ := run
  cases same
  rw [left.value ls ranL, right.value rs ranR]
  rfl

/-- Members listed outright are evaluated. -/
theorem Barren.listed (barren : e.Barren hs) {ms : List Member}
    (shape : UnionTerms.listed? e = some ms) : ms = [] := by
  unfold UnionTerms.listed? at shape
  split at shape
  · cases barren.form
  · rw [UnionTerms.memberList?_eq_some.mp shape] at barren
    have none := barren.value _ (evaluate_members ms)
    cases ms with
    | nil => rfl
    | cons m ms => cases none
  · cases shape

end Expr

namespace CrossJoin

variable {hs : List Hierarchy} {c : CrossJoin} {e : Expr} {es : List Expr}

/-- Something was joined that has no tuples. -/
def Barren (hs : List Hierarchy) (c : CrossJoin) : Prop :=
  ∃ e, c.expr? = some e ∧ e.Barren hs

theorem Barren.join (barren : c.Barren hs) (e : Expr) : (c.join e).Barren hs := by
  obtain ⟨left, shape, none⟩ := barren
  refine ⟨left.join e, ?_, Expr.barren_join (Or.inl none)⟩
  rw [CrossJoin.join, shape]
  rfl

theorem barren_join (none : e.Barren hs) : (c.join e).Barren hs := by
  cases shape : c.expr? with
  | none =>
    refine ⟨e, ?_, none⟩
    rw [CrossJoin.join, shape]
    rfl
  | some left =>
    refine ⟨left.join e, ?_, Expr.barren_join (Or.inr none)⟩
    rw [CrossJoin.join, shape]
    rfl

theorem Barren.joinAll (barren : c.Barren hs) : (c.joinAll es).Barren hs := by
  induction es generalizing c with
  | nil => exact barren
  | cons e es ih => exact ih (barren.join e)

theorem barren_joinAll (mem : e ∈ es) (none : e.Barren hs) : (c.joinAll es).Barren hs := by
  induction es generalizing c with
  | nil => exact absurd mem List.not_mem_nil
  | cons k es ih =>
    rcases List.mem_cons.mp mem with rfl | later
    · exact (barren_join none).joinAll
    · exact ih later

end CrossJoin

namespace UnionTerms

variable {hs : List Hierarchy} {u : UnionTerms} {e : Expr}

/-- No term has tuples. -/
structure Barren (hs : List Hierarchy) (u : UnionTerms) : Prop where
  members : u.members = []
  others : ∀ e ∈ u.others, e.Barren hs

theorem Barren.empty : ({} : UnionTerms).Barren hs :=
  ⟨rfl, fun _ mem => absurd mem List.not_mem_nil⟩

theorem Barren.add (barren : u.Barren hs) (none : e.Barren hs) : (u.add e).Barren hs := by
  unfold UnionTerms.add
  cases shape : listed? e with
  | some ms => exact ⟨by rw [barren.members, none.listed shape]; rfl, barren.others⟩
  | none =>
    exact ⟨barren.members, List.forall_mem_append.mpr
      ⟨barren.others, List.forall_mem_singleton.mpr none⟩⟩

theorem Barren.expr (barren : u.Barren hs) : u.expr.Barren hs := by
  have folded : ∀ (es : List Expr) (e : Expr), e.Barren hs → (∀ k ∈ es, k.Barren hs) →
      (es.foldl Expr.union e).Barren hs := by
    intro es
    induction es with
    | nil => exact fun e none _ => none
    | cons k es ih =>
      intro e none rest
      obtain ⟨first, others⟩ := List.forall_mem_cons.mp rest
      exact ih _ (Expr.barren_union none first) others
  obtain ⟨members, others⟩ := u
  obtain ⟨none, each⟩ := barren
  cases none
  cases others with
  | nil => exact Expr.barren_emptySet
  | cons e es =>
    obtain ⟨first, rest⟩ := List.forall_mem_cons.mp each
    exact folded es e first rest

end UnionTerms

namespace DrillTree

variable {hs : List Hierarchy} {c : CrossJoin} {u : UnionTerms} {d : Dimension}
  {ds : List Dimension} {t : DrillTree}

theorem addTerm_barren (crossed : c.Barren hs) (barren : u.Barren hs) :
    (addTerms.addTerm c u).Barren hs := by
  obtain ⟨e, shape, none⟩ := crossed
  rw [addTerms.addTerm, shape]
  exact barren.add none

/-- Nothing is recorded for a hierarchy without members. -/
theorem Aligned.eq_nil {later : List Hierarchy} (aligned : t.Aligned (d.hierarchy :: later))
    (void : d.hierarchy.members = []) : t.drilled = [] ∧ t.below.trees = [] := by
  refine ⟨List.eq_nil_iff_forall_not_mem.mpr fun m mem => ?_,
    List.eq_nil_iff_forall_not_mem.mpr fun node mem => ?_⟩
  · have inside := aligned.drilled m mem d.hierarchy rfl
    rw [void] at inside
    exact List.not_mem_nil inside
  · obtain ⟨m, ms, children⟩ := node
    have inside := aligned.mem_of_mem_trees mem
    rw [void] at inside
    exact List.not_mem_nil inside

/-- A dimension over a hierarchy without members leaves no term with tuples. -/
theorem addTerms_barren
    (void : ∃ e ∈ d :: ds, e.hierarchy.members = [] ∧ e.onAxis.fullExpr.Denotes hs ∅)
    (aligned : t.Aligned ((d :: ds).map (·.hierarchy))) (barren : u.Barren hs) :
    (addTerms c d.onAxis (ds.map fun e => (e.onAxis, e.onAxis.fullExpr)) t.drilled t.below u).Barren
      hs := by
  obtain ⟨e, mem, none, nothing⟩ := void
  induction ds generalizing d t c u with
  | nil =>
    obtain rfl := List.mem_singleton.mp mem
    obtain ⟨drilled, _⟩ := aligned.eq_nil none
    simp only [List.map_nil, addTerms, drilled]
    split
    · exact barren
    · exact addTerm_barren (CrossJoin.barren_join nothing.barren) barren
  | cons next rest ih =>
    simp only [List.map_cons, List.map_map, addTerms]
    split
    · exact barren
    · rcases List.mem_cons.mp mem with rfl | later
      · obtain ⟨drilled, trees⟩ := aligned.eq_nil none
        simp only [drilled, trees, List.filter_nil, List.foldl_nil]
        split
        · exact barren
        · exact addTerm_barren (CrossJoin.barren_join nothing.barren).joinAll barren
      · refine List.foldlRecOn (motive := UnionTerms.Barren hs) _ _ ?_ fun v sofar node among => ?_
        · split
          · exact barren
          · have listed : e.onAxis.fullExpr ∈ (next :: rest).map fun k => k.onAxis.fullExpr :=
              List.mem_map_of_mem later
            exact addTerm_barren (CrossJoin.barren_joinAll listed nothing.barren) barren
        · obtain ⟨m, ms, children⟩ := node
          obtain ⟨_, listed, below⟩ := aligned.below.of_mem_trees (List.mem_of_mem_filter among)
          exact ih (t := ⟨ms, children⟩) ⟨listed, below⟩ sofar later

/-- An axis with a hierarchy without members shows nothing if it evaluates at all. -/
theorem axisExpr_barren
    (void : ∃ e ∈ ds, e.hierarchy.members = [] ∧ e.onAxis.fullExpr.Denotes hs ∅)
    (aligned : t.Aligned (ds.map (·.hierarchy))) : (t.axisExpr (ds.map (·.onAxis))).Barren hs := by
  cases ds with
  | nil =>
    obtain ⟨e, mem, _⟩ := void
    exact absurd mem List.not_mem_nil
  | cons d rest =>
    have union := (addTerms_barren (c := {}) void aligned UnionTerms.Barren.empty).expr
    simp only [List.map_cons, axisExpr, List.map_map]
    split
    · rename_i tuple
      exact absurd tuple union.form?_ne_tuple
    · exact union

theorem visibleTuples_of_memberless (void : ∃ d ∈ ds, d.hierarchy.members = []) :
    t.visibleTuples ds = ∅ := by
  refine Set.eq_empty_iff_forall_notMem.mpr fun tuple visible => ?_
  obtain ⟨d, mem, none⟩ := void
  have chosen := visible.1
  clear visible
  induction chosen with
  | nil => exact List.not_mem_nil mem
  | cons inside _ ih =>
    rcases List.mem_cons.mp mem with rfl | later
    · rw [none] at inside
      exact List.not_mem_nil inside
    · exact ih later

end DrillTree
end CubeAxis
