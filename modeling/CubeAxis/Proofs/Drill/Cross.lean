import CubeAxis.Proofs.Drill.Visible
import CubeAxis.Proofs.Resolution.Exact

namespace CubeAxis

/-- Members of the first hierarchies, one of each. -/
def Tuple.Along : List Hierarchy → Tuple → Prop
  | _, [] => True
  | [], _ :: _ => False
  | h :: hs, m :: t => m ∈ h.members ∧ Along hs t

theorem Tuple.along_nil (hs : List Hierarchy) : Along hs [] := by
  cases hs <;> trivial

/-- The tuples over the first hierarchies of `hs`. -/
def tuplesAlong (hs : List Hierarchy) : Set Tuple :=
  {t | Tuple.Along hs t}

theorem lone_subset_tuplesAlong (h : Hierarchy) (hs : List Hierarchy) :
    lone h.all ⊆ tuplesAlong (h :: hs) := by
  intro t mem
  obtain ⟨m, inside, rfl⟩ := mem_lone.mp mem
  exact ⟨inside, Tuple.along_nil hs⟩

theorem product_subset_tuplesAlong {h : Hierarchy} {hs : List Hierarchy} {A : Set Tuple}
    (within : A ⊆ lone h.all) : Expr.product A (tuplesAlong hs) ⊆ tuplesAlong (h :: hs) := by
  intro t mem
  obtain ⟨x, first, y, rest, rfl⟩ := mem
  obtain ⟨m, inside, rfl⟩ := mem_lone.mp (within first)
  exact ⟨inside, rest⟩

theorem Tuple.along_discrete {hs : List Hierarchy} (regular : ∀ h ∈ hs, h.Regular) :
    Discrete (· ∈ tuplesAlong hs) := by
  induction hs with
  | nil =>
    intro a b left right _
    cases a <;> cases b <;> first | rfl | exact left.elim | exact right.elim
  | cons h hs ih =>
    intro a b left right same
    cases a with
    | nil => cases b <;> first | rfl | cases same
    | cons m t =>
      cases b with
      | nil => cases same
      | cons k u =>
        rw [List.cons_beq_cons, Bool.and_eq_true] at same
        have first := ((regular h List.mem_cons_self).beq_iff left.1 right.1).mp same.1
        have rest := ih (fun g mem => regular g (List.mem_cons_of_mem _ mem)) t u left.2 right.2 same.2
        rw [first, rest]

namespace CrossJoin

open CubeAxis.Expr

/-- The joined expressions denote `T`. Before the first one `T` is the empty tuple. -/
structure Spans (hs : List Hierarchy) (Ω : Set Tuple) (c : CrossJoin) (T : Set Tuple) : Prop where
  start : c.expr? = none → T = {[]}
  term : ∀ e, c.expr? = some e → e.Term hs Ω T

variable {hs : List Hierarchy} {Ω Φ T A : Set Tuple} {c : CrossJoin} {e : Expr}

theorem Spans.empty : ({} : CrossJoin).Spans hs Ω {[]} :=
  ⟨fun _ => rfl, fun _ some => nomatch some⟩

theorem Spans.join (discrete : Discrete (· ∈ Ω)) (spans : c.Spans hs Ω T) (term : e.Term hs Φ A)
    (inside : product T Φ ⊆ Ω) : (c.join e).Spans hs Ω (product T A) := by
  refine ⟨fun none => absurd none (Option.some_ne_none _), fun whole shape => ?_⟩
  cases shape
  have within : product T A ⊆ Ω := (product_mono term.within).trans inside
  cases before : c.expr? with
  | none =>
    rw [spans.start before, product_singleton_nil] at inside
    rw [spans.start before, product_singleton_nil]
    exact term.mono inside
  | some left =>
    refine ⟨(spans.term left before).denotes.join discrete term.denotes within, within, ?_⟩
    intro ms listed
    rw [Option.elim_some, listed?_join] at listed
    cases listed

end CrossJoin

namespace Dimension

/-- The members shown when the given ones are recorded. -/
def shown (d : Dimension) (positions : List Member) : Set Member :=
  {m | m ∈ d.hierarchy.members ∧ d.onAxis.isVisible positions m = true}

/-- Over `hs` the dimension resolves to what it shows. -/
structure Resolves (hs : List Hierarchy) (d : Dimension) : Prop where
  regular : d.hierarchy.Regular
  tells : d.mode.Tells d.hierarchy
  found : Expr.findHierarchy hs d.hierarchy.name = .ok d.hierarchy
  hung : d.selection.overrides.Hung d.hierarchy none

variable {hs : List Hierarchy} {d : Dimension} {positions : List Member}

theorem Resolves.evaluable (resolves : d.Resolves hs)
    (recorded : ∀ m ∈ positions, m ∈ d.hierarchy.members) :
    (d.onAxis.resolve positions).Evaluable hs d.hierarchy ∧
      (d.onAxis.resolve positions).shown hs d.hierarchy = d.shown positions := by
  obtain ⟨regular, tells, found, hung⟩ := resolves
  obtain ⟨fine, shown⟩ := AxisDimension.resolve_shown (d := d.onAxis) regular rfl tells found hung
    recorded
  exact ⟨fine, Set.ext shown⟩

theorem Resolves.term_fullExpr (resolves : d.Resolves hs) :
    d.onAxis.fullExpr.Term hs (lone d.hierarchy.all) (lone (d.shown [])) := by
  have nothing : ∀ m ∈ ([] : List Member), m ∈ d.hierarchy.members :=
    fun _ mem => absurd mem List.not_mem_nil
  obtain ⟨fine, shown⟩ := resolves.evaluable nothing
  rw [← shown]
  exact fine.term_expr resolves.regular resolves.found

end Dimension
end CubeAxis
