import CubeAxis.Proofs.Expr.Operation

namespace CubeAxis
namespace Expr

variable {hs : List Hierarchy}

theorem unrepeated_members {h : Hierarchy} (unique : (h.members.map Member.uniqueName).Nodup) :
    Unrepeated h.members := by
  refine (List.pairwise_map.mp unique).imp fun {a b} other => ?_
  rw [← Bool.not_eq_true, Member.beq_iff]
  exact other

theorem unrepeated_map_singleton {ms : List Member} :
    Unrepeated (ms.map fun m => ([m] : Tuple)) ↔ Unrepeated ms :=
  unrepeated_map Tuple.beq_singleton

/-- Most operations free their value from repetition. Of the others, a tuple stands alone, the
members of a level stand once each in their hierarchy, and a difference is a part of its left
side. -/
theorem Operation.unrepeated {args : List Argument} {value : Except EvalError (List Tuple)}
    (op : Operation hs args value) (unique : ∀ h ∈ hs, (h.members.map Member.uniqueName).Nodup)
    (clean : ∀ a ∈ args, Ends Unrepeated (fun _ => True) a.value) :
    Ends Unrepeated (fun _ => True) value := by
  cases op with
  | brace => exact ends_true.bind fun _ _ => unrepeated_distinct _
  | tuple => exact ends_true.bind fun _ _ => unrepeated_singleton _
  | levelMembers l =>
    cases found : findHierarchy hs l.hierarchy with
    | error e =>
      rw [evalLevelMembers, found]
      trivial
    | ok h =>
      rw [evalLevelMembers, found]
      have once := unrepeated_members (unique h (mem_of_findHierarchy found).1)
      exact unrepeated_map_singleton.mpr (once.filter _)
  | children => exact ends_true.bind fun _ _ => ends_true.bind fun _ _ => unrepeated_distinct _
  | union => exact ends_true.bind fun _ _ => ends_true.bind fun _ _ => unrepeated_distinct _
  | except left right =>
    exact ends_true.bind fun _ _ => (clean left List.mem_cons_self).bind fun _ once => once.filter _
  | crossJoin => exact ends_true.bind fun _ _ => ends_true.bind fun _ _ => unrepeated_distinct _
  | descendants => exact ends_true.bind fun _ _ => ends_true.bind fun _ _ => unrepeated_distinct _
  | drilldown =>
    refine ends_true.bind fun _ _ => ends_true.bind fun _ _ => ?_
    exact ends_true.bind fun _ _ => unrepeated_distinct _
  | refused => trivial

theorem ends_unrepeated (unique : ∀ h ∈ hs, (h.members.map Member.uniqueName).Nodup) (e : Expr) :
    Ends Unrepeated (fun _ => True) (e.evaluate hs) := by
  induction e using Expr.induction with
  | member m => exact unrepeated_singleton _
  | level | number | symbol => trivial
  | call form name args ih =>
    exact (operation_evalCall form name _).unrepeated unique (forall_arguments ih)

/-- Evaluation repeats nothing: no tuple of an expression equals another one, and neither does
a member, where members of one hierarchy do not share unique names. -/
theorem evaluate_unrepeated (unique : ∀ h ∈ hs, (h.members.map Member.uniqueName).Nodup)
    (e : Expr) :
    (∀ ts, e.evaluate hs = .ok ts → Unrepeated ts) ∧
      ∀ ms, e.evaluateMembers hs = .ok ms → Unrepeated ms := by
  have clean := ends_unrepeated unique e
  refine ⟨fun ts run => clean.of_ok run, fun ms run => ?_⟩
  exact unrepeated_map_singleton.mp (clean.of_ok (evaluateMembers_eq_ok.mp run))

/-- A cross join whose parts have different lengths comes by one tuple in two ways. -/
theorem evaluate_unrepeated_calendar :
    let year := Expr.member .year
    let january := Expr.member .january
    let joined :=
      crossJoin (brace [year, tuple [year, january]]) (brace [tuple [january, year], year])
    let ts : List Tuple :=
      [[.year, .january, .year], [.year, .year], [.year, .january, .january, .year]]
    joined.evaluate [.calendar] = .ok ts ∧ Unrepeated ts := by
  intro year january joined ts
  have unique : ∀ h ∈ [Hierarchy.calendar], (h.members.map Member.uniqueName).Nodup := by decide
  have run : joined.evaluate [.calendar] = .ok ts := by rfl
  exact ⟨run, (evaluate_unrepeated unique joined).1 ts run⟩

end Expr
end CubeAxis
