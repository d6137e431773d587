import CubeAxis.Proofs.Expr.Values
import Mathlib.Data.List.Forall2

namespace CubeAxis
namespace Expr

/-- An expression that can be written inside a tuple: a member, a member alone in braces
or a tuple. `args` is what it contributes. -/
inductive Flat : Expr → (args : List Expr) → Prop
  | member (m : Member) : Flat (member m) [member m]
  | braced (name : String) (m : Member) : Flat (call .brace name [member m]) [member m]
  | tuple (name : String) (args : List Expr) : Flat (call .tuple name args) args

/-- A tuple of each expression, in order, written one after the other. -/
def catenations (hs : List Hierarchy) (es : List Expr) : Set Tuple :=
  {t | ∃ parts, List.Forall₂ (fun e part => part ∈ e.tuples hs) es parts ∧ t = parts.flatten}

variable {hs : List Hierarchy} {e : Expr} {args : List Expr}

theorem Flat.tupleElements?_eq (flat : e.Flat args) : e.tupleElements? = some args := by
  cases flat <;> rfl

theorem catenations_nil : catenations hs [] = {[]} := by
  ext t
  simp [catenations]

theorem catenations_cons (e : Expr) (es : List Expr) :
    catenations hs (e :: es) = product (e.tuples hs) (catenations hs es) := by
  ext t
  constructor
  · rintro ⟨_, _ | ⟨first, later⟩, rfl⟩
    exact ⟨_, first, _, ⟨_, later, rfl⟩, rfl⟩
  · rintro ⟨part, first, _, ⟨parts, later, rfl⟩, rfl⟩
    exact ⟨part :: parts, .cons first later, rfl⟩

theorem evaluates_foldl_join (e : Expr) (es : List Expr) :
    (es.foldl join e).Evaluates hs ↔ ∀ k ∈ e :: es, k.Evaluates hs := by
  induction es generalizing e with
  | nil => simp
  | cons k es ih =>
    rw [List.foldl_cons, ih, List.forall_mem_cons, evaluates_join, List.forall_mem_cons,
      List.forall_mem_cons, and_assoc]

theorem tuples_foldl_join (e : Expr) (es : List Expr) :
    (es.foldl join e).tuples hs = catenations hs (e :: es) := by
  induction es generalizing e with
  | nil => rw [List.foldl_nil, catenations_cons, catenations_nil, product_nil_singleton]
  | cons k es ih =>
    rw [List.foldl_cons, ih, catenations_cons, tuples_join, product_assoc, catenations_cons,
      catenations_cons]

theorem Flat.join_eq {r : Expr} {ls rs : List Expr} (left : e.Flat ls) (right : r.Flat rs) :
    e.join r = Expr.tuple (ls ++ rs) := by
  simp only [join, left.tupleElements?_eq, right.tupleElements?_eq]

/-- What fits in a tuple is joined to a tuple. -/
theorem foldl_join_of_flat {es : List Expr} {parts : List (List Expr)}
    (flat : List.Forall₂ Flat es parts) (args : List Expr) :
    es.foldl join (Expr.tuple args) = Expr.tuple (args ++ parts.flatten) := by
  induction flat generalizing args with
  | nil => rw [List.foldl_nil, List.flatten_nil, List.append_nil]
  | @cons e part es parts first _ ih =>
    have step : (Expr.tuple args).join e = Expr.tuple (args ++ part) :=
      (Flat.tuple "()" args).join_eq first
    rw [List.foldl_cons, step, ih, List.flatten_cons, List.append_assoc]

end Expr

namespace CrossJoin

theorem joinAll_cons (e : Expr) (es : List Expr) :
    (joinAll {} (e :: es)).expr? = some (es.foldl Expr.join e) := by
  change (joinAll ⟨some e⟩ es).expr? = _
  induction es generalizing e with
  | nil => rfl
  | cons k es ih => exact ih (e.join k)

/-- Joining one expression after the other has a value if all of them have one, and is
then their cross product. Where each of several fits in a tuple, it is written as one. -/
theorem joinAll_denotes (hs : List Hierarchy) (e : Expr) (es : List Expr) :
    ∃ x, (joinAll {} (e :: es)).expr? = some x ∧
      (x.Evaluates hs ↔ ∀ k ∈ e :: es, k.Evaluates hs) ∧
      x.tuples hs = Expr.catenations hs (e :: es) ∧
      ∀ parts, es ≠ [] → List.Forall₂ Expr.Flat (e :: es) parts → x = Expr.tuple parts.flatten := by
  refine ⟨_, joinAll_cons e es, Expr.evaluates_foldl_join e es, Expr.tuples_foldl_join e es, ?_⟩
  rintro _ several (_ | ⟨left, _ | ⟨right, later⟩⟩)
  · exact absurd rfl several
  · rw [List.foldl_cons, left.join_eq right, Expr.foldl_join_of_flat later, List.append_assoc]
    rfl

/-- A member, a member in braces and a tuple of two members are joined to one tuple. -/
theorem joinAll_denotes_calendar :
    (joinAll {} [.member .year, Expr.members [.january],
        Expr.tuple [.member .year, .member .february]]).expr? =
      some (Expr.tuple [.member .year, .member .january, .member .year, .member .february]) := by
  obtain ⟨x, built, _, _, flat⟩ := joinAll_denotes [.calendar] (.member .year)
    [Expr.members [.january], Expr.tuple [.member .year, .member .february]]
  rw [built, flat _ (List.cons_ne_nil _ _)
    (.cons (.member _) (.cons (.braced _ _) (.cons (.tuple _ _) .nil)))]
  rfl

end CrossJoin
end CubeAxis
