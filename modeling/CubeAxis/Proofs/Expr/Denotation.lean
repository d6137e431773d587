import CubeAxis.Expr.CrossJoin
import CubeAxis.Expr.Evaluation
import CubeAxis.Proofs.Hierarchy
import Mathlib.Data.Set.Lattice

namespace CubeAxis

theorem bind_eq_ok {ε α β : Type} {x : Except ε α} {f : α → Except ε β} {b : β} :
    x >>= f = .ok b ↔ ∃ a, x = .ok a ∧ f a = .ok b := by
  cases x <;> simp [bind, Except.bind]

theorem mapM_eq_ok {ε α β : Type} {f : α → Except ε β} {g : α → β} {as : List α}
    (all : ∀ a ∈ as, f a = .ok (g a)) : as.mapM f = .ok (as.map g) := by
  induction as with
  | nil => rfl
  | cons a as ih =>
    rw [List.mapM_cons, all a List.mem_cons_self,
      ih (fun b mem => all b (List.mem_cons_of_mem _ mem))]
    rfl

/-- The one-member tuples of a set of members. -/
def lone (s : Set Member) : Set Tuple :=
  (fun m => [m]) '' s

@[simp]
theorem singleton_mem_lone {s : Set Member} {m : Member} : [m] ∈ lone s ↔ m ∈ s := by
  simp [lone]

theorem mem_lone {s : Set Member} {t : Tuple} : t ∈ lone s ↔ ∃ m ∈ s, t = [m] := by
  simp only [lone, Set.mem_image, eq_comm]

theorem lone_mono {s u : Set Member} (sub : s ⊆ u) : lone s ⊆ lone u :=
  Set.image_mono sub

theorem lone_injective : Function.Injective lone :=
  Set.image_injective.mpr fun _ _ same => (List.cons.inj same).1

theorem lone_empty : lone ∅ = ∅ :=
  Set.image_empty _

theorem lone_union (s u : Set Member) : lone (s ∪ u) = lone s ∪ lone u :=
  Set.image_union ..

theorem lone_diff (s u : Set Member) : lone (s \ u) = lone s \ lone u :=
  Set.image_sdiff (fun _ _ same => (List.cons.inj same).1) s u

theorem eq_map_singleton {ts : List Tuple} (all : ∀ t ∈ ts, ∃ m, t = [m]) :
    ∃ ms : List Member, ts = ms.map ([·]) := by
  induction ts with
  | nil => exact ⟨[], rfl⟩
  | cons t ts ih =>
    obtain ⟨m, rfl⟩ := all t List.mem_cons_self
    obtain ⟨ms, rfl⟩ := ih fun u mem => all u (List.mem_cons_of_mem _ mem)
    exact ⟨m :: ms, rfl⟩

theorem Tuple.beq_singleton (a b : Member) : (([a] : Tuple) == [b]) = (a == b) := by
  simp [BEq.beq, List.beq]

namespace Expr

/-- Over `hs` the expression evaluates, and the tuples it gives are those of `T`. -/
def Denotes (hs : List Hierarchy) (e : Expr) (T : Set Tuple) : Prop :=
  ∃ ts, e.evaluate hs = .ok ts ∧ ∀ t, t ∈ ts ↔ t ∈ T

variable {hs : List Hierarchy} {e l r : Expr} {T A B C Ω : Set Tuple}

theorem Denotes.unique {U : Set Tuple} (first : e.Denotes hs T) (second : e.Denotes hs U) :
    T = U := by
  obtain ⟨ts, run, mem⟩ := first
  obtain ⟨us, again, mem'⟩ := second
  cases run.symm.trans again
  ext t
  rw [← mem, mem']

theorem denotes_emptySet : emptySet.Denotes hs ∅ :=
  ⟨[], rfl, by simp⟩

theorem Denotes.empty_of_isEmptySet (empty : e.isEmptySet = true) (value : e.Denotes hs T) :
    T = ∅ := by
  unfold isEmptySet at empty
  split at empty
  · exact value.unique ⟨[], rfl, by simp⟩
  · cases empty

/-- A set in braces denotes what its only element does. -/
theorem Denotes.brace (discrete : Discrete (· ∈ Ω)) (value : e.Denotes hs T) (within : T ⊆ Ω) :
    (brace [e]).Denotes hs T := by
  obtain ⟨ts, run, mem⟩ := value
  refine ⟨distinct ts, ?_, fun t => ?_⟩
  · change evalBrace [⟨e, e.evaluate hs⟩] = _
    rw [run]
    simp [evalBrace, bind, Except.bind, pure, Except.pure]
  · rw [discrete.mem_distinct fun u inside => within ((mem u).mp inside), mem]

theorem Denotes.union (discrete : Discrete (· ∈ Ω)) (left : l.Denotes hs A)
    (right : r.Denotes hs B) (inA : A ⊆ Ω) (inB : B ⊆ Ω) : (union l r).Denotes hs (A ∪ B) := by
  obtain ⟨ls, runL, memL⟩ := left
  obtain ⟨rs, runR, memR⟩ := right
  refine ⟨distinct (ls ++ rs), ?_, fun t => ?_⟩
  · change evalUnion ⟨l, l.evaluate hs⟩ ⟨r, r.evaluate hs⟩ = _
    rw [runL, runR]
    rfl
  · rw [discrete.mem_distinct, List.mem_append, memL, memR, Set.mem_union]
    intro u inside
    rcases List.mem_append.mp inside with first | second
    · exact inA ((memL u).mp first)
    · exact inB ((memR u).mp second)

theorem Denotes.except (discrete : Discrete (· ∈ Ω)) (left : l.Denotes hs A)
    (right : r.Denotes hs B) (inA : A ⊆ Ω) (inB : B ⊆ Ω) : (except l r).Denotes hs (A \ B) := by
  obtain ⟨ls, runL, memL⟩ := left
  obtain ⟨rs, runR, memR⟩ := right
  refine ⟨ls.filter fun t => !rs.contains t, ?_, fun t => ?_⟩
  · change evalExcept ⟨l, l.evaluate hs⟩ ⟨r, r.evaluate hs⟩ = _
    rw [runL, runR]
    rfl
  · rw [List.mem_filter, memL, Set.mem_sdiff, ← memR]
    refine and_congr_right fun inside => ?_
    rw [Bool.not_eq_true', ← Bool.not_eq_true,
      discrete.contains_iff (fun u mem => inB ((memR u).mp mem)) (inA inside)]

/-- Pairs of tuples written one after the other. -/
def product (A B : Set Tuple) : Set Tuple :=
  {t | ∃ x ∈ A, ∃ y ∈ B, t = x ++ y}

theorem product_assoc (A B C : Set Tuple) : product (product A B) C = product A (product B C) := by
  ext t
  constructor
  · intro given
    obtain ⟨_, ⟨x, inA, y, inB, rfl⟩, z, inC, rfl⟩ := given
    exact ⟨x, inA, y ++ z, ⟨y, inB, z, inC, rfl⟩, List.append_assoc x y z⟩
  · intro given
    obtain ⟨x, inA, _, ⟨y, inB, z, inC, rfl⟩, rfl⟩ := given
    exact ⟨x ++ y, ⟨x, inA, y, inB, rfl⟩, z, inC, (List.append_assoc x y z).symm⟩

theorem product_singleton_nil (A : Set Tuple) : product {[]} A = A := by
  ext t
  simp [product]

theorem product_nil_singleton (A : Set Tuple) : product A {[]} = A := by
  ext t
  simp [product]

theorem product_empty (A : Set Tuple) : product A ∅ = ∅ := by
  ext t
  simp [product]

theorem empty_product (A : Set Tuple) : product ∅ A = ∅ := by
  ext t
  simp [product]

theorem product_singletons (x y : Tuple) : product {x} {y} = {x ++ y} := by
  ext t
  simp [product]

theorem product_mono (sub : B ⊆ C) : product A B ⊆ product A C := by
  intro t given
  obtain ⟨x, inA, y, inB, rfl⟩ := given
  exact ⟨x, inA, y, sub inB, rfl⟩

theorem product_union (A B C : Set Tuple) : product A (B ∪ C) = product A B ∪ product A C := by
  ext t
  constructor
  · intro given
    obtain ⟨x, inA, y, inB | inC, rfl⟩ := given
    · exact Or.inl ⟨x, inA, y, inB, rfl⟩
    · exact Or.inr ⟨x, inA, y, inC, rfl⟩
  · intro given
    rcases given with ⟨x, inA, y, inB, rfl⟩ | ⟨x, inA, y, inC, rfl⟩
    · exact ⟨x, inA, y, Or.inl inB, rfl⟩
    · exact ⟨x, inA, y, Or.inr inC, rfl⟩

theorem Denotes.crossJoin (discrete : Discrete (· ∈ Ω)) (left : l.Denotes hs A)
    (right : r.Denotes hs B) (within : product A B ⊆ Ω) :
    (crossJoin l r).Denotes hs (product A B) := by
  obtain ⟨ls, runL, memL⟩ := left
  obtain ⟨rs, runR, memR⟩ := right
  have pairs : ∀ t, (t ∈ ls.flatMap fun x => rs.map (x ++ ·)) ↔ t ∈ product A B := by
    intro t
    simp only [List.mem_flatMap, List.mem_map, memL, memR, product, Set.mem_ofPred_eq, eq_comm]
  refine ⟨distinct (ls.flatMap fun x => rs.map (x ++ ·)), ?_, fun t => ?_⟩
  · change evalCrossJoin ⟨l, l.evaluate hs⟩ ⟨r, r.evaluate hs⟩ = _
    rw [runL, runR]
    rfl
  · rw [discrete.mem_distinct fun u inside => within ((pairs u).mp inside), pairs]

theorem arguments_eq_map (es : List Expr) :
    arguments hs es = es.map fun e => ⟨e, e.evaluate hs⟩ := by
  induction es with
  | nil => rfl
  | cons e es ih => rw [arguments, ih, List.map_cons]

/-- The one tuple an argument of a tuple evaluates to. -/
def onlyTuple (a : Argument) : Except EvalError Tuple := do
  match ← a.value with
  | [t] => pure t
  | _ => throw .notSingleTuple

theorem evaluate_tuple_eq_ok {es : List Expr} {ts : List Tuple} :
    (tuple es).evaluate hs = .ok ts ↔
      ∃ parts, (arguments hs es).mapM onlyTuple = .ok parts ∧ ts = [parts.flatten] := by
  change (do return [(← (arguments hs es).mapM onlyTuple).flatten]) = _ ↔ _
  cases run : (arguments hs es).mapM onlyTuple with
  | error e => simp [bind, Except.bind]
  | ok parts => simp [bind, Except.bind, pure, Except.pure, eq_comm]

theorem evaluate_of_tupleElements {es : List Expr} (shape : e.tupleElements? = some es) :
    e.evaluate hs = (tuple es).evaluate hs := by
  unfold tupleElements? at shape
  split at shape <;> cases shape <;> rfl

theorem Denotes.tuple_append {ls rs : List Expr} (left : (tuple ls).Denotes hs A)
    (right : (tuple rs).Denotes hs B) : (tuple (ls ++ rs)).Denotes hs (product A B) := by
  obtain ⟨_, runL, memL⟩ := left
  obtain ⟨_, runR, memR⟩ := right
  obtain ⟨ps, evalL, rfl⟩ := evaluate_tuple_eq_ok.mp runL
  obtain ⟨qs, evalR, rfl⟩ := evaluate_tuple_eq_ok.mp runR
  refine ⟨[(ps ++ qs).flatten], evaluate_tuple_eq_ok.mpr ⟨ps ++ qs, ?_, rfl⟩, fun t => ?_⟩
  · rw [arguments_eq_map, List.map_append, List.mapM_append, ← arguments_eq_map,
      ← arguments_eq_map, evalL, evalR]
    rfl
  · simp only [product, Set.mem_ofPred_eq, ← memL, ← memR, List.mem_singleton, exists_eq_left,
      List.flatten_append]

/-- Joining is the cross product, however it is written. -/
theorem Denotes.join (discrete : Discrete (· ∈ Ω)) (left : l.Denotes hs A) (right : r.Denotes hs B)
    (within : product A B ⊆ Ω) : (l.join r).Denotes hs (product A B) := by
  unfold Expr.join
  split
  · rename_i ls rs shapeL shapeR
    refine Denotes.tuple_append ?_ ?_
    · rwa [Denotes, ← evaluate_of_tupleElements shapeL]
    · rwa [Denotes, ← evaluate_of_tupleElements shapeR]
  · exact left.crossJoin discrete right within

/-- The members of a set expression, as the list it evaluates to. -/
theorem Denotes.members {s : Set Member} (value : e.Denotes hs (lone s)) :
    ∃ ms : List Member, e.evaluate hs = .ok (ms.map ([·])) ∧ ∀ m, m ∈ ms ↔ m ∈ s := by
  obtain ⟨ts, run, mem⟩ := value
  obtain ⟨ms, rfl⟩ := eq_map_singleton fun t inside => by
    obtain ⟨m, _, rfl⟩ := mem_lone.mp ((mem t).mp inside)
    exact ⟨m, rfl⟩
  refine ⟨ms, run, fun m => ?_⟩
  rw [← singleton_mem_lone, ← mem, List.mem_map]
  exact ⟨fun inside => ⟨m, inside, rfl⟩, fun ⟨k, inside, same⟩ => (List.cons.inj same).1 ▸ inside⟩

theorem mapM_single (ms : List Member) : (ms.map ([·])).mapM single = .ok ms := by
  induction ms with
  | nil => rfl
  | cons m ms ih =>
    rw [List.map_cons, List.mapM_cons, ih]
    rfl

theorem Denotes.argument_members {s : Set Member} (value : e.Denotes hs (lone s)) :
    ∃ ms, (⟨e, e.evaluate hs⟩ : Argument).members = .ok ms ∧ ∀ m, m ∈ ms ↔ m ∈ s := by
  obtain ⟨ms, run, mem⟩ := value.members
  refine ⟨ms, ?_, mem⟩
  change (e.evaluate hs >>= fun ts => ts.mapM single) = _
  rw [run]
  exact mapM_single ms

end Expr
end CubeAxis
