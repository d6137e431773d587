import CubeAxis.Proofs.Expr.Sets

namespace CubeAxis

/-- A tuple equals a concatenation where it is cut into parts that equal the parts. -/
theorem Tuple.beq_append_iff {t x y : Tuple} :
    (t == x ++ y) = true ↔ ∃ a b, t = a ++ b ∧ (a == x) = true ∧ (b == y) = true := by
  simp only [Member.list_beq_iff, List.map_append]
  constructor
  · intro same
    obtain ⟨a, b, rfl, first, second⟩ := List.map_eq_append_iff.mp same
    exact ⟨a, b, rfl, first, second⟩
  · rintro ⟨a, b, rfl, first, second⟩
    rw [List.map_append, first, second]

namespace Expr

/-- Over `hs` the expression has a value. -/
def Evaluates (hs : List Hierarchy) (e : Expr) : Prop :=
  ∃ ts, e.evaluate hs = .ok ts

/-- The tuples an expression gives, told by equality of tuples; none where it has no value. -/
def tuples (hs : List Hierarchy) (e : Expr) : Set Tuple :=
  {t | ∃ ts, e.evaluate hs = .ok ts ∧ ts.contains t = true}

/-- Over `hs` the expression has a value of single members, all of them in `K`. -/
def HasMembersIn (hs : List Hierarchy) (K : Set Member) (e : Expr) : Prop :=
  ∃ ms, e.evaluateMembers hs = .ok ms ∧ ∀ m ∈ ms, m ∈ K

/-- The single members an expression gives; none where it has no such value. -/
def memberSet (hs : List Hierarchy) (e : Expr) : Set Member :=
  {m | ∃ ms, e.evaluateMembers hs = .ok ms ∧ m ∈ ms}

variable {hs : List Hierarchy} {e l r : Expr} {ts : List Tuple} {t : Tuple}

theorem HasMembersIn.evaluates {K : Set Member} (value : e.HasMembersIn hs K) : e.Evaluates hs :=
  value.elim fun _ found => ⟨_, evaluateMembers_eq_ok.mp found.1⟩

theorem mem_memberSet {ms : List Member} {m : Member} (run : e.evaluateMembers hs = .ok ms) :
    m ∈ e.memberSet hs ↔ m ∈ ms := by
  constructor
  · rintro ⟨ks, again, member⟩
    cases run.symm.trans again
    exact member
  · exact fun member => ⟨ms, run, member⟩

theorem mem_memberSet_member {m k : Member} : k ∈ (member m).memberSet hs ↔ k = m := by
  have run : (member m).evaluateMembers hs = .ok [m] := rfl
  rw [mem_memberSet run, List.mem_singleton]

theorem HasMembersIn.subset {K : Set Member} (value : e.HasMembersIn hs K) : e.memberSet hs ⊆ K := by
  obtain ⟨ms, run, within⟩ := value
  exact fun m mem => within m ((mem_memberSet run).mp mem)

/-- Where the value is of single members, it is made up of just these. -/
theorem HasMembersIn.mem_iff {K : Set Member} (value : e.HasMembersIn hs K)
    (run : e.evaluate hs = .ok ts) : t ∈ ts ↔ t ∈ lone (e.memberSet hs) := by
  obtain ⟨ms, members, _⟩ := value
  cases run.symm.trans (evaluateMembers_eq_ok.mp members)
  simp only [List.mem_map, mem_lone, mem_memberSet members, eq_comm]

theorem evaluates_of_mem_tuples (mem : t ∈ e.tuples hs) : e.Evaluates hs :=
  mem.imp fun _ found => found.1

theorem mem_tuples (run : e.evaluate hs = .ok ts) : t ∈ e.tuples hs ↔ ts.contains t = true := by
  constructor
  · rintro ⟨us, again, found⟩
    cases run.symm.trans again
    exact found
  · exact fun found => ⟨ts, run, found⟩

/-- Among tuples without equal ones the value is known by what it holds up to equality. -/
theorem denotes_of_tuples {T Ω : Set Tuple} (discrete : Discrete (· ∈ Ω)) (within : T ⊆ Ω)
    (run : e.evaluate hs = .ok ts) (sound : ∀ t ∈ ts, t ∈ T) (complete : T ⊆ e.tuples hs) :
    e.Denotes hs T := by
  refine ⟨ts, run, fun t => ⟨sound t, fun mem => ?_⟩⟩
  have found := (mem_tuples run).mp (complete mem)
  exact (discrete.contains_iff (fun u kept => within (sound u kept)) (within mem)).mp found

theorem lone_memberSet_subset : lone (e.memberSet hs) ⊆ e.tuples hs := by
  intro t mem
  obtain ⟨m, ⟨ms, members, member⟩, rfl⟩ := mem_lone.mp mem
  refine (mem_tuples (evaluateMembers_eq_ok.mp members)).mpr ?_
  exact List.contains_iff_exists_mem_beq.mpr ⟨[m], List.mem_map_of_mem member, BEq.rfl⟩

theorem evaluates_members (ms : List Member) : (members ms).Evaluates hs :=
  ⟨_, evaluate_members ms⟩

theorem mem_tuples_members {ms : List Member} :
    t ∈ (members ms).tuples hs ↔ ∃ m ∈ ms, (t == [m]) = true := by
  rw [mem_tuples (evaluate_members ms), singletons, contains_distinct,
    List.contains_iff_exists_mem_beq]
  simp only [List.mem_map, exists_exists_and_eq_and]

theorem mem_tuples_member {m : Member} : t ∈ (member m).tuples hs ↔ (t == [m]) = true := by
  have run : (member m).evaluate hs = .ok [[m]] := rfl
  rw [mem_tuples run, List.contains_cons, List.contains_nil, Bool.or_false]

theorem evaluate_union_eq_ok : (union l r).evaluate hs = .ok ts ↔
    ∃ ls, l.evaluate hs = .ok ls ∧ ∃ rs, r.evaluate hs = .ok rs ∧ distinct (ls ++ rs) = ts := by
  change evalUnion ⟨l, l.evaluate hs⟩ ⟨r, r.evaluate hs⟩ = _ ↔ _
  simp only [evalUnion, bind_eq_ok, pure, Except.pure, Except.ok.injEq]

theorem evaluates_union : (union l r).Evaluates hs ↔ l.Evaluates hs ∧ r.Evaluates hs := by
  constructor
  · rintro ⟨ts, run⟩
    obtain ⟨ls, runL, rs, runR, _⟩ := evaluate_union_eq_ok.mp run
    exact ⟨⟨ls, runL⟩, rs, runR⟩
  · rintro ⟨⟨ls, runL⟩, rs, runR⟩
    exact ⟨_, evaluate_union_eq_ok.mpr ⟨ls, runL, rs, runR, rfl⟩⟩

theorem tuples_union (both : (union l r).Evaluates hs) :
    (union l r).tuples hs = l.tuples hs ∪ r.tuples hs := by
  obtain ⟨ts, run⟩ := both
  obtain ⟨ls, runL, rs, runR, rfl⟩ := evaluate_union_eq_ok.mp run
  ext t
  rw [Set.mem_union, mem_tuples run, mem_tuples runL, mem_tuples runR, contains_distinct,
    List.contains_append, Bool.or_eq_true]

theorem evaluate_crossJoin_eq_ok : (crossJoin l r).evaluate hs = .ok ts ↔
    ∃ rs, r.evaluate hs = .ok rs ∧ ∃ ls, l.evaluate hs = .ok ls ∧
      distinct (ls.flatMap fun x => rs.map (x ++ ·)) = ts := by
  change evalCrossJoin ⟨l, l.evaluate hs⟩ ⟨r, r.evaluate hs⟩ = _ ↔ _
  simp only [evalCrossJoin, bind_eq_ok, pure, Except.pure, Except.ok.injEq]

theorem evaluates_crossJoin : (crossJoin l r).Evaluates hs ↔ l.Evaluates hs ∧ r.Evaluates hs := by
  constructor
  · rintro ⟨ts, run⟩
    obtain ⟨rs, runR, ls, runL, _⟩ := evaluate_crossJoin_eq_ok.mp run
    exact ⟨⟨ls, runL⟩, rs, runR⟩
  · rintro ⟨⟨ls, runL⟩, rs, runR⟩
    exact ⟨_, evaluate_crossJoin_eq_ok.mpr ⟨rs, runR, ls, runL, rfl⟩⟩

theorem mem_product_tuples {ls rs : List Tuple} (runL : l.evaluate hs = .ok ls)
    (runR : r.evaluate hs = .ok rs) :
    t ∈ product (l.tuples hs) (r.tuples hs) ↔
      ∃ x ∈ ls, ∃ y ∈ rs, (t == x ++ y) = true := by
  simp only [product, Set.mem_ofPred_eq, mem_tuples runL, mem_tuples runR,
    List.contains_iff_exists_mem_beq, Tuple.beq_append_iff]
  constructor
  · rintro ⟨a, ⟨x, inL, first⟩, b, ⟨y, inR, second⟩, rfl⟩
    exact ⟨x, inL, y, inR, a, b, rfl, first, second⟩
  · rintro ⟨x, inL, y, inR, a, b, rfl, first, second⟩
    exact ⟨a, ⟨x, inL, first⟩, b, ⟨y, inR, second⟩, rfl⟩

theorem tuples_of_fails (fails : ¬ e.Evaluates hs) : e.tuples hs = ∅ :=
  Set.eq_empty_of_forall_notMem fun _ mem => fails (evaluates_of_mem_tuples mem)

/-- An expression whose two sides have to have values gives nothing where one has none. -/
theorem tuples_eq_product (sides : e.Evaluates hs ↔ l.Evaluates hs ∧ r.Evaluates hs)
    (value : e.Evaluates hs → e.tuples hs = product (l.tuples hs) (r.tuples hs)) :
    e.tuples hs = product (l.tuples hs) (r.tuples hs) := by
  by_cases runs : e.Evaluates hs
  · exact value runs
  · rw [tuples_of_fails runs, eq_comm, Set.eq_empty_iff_forall_notMem]
    rintro t ⟨x, left, y, right, rfl⟩
    exact runs (sides.mpr ⟨evaluates_of_mem_tuples left, evaluates_of_mem_tuples right⟩)

theorem tuples_crossJoin :
    (crossJoin l r).tuples hs = product (l.tuples hs) (r.tuples hs) := by
  refine tuples_eq_product evaluates_crossJoin ?_
  rintro ⟨ts, run⟩
  obtain ⟨rs, runR, ls, runL, rfl⟩ := evaluate_crossJoin_eq_ok.mp run
  ext t
  rw [mem_tuples run, contains_distinct, List.contains_iff_exists_mem_beq,
    mem_product_tuples runL runR]
  simp only [List.mem_flatMap, List.mem_map]
  constructor
  · rintro ⟨_, ⟨x, inL, y, inR, rfl⟩, same⟩
    exact ⟨x, inL, y, inR, same⟩
  · rintro ⟨x, inL, y, inR, same⟩
    exact ⟨x ++ y, ⟨x, inL, y, inR, rfl⟩, same⟩

theorem mapM_append_eq_ok {ε α β : Type} {f : α → Except ε β} {as bs : List α} {cs : List β} :
    (as ++ bs).mapM f = .ok cs ↔
      ∃ ps, as.mapM f = .ok ps ∧ ∃ qs, bs.mapM f = .ok qs ∧ ps ++ qs = cs := by
  rw [List.mapM_append]
  simp only [bind_eq_ok, pure, Except.pure, Except.ok.injEq]

/-- A tuple written as two parts is evaluated part by part. -/
theorem evaluate_tuple_append_eq_ok {ls rs : List Expr} :
    (tuple (ls ++ rs)).evaluate hs = .ok ts ↔
      ∃ x, (tuple ls).evaluate hs = .ok [x] ∧ ∃ y, (tuple rs).evaluate hs = .ok [y] ∧
        [x ++ y] = ts := by
  simp only [evaluate_tuple_eq_ok, arguments_eq_map, List.map_append, mapM_append_eq_ok]
  constructor
  · rintro ⟨_, ⟨ps, left, qs, right, rfl⟩, rfl⟩
    exact ⟨ps.flatten, ⟨ps, left, rfl⟩, qs.flatten, ⟨qs, right, rfl⟩, by rw [List.flatten_append]⟩
  · rintro ⟨x, ⟨ps, left, atX⟩, y, ⟨qs, right, atY⟩, rfl⟩
    obtain rfl := List.singleton_inj.mp atX
    obtain rfl := List.singleton_inj.mp atY
    exact ⟨ps ++ qs, ⟨ps, left, qs, right, rfl⟩, by rw [List.flatten_append]⟩

theorem evaluates_tuple_append {ls rs : List Expr} : (tuple (ls ++ rs)).Evaluates hs ↔
    (tuple ls).Evaluates hs ∧ (tuple rs).Evaluates hs := by
  constructor
  · rintro ⟨ts, run⟩
    obtain ⟨x, left, y, right, _⟩ := evaluate_tuple_append_eq_ok.mp run
    exact ⟨⟨_, left⟩, _, right⟩
  · rintro ⟨⟨us, left⟩, vs, right⟩
    obtain ⟨ps, _, rfl⟩ := evaluate_tuple_eq_ok.mp left
    obtain ⟨qs, _, rfl⟩ := evaluate_tuple_eq_ok.mp right
    exact ⟨_, evaluate_tuple_append_eq_ok.mpr ⟨_, left, _, right, rfl⟩⟩

theorem tuples_tuple_append {ls rs : List Expr} : (tuple (ls ++ rs)).tuples hs =
    product ((tuple ls).tuples hs) ((tuple rs).tuples hs) := by
  refine tuples_eq_product evaluates_tuple_append ?_
  rintro ⟨ts, run⟩
  obtain ⟨x, left, y, right, rfl⟩ := evaluate_tuple_append_eq_ok.mp run
  ext t
  rw [mem_tuples run, mem_product_tuples left right]
  simp [List.contains_cons]

theorem evaluates_of_tupleElements {es : List Expr} (shape : e.tupleElements? = some es) :
    e.Evaluates hs ↔ (tuple es).Evaluates hs := by
  rw [Evaluates, evaluate_of_tupleElements shape, Evaluates]

theorem tuples_of_tupleElements {es : List Expr} (shape : e.tupleElements? = some es) :
    e.tuples hs = (tuple es).tuples hs := by
  rw [tuples, evaluate_of_tupleElements shape, tuples]

theorem evaluates_join : (l.join r).Evaluates hs ↔ l.Evaluates hs ∧ r.Evaluates hs := by
  unfold join
  split
  · rename_i ls rs shapeL shapeR
    rw [evaluates_tuple_append, evaluates_of_tupleElements shapeL,
      evaluates_of_tupleElements shapeR]
  · exact evaluates_crossJoin

/-- The tuple that joining writes where it can gives what the cross join would. -/
theorem tuples_join : (l.join r).tuples hs = product (l.tuples hs) (r.tuples hs) := by
  unfold join
  split
  · rename_i ls rs shapeL shapeR
    rw [tuples_tuple_append, tuples_of_tupleElements shapeL, tuples_of_tupleElements shapeR]
  · exact tuples_crossJoin

end Expr
end CubeAxis
