import CubeAxis.Expr.Union
import CubeAxis.Proofs.Expr.Union
import CubeAxis.Proofs.Expr.Values

namespace CubeAxis

/-- A call on a union under construction. -/
inductive UnionCall where
  | add (e : Expr)
  | addMember (m : Member)

/-- The expression a call adds. -/
def UnionCall.expr : UnionCall → Expr
  | add e => e
  | addMember m => .member m

namespace Expr

def member? : Expr → Option Member
  | member m => some m
  | _ => none

/-- Whether an expression is a member or a brace set of nothing but members. -/
def isListing : Expr → Bool
  | member _ => true
  | call .brace _ args => args.all fun arg => arg.member?.isSome
  | _ => false

/-- The members written in an expression, in order. -/
def listing : Expr → List Member
  | member m => [m]
  | call _ _ args => args.filterMap member?
  | _ => []

/-- The members in braces, in front of the left fold of the other terms by binary
unions. A part that is empty is left out. -/
def unionOf? : List Member → List Expr → Option Expr
  | [], [] => none
  | m :: ms, [] => some (members (m :: ms))
  | [], o :: os => some (os.foldl union o)
  | m :: ms, o :: os => some (union (members (m :: ms)) (os.foldl union o))

mutual

/-- The number of `Union` calls in an expression. -/
def unions : Expr → Nat
  | call form name args => unionsIn args + if form = .function ∧ name = "Union" then 1 else 0
  | _ => 0

def unionsIn : List Expr → Nat
  | [] => 0
  | e :: es => e.unions + unionsIn es

end

variable {hs : List Hierarchy} {e l r : Expr} {t : Tuple}

@[simp]
theorem unions_union : (union l r).unions = l.unions + r.unions + 1 := by
  simp [union, function, unions, unionsIn]

@[simp]
theorem unions_members (ms : List Member) : (members ms).unions = 0 := by
  have none : unionsIn (ms.map member) = 0 := by
    induction ms with
    | nil => rfl
    | cons m ms ih =>
      rw [List.map_cons, unionsIn, ih]
      rfl
  simp [members, brace, unions, none]

theorem unions_foldl (e : Expr) (es : List Expr) :
    (es.foldl union e).unions = e.unions + unionsIn es + es.length := by
  induction es generalizing e with
  | nil => rfl
  | cons k es ih =>
    rw [List.foldl_cons, ih, unions_union, unionsIn, List.length_cons]
    omega

theorem evaluates_foldl (e : Expr) (es : List Expr) :
    (es.foldl union e).Evaluates hs ↔ e.Evaluates hs ∧ ∀ k ∈ es, k.Evaluates hs := by
  induction es generalizing e with
  | nil => simp
  | cons k es ih => rw [List.foldl_cons, ih, evaluates_union, List.forall_mem_cons, and_assoc]

theorem mem_tuples_foldl (e : Expr) {es : List Expr} (runs : (es.foldl union e).Evaluates hs) :
    t ∈ (es.foldl union e).tuples hs ↔ t ∈ e.tuples hs ∨ ∃ k ∈ es, t ∈ k.tuples hs := by
  induction es generalizing e with
  | nil => simp
  | cons k es ih =>
    rw [List.foldl_cons] at runs ⊢
    rw [ih _ runs, tuples_union ((evaluates_foldl _ _).mp runs).1, Set.mem_union, or_assoc]
    simp

/-- The value of a union is made up of the very tuples of its terms. -/
theorem mem_of_evaluate_foldl {es : List Expr} {ts : List Tuple}
    (run : (es.foldl union e).evaluate hs = .ok ts) (mem : t ∈ ts) :
    ∃ k ∈ e :: es, ∃ us, k.evaluate hs = .ok us ∧ t ∈ us := by
  induction es generalizing e with
  | nil => exact ⟨e, List.mem_cons_self, ts, run, mem⟩
  | cons k es ih =>
    obtain ⟨o, listed, us, value, inside⟩ := ih run
    rcases List.mem_cons.mp listed with rfl | later
    · obtain ⟨ls, runL, rs, runR, rfl⟩ := evaluate_union_eq_ok.mp value
      rcases List.mem_append.mp (mem_of_mem_distinct inside) with left | right
      · exact ⟨e, List.mem_cons_self, ls, runL, left⟩
      · exact ⟨k, List.mem_cons_of_mem _ List.mem_cons_self, rs, runR, right⟩
    · exact ⟨o, List.mem_cons_of_mem _ (List.mem_cons_of_mem _ later), us, value, inside⟩

theorem unionOf?_eq_none {ms : List Member} {os : List Expr} :
    unionOf? ms os = none ↔ ms = [] ∧ os = [] := by
  cases ms <;> cases os <;> simp [unionOf?]

variable {ms : List Member} {os : List Expr}

theorem getD_unionOf?_nil (ms : List Member) : (unionOf? ms []).getD emptySet = members ms := by
  cases ms <;> rfl

theorem evaluates_unionOf? :
    ((unionOf? ms os).getD emptySet).Evaluates hs ↔ ∀ o ∈ os, o.Evaluates hs := by
  rcases os with _ | ⟨o, os⟩
  · rw [getD_unionOf?_nil]
    exact iff_of_true (evaluates_members ms) fun _ mem => absurd mem List.not_mem_nil
  · rw [List.forall_mem_cons, ← evaluates_foldl]
    cases ms with
    | nil => exact Iff.rfl
    | cons m ms => exact evaluates_union.trans (and_iff_right (evaluates_members _))

theorem mem_tuples_unionOf? (runs : ((unionOf? ms os).getD emptySet).Evaluates hs) :
    t ∈ ((unionOf? ms os).getD emptySet).tuples hs ↔
      (∃ m ∈ ms, (t == [m]) = true) ∨ ∃ o ∈ os, t ∈ o.tuples hs := by
  rcases os with _ | ⟨o, os⟩
  · simp [getD_unionOf?_nil, mem_tuples_members]
  · have folded : (os.foldl union o).Evaluates hs :=
      (evaluates_foldl o os).mpr (List.forall_mem_cons.mp (evaluates_unionOf?.mp runs))
    have others : t ∈ (os.foldl union o).tuples hs ↔ ∃ k ∈ o :: os, t ∈ k.tuples hs := by
      rw [mem_tuples_foldl o folded]
      simp
    rw [← others]
    cases ms with
    | nil => simp [unionOf?]
    | cons m ms =>
      rw [← mem_tuples_members, ← Set.mem_union, ← tuples_union runs]
      rfl

theorem mem_of_evaluate_unionOf? {ts : List Tuple}
    (run : ((unionOf? ms os).getD emptySet).evaluate hs = .ok ts) (mem : t ∈ ts) :
    t ∈ singletons ms ∨ ∃ o ∈ os, ∃ us, o.evaluate hs = .ok us ∧ t ∈ us := by
  rcases os with _ | ⟨o, os⟩
  · rw [getD_unionOf?_nil, evaluate_members] at run
    cases run
    exact Or.inl mem
  · cases ms with
    | nil => exact Or.inr (mem_of_evaluate_foldl run mem)
    | cons m ms =>
      obtain ⟨ls, runL, rs, runR, rfl⟩ := evaluate_union_eq_ok.mp run
      rw [evaluate_members] at runL
      cases runL
      rcases List.mem_append.mp (mem_of_mem_distinct mem) with left | right
      · exact Or.inl left
      · exact Or.inr (mem_of_evaluate_foldl runR right)

theorem unions_unionOf? (ms : List Member) (os : List Expr) :
    ((unionOf? ms os).getD emptySet).unions =
      unionsIn os + if ms = [] then os.length - 1 else os.length := by
  rcases os with _ | ⟨o, os⟩
  · simp [getD_unionOf?_nil, unionsIn]
  · cases ms with
    | nil => simp [unionOf?, unions_foldl, unionsIn]
    | cons m ms =>
      simp [unionOf?, unions_foldl, unionsIn]
      omega

end Expr

namespace UnionTerms

def call (u : UnionTerms) : UnionCall → UnionTerms
  | .add e => u.add e
  | .addMember m => u.addMember m

/-- The terms that calls collect, from none on. -/
def build (calls : List UnionCall) : UnionTerms :=
  calls.foldl call {}

variable {hs : List Hierarchy} {e : Expr} {ms : List Member} {t : Tuple}

theorem memberList?_eq (es : List Expr) : memberList? es =
    if es.all fun e => e.member?.isSome then some (es.filterMap Expr.member?) else none := by
  induction es with
  | nil => rfl
  | cons e es ih =>
    cases e with
    | member m =>
      rw [memberList?, ih, apply_ite (Option.map (m :: ·))]
      rfl
    | _ => rfl

theorem listed?_eq (e : Expr) : listed? e = if e.isListing then some e.listing else none := by
  cases e with
  | call form name args =>
    cases form with
    | brace => exact memberList?_eq args
    | _ => rfl
  | _ => rfl

theorem listed?_of_isListing (listing : e.isListing = true) : listed? e = some e.listing := by
  rw [listed?_eq, if_pos listing]

theorem evaluate_of_listed (shape : listed? e = some ms) :
    e.evaluate hs = .ok (Expr.singletons ms) := by
  obtain ⟨m, rfl, rfl⟩ | ⟨name, rfl⟩ := exists_of_listed shape
  · rfl
  · exact Expr.evaluate_members ms

theorem evaluates_of_listed (shape : listed? e = some ms) : e.Evaluates hs :=
  ⟨_, evaluate_of_listed shape⟩

/-- Members listed outright are the value of the expression that lists them. -/
theorem mem_tuples_of_listed (shape : listed? e = some ms) :
    t ∈ e.tuples hs ↔ ∃ m ∈ ms, (t == [m]) = true := by
  obtain ⟨m, rfl, rfl⟩ | ⟨name, rfl⟩ := exists_of_listed shape
  · simp [Expr.mem_tuples_member]
  · exact Expr.mem_tuples_members

theorem unions_of_listed (shape : listed? e = some ms) : e.unions = 0 := by
  obtain ⟨m, rfl, rfl⟩ | ⟨name, rfl⟩ := exists_of_listed shape
  · rfl
  · exact Expr.unions_members ms

theorem call_eq (u : UnionTerms) (c : UnionCall) : u.call c =
    if c.expr.isListing then { u with members := u.members ++ c.expr.listing }
    else { u with others := u.others ++ [c.expr] } := by
  have added : u.call c = u.add c.expr := by cases c <;> rfl
  rw [added, add, listed?_eq]
  by_cases listing : c.expr.isListing = true <;> simp [listing]

/-- Calls collect the members of what is listed and, beside them, the other terms. -/
theorem foldl_call (calls : List UnionCall) (u : UnionTerms) :
    calls.foldl call u =
      { members := u.members ++ ((calls.map (·.expr)).filter Expr.isListing).flatMap Expr.listing
        others := u.others ++ (calls.map (·.expr)).filter fun e => !e.isListing } := by
  induction calls generalizing u with
  | nil => simp
  | cons c calls ih =>
    rw [List.foldl_cons, ih, call_eq]
    by_cases listing : c.expr.isListing = true <;> simp [listing]

theorem expr?_eq (u : UnionTerms) : u.expr? = Expr.unionOf? u.members u.others := by
  obtain ⟨members, others⟩ := u
  cases members <;> cases others <;> rfl

theorem unionsIn_filter (es : List Expr) :
    Expr.unionsIn (es.filter fun e => !e.isListing) = Expr.unionsIn es := by
  induction es with
  | nil => rfl
  | cons e es ih =>
    by_cases listing : e.isListing = true
    · have none : e.unions = 0 := unions_of_listed (listed?_of_isListing listing)
      simp [listing, Expr.unionsIn, ih, none]
    · simp [listing, Expr.unionsIn, ih]

/-- Listed members always have a value, so only the other terms have to be asked. -/
theorem forall_others_iff (es : List Expr) :
    (∀ e ∈ es.filter fun e => !e.isListing, e.Evaluates hs) ↔ ∀ e ∈ es, e.Evaluates hs := by
  refine ⟨fun others e mem => ?_, fun all e mem => all e (List.mem_filter.mp mem).1⟩
  by_cases listing : e.isListing = true
  · exact evaluates_of_listed (listed?_of_isListing listing)
  · exact others e (List.mem_filter.mpr ⟨mem, by simpa using listing⟩)

/-- The listed members and the other terms together are what the expressions give. -/
theorem mem_tuples_iff (es : List Expr) :
    ((∃ m ∈ (es.filter Expr.isListing).flatMap Expr.listing, (t == [m]) = true) ∨
        ∃ e ∈ es.filter fun e => !e.isListing, t ∈ e.tuples hs) ↔
      ∃ e ∈ es, t ∈ e.tuples hs := by
  constructor
  · rintro (⟨m, mem, same⟩ | ⟨e, mem, inside⟩)
    · obtain ⟨e, kept, written⟩ := List.mem_flatMap.mp mem
      obtain ⟨listed, listing⟩ := List.mem_filter.mp kept
      have shape := listed?_of_isListing listing
      exact ⟨e, listed, (mem_tuples_of_listed shape).mpr ⟨m, written, same⟩⟩
    · exact ⟨e, (List.mem_filter.mp mem).1, inside⟩
  · rintro ⟨e, mem, inside⟩
    by_cases listing : e.isListing = true
    · obtain ⟨m, written, same⟩ :=
        (mem_tuples_of_listed (listed?_of_isListing listing)).mp inside
      have kept := List.mem_filter.mpr ⟨mem, listing⟩
      exact Or.inl ⟨m, List.mem_flatMap.mpr ⟨e, kept, written⟩, same⟩
    · exact Or.inr ⟨e, List.mem_filter.mpr ⟨mem, by simpa using listing⟩, inside⟩

/-- The expression that calls lead to, by the shapes of what they add. -/
theorem expr?_build (calls : List UnionCall) :
    (build calls).expr? =
      Expr.unionOf? (((calls.map (·.expr)).filter Expr.isListing).flatMap Expr.listing)
        ((calls.map (·.expr)).filter fun e => !e.isListing) := by
  rw [expr?_eq, build, foldl_call]
  rfl

theorem evaluates_build (calls : List UnionCall) :
    (build calls).expr.Evaluates hs ↔ ∀ c ∈ calls, c.expr.Evaluates hs := by
  rw [expr, expr?_build, Expr.evaluates_unionOf?, forall_others_iff, List.forall_mem_map]

theorem mem_tuples_build {calls : List UnionCall} (runs : (build calls).expr.Evaluates hs) :
    t ∈ (build calls).expr.tuples hs ↔ ∃ c ∈ calls, t ∈ c.expr.tuples hs := by
  rw [expr, expr?_build] at runs ⊢
  rw [Expr.mem_tuples_unionOf? runs, mem_tuples_iff]
  simp only [List.mem_map, exists_exists_and_eq_and]

/-- Nothing comes from the union that the value of no call has: a member that is listed, but
not kept in the value of its own listing, is not kept by the union either. -/
theorem mem_of_evaluate_build {calls : List UnionCall} {ts : List Tuple}
    (run : (build calls).expr.evaluate hs = .ok ts) (mem : t ∈ ts) :
    ∃ c ∈ calls, ∃ us, c.expr.evaluate hs = .ok us ∧ t ∈ us := by
  rw [expr, expr?_build] at run
  have source : ∃ e ∈ calls.map (·.expr), ∃ us, e.evaluate hs = .ok us ∧ t ∈ us := by
    rcases Expr.mem_of_evaluate_unionOf? run mem with listed | ⟨o, kept, value⟩
    · rw [Expr.singletons_eq, List.mem_map] at listed
      obtain ⟨m, kept, rfl⟩ := listed
      obtain ⟨e, written, inside⟩ := exists_of_mem_distinct_flatMap kept
      obtain ⟨added, listing⟩ := List.mem_filter.mp written
      refine ⟨e, added, _, evaluate_of_listed (listed?_of_isListing listing), ?_⟩
      rw [Expr.singletons_eq]
      exact List.mem_map_of_mem inside
    · exact ⟨o, (List.mem_filter.mp kept).1, value⟩
  simpa only [List.mem_map, exists_exists_and_eq_and] using source

/-- Calls that give members from a collection without equal ones make a union of just these. -/
theorem denotes_build {K : Set Member} (discrete : Discrete (· ∈ K)) {calls : List UnionCall}
    (given : ∀ c ∈ calls, c.expr.HasMembersIn hs K) :
    (build calls).expr.Denotes hs (lone {m | ∃ c ∈ calls, m ∈ c.expr.memberSet hs}) := by
  obtain ⟨ts, run⟩ := (evaluates_build calls).mpr fun c listed => (given c listed).evaluates
  refine Expr.denotes_of_tuples (discrete_lone discrete) (lone_mono ?_) run (fun t mem => ?_) ?_
  · rintro m ⟨c, listed, member⟩
    exact (given c listed).subset member
  · obtain ⟨c, listed, us, value, inside⟩ := mem_of_evaluate_build run mem
    obtain ⟨m, member, rfl⟩ := mem_lone.mp (((given c listed).mem_iff value).mp inside)
    exact singleton_mem_lone.mpr ⟨c, listed, member⟩
  · intro t mem
    obtain ⟨m, ⟨c, listed, member⟩, rfl⟩ := mem_lone.mp mem
    have shown := Expr.lone_memberSet_subset (singleton_mem_lone.mpr member)
    exact (mem_tuples_build ⟨ts, run⟩).mpr ⟨c, listed, shown⟩

/-- A union has a value if all added expressions have one, and is then their union. It
is written flat: the listed members in one brace set, in front of the other terms, with no
more binary unions than it takes to put these together. -/
theorem build_denotes (hs : List Hierarchy) (calls : List UnionCall) :
    let added := calls.map (·.expr)
    let ms := (added.filter Expr.isListing).flatMap Expr.listing
    let os := added.filter fun e => !e.isListing
    let u := build calls
    (u.expr.Evaluates hs ↔ ∀ e ∈ added, e.Evaluates hs) ∧
      (u.expr.Evaluates hs → ∀ t, t ∈ u.expr.tuples hs ↔ ∃ e ∈ added, t ∈ e.tuples hs) ∧
      (u.expr? = none ↔ ms = [] ∧ os = []) ∧
      u.expr? = Expr.unionOf? ms os ∧
      u.expr.unions =
        Expr.unionsIn added + if ms = [] then os.length - 1 else os.length := by
  intro added ms os u
  have shape : u.expr? = Expr.unionOf? ms os := expr?_build calls
  refine ⟨?_, fun runs t => ?_, ?_, shape, ?_⟩
  · rw [expr, shape, Expr.evaluates_unionOf?]
    exact forall_others_iff added
  · rw [expr, shape] at runs ⊢
    rw [Expr.mem_tuples_unionOf? runs]
    exact mem_tuples_iff added
  · rw [shape, Expr.unionOf?_eq_none]
  · rw [expr, shape, Expr.unions_unionOf?, unionsIn_filter]

/-- A set, a member and a member in braces: one brace set in front of the set. -/
theorem build_denotes_calendar :
    let calls : List UnionCall :=
      [.add (Expr.children .year), .addMember .february, .add (Expr.members [.january])]
    (build calls).expr.Evaluates [.calendar] ∧
      (∀ t, t ∈ (build calls).expr.tuples [.calendar] ↔
        ∃ e ∈ calls.map (·.expr), t ∈ e.tuples [.calendar]) ∧
      (build calls).expr? =
        some (Expr.union (Expr.members [.february, .january]) (Expr.children .year)) := by
  intro calls
  obtain ⟨evaluates, union, _, shape, _⟩ := build_denotes [.calendar] calls
  have runs : (build calls).expr.Evaluates [.calendar] := by
    refine evaluates.mpr ?_
    simp only [calls, List.map_cons, List.map_nil, List.forall_mem_cons]
    exact ⟨⟨_, rfl⟩, ⟨_, rfl⟩, ⟨_, rfl⟩, fun _ mem => absurd mem List.not_mem_nil⟩
  exact ⟨runs, union runs, shape⟩

end UnionTerms
end CubeAxis
