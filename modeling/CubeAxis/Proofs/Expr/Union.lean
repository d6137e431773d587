import CubeAxis.AxisSet
import CubeAxis.Proofs.Expr.Sets

namespace CubeAxis
namespace Expr

/-- Over `hs` the expression denotes `T`, within `Ω`, and so are the members it
lists outright. -/
structure Term (hs : List Hierarchy) (Ω : Set Tuple) (e : Expr) (T : Set Tuple) : Prop where
  denotes : e.Denotes hs T
  within : T ⊆ Ω
  listed : ∀ ms, UnionTerms.listed? e = some ms → ∀ m ∈ ms, [m] ∈ Ω

theorem Term.mono {hs : List Hierarchy} {Φ Ω T : Set Tuple} {e : Expr} (term : e.Term hs Φ T)
    (sub : Φ ⊆ Ω) : e.Term hs Ω T :=
  ⟨term.denotes, term.within.trans sub, fun ms shape m mem => sub (term.listed ms shape m mem)⟩

theorem listed?_join (l r : Expr) : UnionTerms.listed? (l.join r) = none := by
  unfold join
  split <;> rfl

theorem Picks.term {hs : List Hierarchy} {h : Hierarchy} {e : Expr} {s : Set Member}
    (value : e.Picks hs h s) (opaqueForm : UnionTerms.listed? e = none) :
    e.Term hs (lone h.all) (lone s) where
  denotes := value.denotes
  within := lone_mono value.within
  listed ms shape := by rw [opaqueForm] at shape; cases shape

end Expr

namespace UnionTerms

theorem memberList?_eq_some {es : List Expr} {ms : List Member} :
    memberList? es = some ms ↔ es = ms.map Expr.member := by
  induction es generalizing ms with
  | nil => cases ms <;> simp [memberList?]
  | cons e es ih =>
    cases e with
    | member m =>
      simp only [memberList?, Option.map_eq_some_iff, ih]
      cases ms with
      | nil => simp
      | cons k ms => simp [and_comm]
    | _ => cases ms <;> simp [memberList?]

/-- What lists members outright is a member or a brace set of members. -/
theorem exists_of_listed {e : Expr} {ms : List Member} (shape : listed? e = some ms) :
    (∃ m, e = .member m ∧ ms = [m]) ∨ ∃ name, e = .call .brace name (ms.map .member) := by
  unfold listed? at shape
  split at shape
  · cases shape
    exact Or.inl ⟨_, rfl, rfl⟩
  · rw [memberList?_eq_some.mp shape]
    exact Or.inr ⟨_, rfl⟩
  · cases shape

/-- The tuples of all terms. -/
def value (hs : List Hierarchy) (u : UnionTerms) : Set Tuple :=
  {t | (∃ m ∈ u.members, t = [m]) ∨ ∃ e ∈ u.others, ∃ ts, e.evaluate hs = .ok ts ∧ t ∈ ts}

/-- Every term evaluates, to tuples of `Ω`. -/
structure Evaluable (hs : List Hierarchy) (Ω : Set Tuple) (u : UnionTerms) : Prop where
  members : ∀ m ∈ u.members, [m] ∈ Ω
  others : ∀ e ∈ u.others, ∃ T, e.Term hs Ω T

variable {hs : List Hierarchy} {Ω T : Set Tuple} {u : UnionTerms} {e : Expr}

theorem Evaluable.empty : ({} : UnionTerms).Evaluable hs Ω :=
  ⟨fun _ mem => absurd mem List.not_mem_nil, fun _ mem => absurd mem List.not_mem_nil⟩

theorem value_empty : ({} : UnionTerms).value hs = ∅ := by
  ext t
  simp [value]

theorem value_addMember (m : Member) :
    (u.addMember m).value hs = u.value hs ∪ {[m]} := by
  ext t
  simp only [value, addMember, List.mem_append, List.mem_singleton, Set.mem_ofPred_eq,
    Set.mem_union, Set.mem_singleton_iff]
  constructor
  · intro given
    rcases given with ⟨k, old | rfl, rfl⟩ | other
    · exact Or.inl (Or.inl ⟨k, old, rfl⟩)
    · exact Or.inr rfl
    · exact Or.inl (Or.inr other)
  · intro given
    rcases given with (⟨k, old, rfl⟩ | other) | rfl
    · exact Or.inl ⟨k, Or.inl old, rfl⟩
    · exact Or.inr other
    · exact Or.inl ⟨m, Or.inr rfl, rfl⟩

theorem Evaluable.addMember (fine : u.Evaluable hs Ω) {m : Member} (inside : [m] ∈ Ω) :
    (u.addMember m).Evaluable hs Ω where
  members k mem := by
    rcases List.mem_append.mp mem with old | new
    · exact fine.members k old
    · rwa [List.mem_singleton.mp new]
  others := fine.others

theorem Evaluable.value_subset (fine : u.Evaluable hs Ω) : u.value hs ⊆ Ω := by
  intro t given
  rcases given with ⟨m, mem, rfl⟩ | ⟨e, mem, ts, run, inside⟩
  · exact fine.members m mem
  · obtain ⟨T, ⟨us, again, all⟩, within, _⟩ := fine.others e mem
    cases run.symm.trans again
    exact within ((all t).mp inside)

/-- Listed members denote themselves. -/
theorem denotes_of_listed (discrete : Discrete (· ∈ Ω)) {ms : List Member}
    (shape : listed? e = some ms) (inside : ∀ m ∈ ms, [m] ∈ Ω) :
    e.Denotes hs {t | ∃ m ∈ ms, t = [m]} := by
  have braces : (Expr.members ms).Denotes hs {t | ∃ m ∈ ms, t = [m]} := by
    refine ⟨distinct (ms.map ([·])), Expr.evaluate_members ms, fun t => ?_⟩
    rw [discrete.mem_distinct, List.mem_map]
    · simp only [Set.mem_ofPred_eq, eq_comm]
    · intro t mem
      obtain ⟨m, listed, rfl⟩ := List.mem_map.mp mem
      exact inside m listed
  obtain ⟨m, rfl, rfl⟩ | ⟨name, rfl⟩ := exists_of_listed shape
  · exact ⟨_, rfl, fun t => by simp⟩
  · exact braces

theorem value_add (discrete : Discrete (· ∈ Ω)) (term : e.Term hs Ω T) :
    (u.add e).value hs = u.value hs ∪ T := by
  unfold add
  split
  · rename_i ms shape
    rw [term.denotes.unique (denotes_of_listed discrete shape (term.listed ms shape))]
    ext t
    simp only [value, List.mem_append, Set.mem_ofPred_eq, Set.mem_union]
    constructor
    · intro given
      rcases given with ⟨k, old | new, rfl⟩ | other
      · exact Or.inl (Or.inl ⟨k, old, rfl⟩)
      · exact Or.inr ⟨k, new, rfl⟩
      · exact Or.inl (Or.inr other)
    · intro given
      rcases given with (⟨k, old, rfl⟩ | other) | ⟨k, new, rfl⟩
      · exact Or.inl ⟨k, Or.inl old, rfl⟩
      · exact Or.inr other
      · exact Or.inl ⟨k, Or.inr new, rfl⟩
  · obtain ⟨ts, run, mem⟩ := term.denotes
    ext t
    simp only [value, List.mem_append, List.mem_singleton, Set.mem_ofPred_eq, Set.mem_union]
    constructor
    · intro given
      rcases given with listed | ⟨o, old | rfl, us, again, inside⟩
      · exact Or.inl (Or.inl listed)
      · exact Or.inl (Or.inr ⟨o, old, us, again, inside⟩)
      · cases run.symm.trans again
        exact Or.inr ((mem t).mp inside)
    · intro given
      rcases given with (listed | ⟨o, old, us, again, inside⟩) | new
      · exact Or.inl listed
      · exact Or.inr ⟨o, Or.inl old, us, again, inside⟩
      · exact Or.inr ⟨e, Or.inr rfl, ts, run, (mem t).mpr new⟩

theorem Evaluable.add (fine : u.Evaluable hs Ω) (term : e.Term hs Ω T) :
    (u.add e).Evaluable hs Ω := by
  unfold UnionTerms.add
  split
  · rename_i ms shape
    refine ⟨fun m mem => ?_, fine.others⟩
    rcases List.mem_append.mp mem with old | new
    · exact fine.members m old
    · exact term.listed ms shape m new
  · refine ⟨fine.members, fun o mem => ?_⟩
    rcases List.mem_append.mp mem with old | new
    · exact fine.others o old
    · exact ⟨T, List.mem_singleton.mp new ▸ term⟩

theorem term_foldl (discrete : Discrete (· ∈ Ω)) {es : List Expr} (first : e.Term hs Ω T)
    (rest : ∀ o ∈ es, ∃ U, o.Term hs Ω U) :
    (es.foldl Expr.union e).Term hs Ω
      (T ∪ {t | ∃ o ∈ es, ∃ ts, o.evaluate hs = .ok ts ∧ t ∈ ts}) := by
  induction es generalizing e T with
  | nil => simpa using first
  | cons o es ih =>
    obtain ⟨U, term⟩ := rest o List.mem_cons_self
    have joined : (Expr.union e o).Term hs Ω (T ∪ U) :=
      ⟨first.denotes.union discrete term.denotes first.within term.within,
        Set.union_subset first.within term.within, fun ms shape => by cases shape⟩
    have whole := ih joined fun k mem => rest k (List.mem_cons_of_mem _ mem)
    obtain ⟨us, run, mem⟩ := term.denotes
    have same : {t | ∃ k ∈ o :: es, ∃ ts, k.evaluate hs = .ok ts ∧ t ∈ ts} =
        U ∪ {t | ∃ k ∈ es, ∃ ts, k.evaluate hs = .ok ts ∧ t ∈ ts} := by
      ext t
      simp only [List.mem_cons, Set.mem_union, Set.mem_ofPred_eq, exists_eq_or_imp, run,
        Except.ok.injEq, exists_eq_left', mem]
    rw [same, ← Set.union_assoc]
    exact whole

theorem term_members (discrete : Discrete (· ∈ Ω)) {ms : List Member}
    (inside : ∀ m ∈ ms, [m] ∈ Ω) :
    (Expr.members ms).Term hs Ω {t | ∃ m ∈ ms, t = [m]} := by
  have shape : listed? (Expr.members ms) = some ms := memberList?_eq_some.mpr rfl
  refine ⟨denotes_of_listed discrete shape inside, ?_, fun ks same => ?_⟩
  · intro t given
    obtain ⟨m, mem, rfl⟩ := given
    exact inside m mem
  · cases shape.symm.trans same
    exact inside

theorem term_members_of_regular {h : Hierarchy} (regular : h.Regular) {ms : List Member}
    (inside : ∀ m ∈ ms, m ∈ h.members) :
    (Expr.members ms).Term hs (lone h.all) (lone {m | m ∈ ms}) := by
  have term : (Expr.members ms).Term hs (lone h.all) {t | ∃ m ∈ ms, t = [m]} :=
    term_members regular.discrete_lone fun m mem => singleton_mem_lone.mpr (inside m mem)
  have same : lone {m | m ∈ ms} = {t | ∃ m ∈ ms, t = [m]} := Set.ext fun t => mem_lone
  rwa [same]

theorem term_member {h : Hierarchy} {m : Member} (inside : m ∈ h.members) :
    (Expr.member m).Term hs (lone h.all) (lone {m}) := by
  have picks : (Expr.member m).Picks hs h {m} := Expr.picks_member inside
  refine ⟨picks.denotes, lone_mono picks.within, fun ms shape => ?_⟩
  cases shape
  intro k mem
  rw [List.mem_singleton.mp mem]
  exact singleton_mem_lone.mpr inside

theorem expr?_eq_none : u.expr? = none ↔ u.isEmpty = true := by
  obtain ⟨members, others⟩ := u
  cases members <;> cases others <;> simp [expr?, foldUnion?, isEmpty]

theorem value_of_isEmpty (empty : u.isEmpty = true) : u.value hs = ∅ := by
  obtain ⟨members, others⟩ := u
  simp only [isEmpty, Bool.and_eq_true, List.isEmpty_iff] at empty
  obtain ⟨rfl, rfl⟩ := empty
  exact value_empty

theorem Evaluable.term_expr? (fine : u.Evaluable hs Ω) (discrete : Discrete (· ∈ Ω))
    (some : u.expr? = some e) : e.Term hs Ω (u.value hs) := by
  obtain ⟨members, others⟩ := u
  have listed : (Expr.members members).Term hs Ω {t | ∃ m ∈ members, t = [m]} :=
    term_members discrete fine.members
  cases others with
  | nil =>
    have same : UnionTerms.value hs ⟨members, []⟩ = {t | ∃ m ∈ members, t = [m]} := by
      ext t
      simp [value]
    cases members with
    | nil => cases some
    | cons m ms =>
      cases some
      rwa [same]
  | cons o os =>
    obtain ⟨U, term⟩ := fine.others o List.mem_cons_self
    have folded := term_foldl discrete term fun k mem => fine.others k (List.mem_cons_of_mem _ mem)
    obtain ⟨us, run, mem⟩ := term.denotes
    have same : UnionTerms.value hs ⟨members, o :: os⟩ = {t | ∃ m ∈ members, t = [m]} ∪
        (U ∪ {t | ∃ k ∈ os, ∃ ts, k.evaluate hs = .ok ts ∧ t ∈ ts}) := by
      ext t
      simp only [value, List.mem_cons, Set.mem_union, Set.mem_ofPred_eq, exists_eq_or_imp, run,
        Except.ok.injEq, exists_eq_left', mem]
    rw [same]
    cases members with
    | nil =>
      cases some
      simpa using folded
    | cons m ms =>
      cases some
      exact ⟨listed.denotes.union discrete folded.denotes listed.within folded.within,
        Set.union_subset listed.within folded.within, fun ms shape => by cases shape⟩

theorem Evaluable.term_expr (fine : u.Evaluable hs Ω) (discrete : Discrete (· ∈ Ω)) :
    u.expr.Term hs Ω (u.value hs) := by
  cases terms : u.expr? with
  | none =>
    rw [value_of_isEmpty (expr?_eq_none.mp terms), expr, terms]
    refine ⟨Expr.denotes_emptySet, Set.empty_subset _, fun ms shape => ?_⟩
    cases shape
    exact fun m mem => absurd mem List.not_mem_nil
  | some e =>
    rw [expr, terms]
    exact fine.term_expr? discrete terms

end UnionTerms
end CubeAxis
