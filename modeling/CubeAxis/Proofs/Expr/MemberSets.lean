import CubeAxis.Proofs.Expr.AxisSet

namespace CubeAxis

namespace MemberSet

/-- The set speaks of members and levels of the hierarchy alone. -/
def Fits (h : Hierarchy) : MemberSet → Prop
  | children parent leftOut | grandchildren parent leftOut =>
    parent ∈ h.members ∧ ∀ m ∈ leftOut, m ∈ h.members
  | descendants root _ leftOut => root ∈ h.members ∧ ∀ m ∈ leftOut, m ∈ h.members
  | level l leftOut => l.hierarchy = h.name ∧ l.Exact h ∧ ∀ m ∈ leftOut, m ∈ h.members
  | roots l leftOut =>
    l.hierarchy = h.name ∧ l.Exact h ∧ l.depth = 0 ∧ ∀ m ∈ leftOut, m ∈ h.members
  | listed members => ∀ m ∈ members, m ∈ h.members

variable {hs : List Hierarchy} {h : Hierarchy} (regular : h.Regular)

section

include regular

theorem covered_iff {leftOut : List Member} (known : ∀ a ∈ leftOut, a ∈ h.members) {m : Member}
    (inside : m ∈ h.members) : leftOut.any (covers · m) = true ↔ ∃ a ∈ leftOut, a ∈ m.upward := by
  rw [List.any_eq_true]
  exact exists_congr fun a => and_congr_right fun mem => regular.covers_iff (known a mem) inside

theorem parent_beq_iff {parent : Member} (known : parent ∈ h.members) {m : Member}
    (inside : m ∈ h.members) : m.parent?.any (· == parent) = true ↔ m.parent? = some parent := by
  rw [Option.any_eq_true]
  constructor
  · intro given
    obtain ⟨p, link, same⟩ := given
    rw [link, (regular.beq_iff (regular.parent_mem m inside p link) known).mp same]
  · exact fun link => ⟨parent, link, BEq.rfl⟩

theorem contains_children {parent : Member} {leftOut : List Member}
    (fits : (children parent leftOut).Fits h) {m : Member} (inside : m ∈ h.members) :
    (children parent leftOut).contains m = true ↔ m.parent? = some parent ∧ m ∉ leftOut := by
  rw [contains, Bool.and_eq_true, parent_beq_iff regular fits.1 inside, Bool.not_eq_true',
    ← Bool.not_eq_true, regular.contains_iff fits.2 inside]

theorem contains_grandchildren {parent : Member} {leftOut : List Member}
    (fits : (grandchildren parent leftOut).Fits h) {m : Member} (inside : m ∈ h.members) :
    (grandchildren parent leftOut).contains m = true ↔
      ∃ p, m.parent? = some p ∧ p.parent? = some parent ∧ p ∉ leftOut := by
  rw [contains, Option.any_eq_true]
  refine exists_congr fun p => and_congr_right fun link => ?_
  have outer : (children parent leftOut).Fits h := fits
  exact contains_children regular outer (regular.parent_mem m inside p link)

theorem contains_descendants {root : Member} {l : Level} {leftOut : List Member}
    (fits : (descendants root l leftOut).Fits h) {m : Member} (inside : m ∈ h.members) :
    (descendants root l leftOut).contains m = true ↔
      m.depth = l.depth ∧ root ∈ m.upward ∧ ∀ a ∈ leftOut, a ∉ m.upward := by
  rw [contains, Bool.and_eq_true, Bool.and_eq_true, regular.covers_iff fits.1 inside,
    Bool.not_eq_true', ← Bool.not_eq_true, covered_iff regular fits.2 inside, beq_iff_eq, and_assoc]
  push Not
  rfl

theorem contains_level {l : Level} {leftOut : List Member} (fits : (level l leftOut).Fits h)
    {m : Member} (inside : m ∈ h.members) :
    (level l leftOut).contains m = true ↔ m.depth = l.depth ∧ ∀ a ∈ leftOut, a ∉ m.upward := by
  rw [contains, Bool.and_eq_true, fits.2.1 m inside, Bool.not_eq_true', ← Bool.not_eq_true,
    covered_iff regular fits.2.2 inside]
  push Not
  rfl

theorem contains_roots {l : Level} {leftOut : List Member} (fits : (roots l leftOut).Fits h)
    {m : Member} (inside : m ∈ h.members) :
    (roots l leftOut).contains m = true ↔ m.depth = 0 ∧ m ∉ leftOut := by
  obtain ⟨_, exact, top, known⟩ := fits
  rw [contains, Bool.and_eq_true, Bool.and_eq_true, Option.isNone_iff_eq_none, exact m inside, top,
    Member.parent?_eq_none_iff, and_self_iff, Bool.not_eq_true', ← Bool.not_eq_true,
    regular.contains_iff known inside]

theorem picks_without {all removed : Expr} {s u : Set Member} (leftOut : List Member)
    (whole : all.Picks hs h s) (rest : removed.Picks hs h u) (empty : leftOut = [] → u = ∅) :
    (without all leftOut removed).Picks hs h (s \ u) := by
  unfold without
  split
  · rename_i nothing
    rw [empty (List.isEmpty_iff.mp nothing), Set.sdiff_empty]
    exact whole
  · exact whole.except regular rest

variable (found : Expr.findHierarchy hs h.name = .ok h)

include found

theorem picks_childrenExpr {parent : Member} {leftOut : List Member} (inside : parent ∈ h.members)
    (known : ∀ m ∈ leftOut, m ∈ h.members) :
    (childrenExpr parent leftOut).Picks hs h
      {m | m ∈ h.members ∧ m.parent? = some parent ∧ m ∉ leftOut} := by
  have picks := picks_without regular leftOut
    (Expr.picks_children regular found inside) (Expr.picks_members regular known)
    (by rintro rfl; simp)
  refine picks.congr fun m => ?_
  simp [and_assoc]

theorem picks_outside {all : Expr} {s : Set Member} {l : Level} {leftOut : List Member}
    (whole : all.Picks hs h s) (flat : ∀ m ∈ s, m.depth = l.depth)
    (known : ∀ m ∈ leftOut, m ∈ h.members) :
    (without all leftOut (Expr.descendantsAt (Expr.members leftOut) l)).Picks hs h
      {m | m ∈ s ∧ ∀ a ∈ leftOut, a ∉ m.upward} := by
  have picks := picks_without regular leftOut whole
    (Expr.picks_descendantsAt regular found (Expr.picks_members regular known) l)
    (by rintro rfl; simp)
  refine picks.congr fun m => ?_
  simp only [Set.mem_ofPred_eq, Set.mem_sdiff, not_and, not_exists, beq_iff_eq]
  refine and_congr_right fun mem => ⟨fun out _ a member above => absurd above (out a member), ?_⟩
  exact fun out a member above => out (whole.within mem) a member above (flat m mem)

theorem picks_grandchildren {parent : Member} {leftOut : List Member}
    (fits : (grandchildren parent leftOut).Fits h) :
    (grandchildren parent leftOut).expr.Picks hs h
      {m | m ∈ h.members ∧ ∃ p, m.parent? = some p ∧ p.parent? = some parent ∧ p ∉ leftOut} := by
  rw [expr]
  split
  · rename_i nothing
    obtain rfl := List.isEmpty_iff.mp nothing
    have picks := Expr.picks_within regular found (Expr.picks_member fits.1) 2 .self
    refine picks.congr fun m => ?_
    simp only [Set.mem_ofPred_eq, Set.mem_singleton_iff, exists_eq_left, Reach.accepts, beq_iff_eq]
    refine and_congr_right fun _ => ⟨?_, ?_⟩
    · intro given
      obtain ⟨p, link, link', _⟩ := given
      obtain ⟨above, step⟩ := Member.parent?_eq_some_iff.mp link
      obtain ⟨above', step'⟩ := Member.parent?_eq_some_iff.mp link'
      exact ⟨Member.mem_upward_trans above' above, by omega⟩
    · intro given
      obtain ⟨above, step⟩ := given
      obtain ⟨p, link, higher⟩ :=
        Member.exists_parent_of_mem_ancestors (Member.mem_ancestors_of_lt above (by omega))
      have low := Member.depth_of_parent? link
      exact ⟨p, link, Member.parent?_eq_some_iff.mpr ⟨higher, by omega⟩, List.not_mem_nil⟩
  · have picks := Expr.picks_within regular found
      (picks_childrenExpr regular found fits.1 fits.2) 1 .self
    refine picks.congr fun m => ?_
    simp only [Set.mem_ofPred_eq, Reach.accepts, beq_iff_eq]
    refine and_congr_right fun inside => exists_congr fun p => ?_
    constructor
    · intro given
      obtain ⟨link, link', out⟩ := given
      obtain ⟨above, step⟩ := Member.parent?_eq_some_iff.mp link
      exact ⟨⟨regular.parent_mem m inside p link, link', out⟩, above, by omega⟩
    · intro given
      obtain ⟨⟨_, link', out⟩, above, step⟩ := given
      exact ⟨Member.parent?_eq_some_iff.mpr ⟨above, by omega⟩, link', out⟩

/-- The expression of a member set denotes the members it contains. -/
theorem picks_expr {s : MemberSet} (fits : s.Fits h) :
    s.expr.Picks hs h {m | m ∈ h.members ∧ s.contains m = true} := by
  cases s with
  | children parent leftOut =>
    refine (picks_childrenExpr regular found fits.1 fits.2).congr fun m => ?_
    exact and_congr_right fun inside => contains_children regular fits inside
  | grandchildren parent leftOut =>
    refine (picks_grandchildren regular found fits).congr fun m => ?_
    exact and_congr_right fun inside => contains_grandchildren regular fits inside
  | descendants root l leftOut =>
    have whole := Expr.picks_descendantsAt regular found (Expr.picks_member fits.1) l
    have flat : ∀ m ∈ {m | m ∈ h.members ∧ ∃ a ∈ ({root} : Set Member), a ∈ m.upward ∧
        (m.depth == l.depth) = true}, m.depth = l.depth := by
      intro m given
      obtain ⟨_, _, _, _, level⟩ := given
      exact beq_iff_eq.mp level
    refine (picks_outside regular found whole flat fits.2).congr fun m => ?_
    simp only [Set.mem_ofPred_eq, Set.mem_singleton_iff, exists_eq_left, beq_iff_eq, and_assoc]
    refine and_congr_right fun inside => ?_
    rw [contains_descendants regular fits inside]
    tauto
  | level l leftOut =>
    have whole := Expr.picks_levelMembers found fits.1
    have flat : ∀ m ∈ {m | m ∈ h.members ∧ (m.level == l) = true}, m.depth = l.depth :=
      fun m mem => (fits.2.1 m mem.1).mp mem.2
    refine (picks_outside regular found whole flat fits.2.2).congr fun m => ?_
    simp only [Set.mem_ofPred_eq, and_assoc]
    refine and_congr_right fun inside => ?_
    rw [contains_level regular fits inside, fits.2.1 m inside]
  | roots l leftOut =>
    have whole := Expr.picks_levelMembers found fits.1
    refine (picks_without regular leftOut whole (Expr.picks_members regular fits.2.2.2)
      (by rintro rfl; simp)).congr fun m => ?_
    simp only [Set.mem_ofPred_eq, Set.mem_sdiff, and_assoc]
    refine and_congr_right fun inside => ?_
    rw [contains_roots regular fits inside, fits.2.1 m inside, fits.2.2.1]
  | listed members =>
    refine (Expr.picks_members regular fits).congr fun m => ?_
    simp only [Set.mem_ofPred_eq]
    constructor
    · intro given
      obtain ⟨inside, mem⟩ := given
      exact (regular.contains_iff fits inside).mp mem
    · exact fun mem => ⟨fits m mem, (regular.contains_iff fits (fits m mem)).mpr mem⟩

theorem term_childrenExpr {parent : Member} {leftOut : List Member} (inside : parent ∈ h.members)
    (known : ∀ m ∈ leftOut, m ∈ h.members) :
    (childrenExpr parent leftOut).Term hs (lone h.all)
      (lone {m | m ∈ h.members ∧ m.parent? = some parent ∧ m ∉ leftOut}) := by
  refine (picks_childrenExpr regular found inside known).term ?_
  unfold childrenExpr without
  split <;> rfl

theorem term_expr {s : MemberSet} (fits : s.Fits h) :
    s.expr.Term hs (lone h.all) (lone {m | m ∈ h.members ∧ s.contains m = true}) := by
  have picks := picks_expr regular found fits
  refine ⟨picks.denotes, lone_mono picks.within, fun ms shape => ?_⟩
  cases s with
  | listed members =>
    obtain rfl := List.map_injective_iff.mpr (fun _ _ => Expr.member.inj)
      (UnionTerms.memberList?_eq_some.mp shape)
    exact fun m mem => singleton_mem_lone.mpr (fits m mem)
  | grandchildren parent leftOut =>
    rw [expr] at shape
    split at shape <;> cases shape
  | _ =>
    simp only [expr, childrenExpr, without] at shape
    split at shape <;> cases shape

end

end MemberSet
end CubeAxis
