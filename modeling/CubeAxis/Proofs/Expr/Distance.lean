import CubeAxis.Proofs.Expr.Sets

namespace CubeAxis

/-- How far below the upper depth the lower one is to lie. -/
def Reach.Takes : Reach → (distance upper lower : Nat) → Prop
  | .self, distance, upper, lower => lower = upper + distance
  | .after, distance, upper, lower => upper + distance < lower
  | .selfAndAfter, distance, upper, lower => upper + distance ≤ lower

theorem Reach.takes_iff (reach : Reach) {distance upper lower : Nat} (below : upper ≤ lower) :
    reach.Takes distance upper lower ↔ reach.accepts distance (lower - upper) = true := by
  cases reach with
  | self => simp only [Takes, accepts, beq_iff_eq]; omega
  | after => simp only [Takes, accepts, decide_eq_true_eq]; omega
  | selfAndAfter => simp only [Takes, accepts, decide_eq_true_eq]; omega

theorem Reach.ofText?_text (reach : Reach) : ofText? reach.text = some reach := by
  cases reach <;> rfl

/-- An unsigned word read as a signed one. -/
theorem toInt_toInt64 (d : UInt64) :
    d.toInt64.toInt = if d.toNat < 2 ^ 63 then (d.toNat : Int) else d.toNat - 2 ^ 64 := by
  change d.toBitVec.toInt = _
  rw [BitVec.toInt_eq_toNat_cond, UInt64.toNat_toBitVec]
  split <;> split <;> omega

namespace Expr

/-- The member lies in the hierarchy of the root, is the root or hangs from it, and is as far
below it as asked. -/
structure Spans (hs : List Hierarchy) (reach : Reach) (distance : Nat) (root x : Member) : Prop where
  inside : Inside hs x
  home : x.hierarchy = root.hierarchy
  covered : MemberSet.covers root x = true
  takes : reach.Takes distance root.depth x.depth

variable {hs : List Hierarchy} {set : Expr} {us : List Member}

theorem evaluate_descendants_of_lt {d : UInt64} (small : d.toNat < 2 ^ 63) (reach : Reach) :
    (descendants set d reach).evaluate hs =
      evalDescendants hs (fun found _ => reach.accepts d.toNat found) ⟨set, set.evaluate hs⟩ := by
  change evalWithin hs ⟨set, set.evaluate hs⟩ d.toInt64.toInt reach.text = _
  rw [toInt_toInt64, if_pos small, evalWithin, if_neg (by omega), reach.ofText?_text]
  rfl

theorem evaluate_descendants_of_le {d : UInt64} (large : 2 ^ 63 ≤ d.toNat) (reach : Reach) :
    (descendants set d reach).evaluate hs = .error (.negativeDistance (d.toNat - 2 ^ 64)) := by
  change evalWithin hs ⟨set, set.evaluate hs⟩ d.toInt64.toInt reach.text = _
  have bound := d.toNat_lt
  rw [toInt_toInt64, if_neg (Nat.not_lt.mpr large), evalWithin, if_pos (by omega)]

section

variable (assembled : ∀ h ∈ hs, h.Assembled) (names : (hs.map (·.name)).Nodup)
  (unique : ∀ h ∈ hs, (h.members.map Member.uniqueName).Nodup)

include assembled names

/-- Where hierarchies have names of their own, a member is looked up in the one it stands in. -/
theorem findHierarchy_eq_ok_iff {m : Member} {h : Hierarchy} (inside : Inside hs m) :
    findHierarchy hs m.hierarchy = .ok h ↔ h ∈ hs ∧ m ∈ h.members := by
  obtain ⟨g, listed, member⟩ := inside
  have owner := (assembled g listed).orderly.owner m member
  have found := owner ▸ findHierarchy_of_nodup names listed
  constructor
  · intro run
    cases found.symm.trans run
    exact ⟨listed, member⟩
  · rintro ⟨first, mem⟩
    rw [(assembled h first).orderly.owner m mem]
    exact findHierarchy_of_nodup names first

omit names in
theorem hierarchy_eq_of_mem {m k : Member} {h : Hierarchy} (listed : h ∈ hs) (first : m ∈ h.members)
    (second : k ∈ h.members) : m.hierarchy = k.hierarchy := by
  have owner := (assembled h listed).orderly.owner
  exact (owner m first).trans (owner k second).symm

theorem findHierarchy_of_home {m root : Member} {h : Hierarchy} (inside : Inside hs root)
    (listed : h ∈ hs) (mem : m ∈ h.members) (home : m.hierarchy = root.hierarchy) :
    findHierarchy hs root.hierarchy = .ok h ∧ root ∈ h.members := by
  have found := (findHierarchy_eq_ok_iff assembled names ⟨h, listed, mem⟩).mpr ⟨listed, mem⟩
  rw [home] at found
  exact ⟨found, ((findHierarchy_eq_ok_iff assembled names inside).mp found).2⟩

include unique

/-- One root takes what the evaluator finds in its hierarchy. -/
theorem spans_iff {root x : Member} (inside : Inside hs root) (reach : Reach) (distance : Nat) :
    Spans hs reach distance root x ↔ ∃ h, findHierarchy hs root.hierarchy = .ok h ∧
      x ∈ h.members ∧ ((x == root) = true ∨ root.isAncestorOf x = true) ∧
      reach.accepts distance (x.depth - root.depth) = true := by
  have covers : MemberSet.covers root x = true ↔
      (x == root) = true ∨ root.isAncestorOf x = true := by
    rw [MemberSet.covers, Bool.or_eq_true, BEq.comm]
  have below {h : Hierarchy} (listed : h ∈ hs) (rooted : root ∈ h.members) (mem : x ∈ h.members)
      (line : (x == root) = true ∨ root.isAncestorOf x = true) : root.depth ≤ x.depth := by
    rcases line with same | above
    · rw [Hierarchy.eq_of_nodup_uniqueNames (unique h listed) x mem root rooted
        (Member.beq_iff.mp same)]
    · exact Nat.le_of_lt (of_decide_eq_true (Bool.and_eq_true_iff.mp above).1)
  constructor
  · rintro ⟨⟨h, listed, mem⟩, home, covered, takes⟩
    obtain ⟨found, rooted⟩ := findHierarchy_of_home assembled names inside listed mem home
    have line := covers.mp covered
    exact ⟨h, found, mem, line, (reach.takes_iff (below listed rooted mem line)).mp takes⟩
  · rintro ⟨h, found, mem, line, accepted⟩
    obtain ⟨listed, rooted⟩ := (findHierarchy_eq_ok_iff assembled names inside).mp found
    have home := hierarchy_eq_of_mem assembled listed mem rooted
    refine ⟨⟨h, listed, mem⟩, home, covers.mpr line, ?_⟩
    exact (reach.takes_iff (below listed rooted mem line)).mpr accepted

/-- Where parents are members, the members at and below a root are those with it on their line. -/
theorem spans_iff_upward (sound : ∀ h ∈ hs, h.Sound) {root x : Member} (inside : Inside hs root)
    (reach : Reach) (distance : Nat) : Spans hs reach distance root x ↔
      Inside hs x ∧ root ∈ x.upward ∧ reach.Takes distance root.depth x.depth := by
  have line {h : Hierarchy} (listed : h ∈ hs) (rooted : root ∈ h.members) (mem : x ∈ h.members) :
      MemberSet.covers root x = true ↔ root ∈ x.upward :=
    Hierarchy.Regular.covers_iff
      ⟨sound h listed, Hierarchy.eq_of_nodup_uniqueNames (unique h listed)⟩ rooted mem
  constructor
  · rintro ⟨⟨h, listed, mem⟩, home, covered, takes⟩
    obtain ⟨_, rooted⟩ := findHierarchy_of_home assembled names inside listed mem home
    exact ⟨⟨h, listed, mem⟩, (line listed rooted mem).mp covered, takes⟩
  · rintro ⟨⟨h, listed, mem⟩, above, takes⟩
    have rooted := (sound h listed).upward_mem mem above
    have home := hierarchy_eq_of_mem assembled listed mem rooted
    exact ⟨⟨h, listed, mem⟩, home, (line listed rooted mem).mpr above, takes⟩

theorem evaluate_descendants_exact (run : set.evaluate hs = .ok (us.map ([·])))
    (inside : ∀ u ∈ us, Inside hs u) {d : UInt64} (small : d.toNat < 2 ^ 63) (reach : Reach) :
    ∃ ms : List Member, (descendants set d reach).evaluate hs = .ok (ms.map ([·])) ∧
      (∀ x ∈ ms, ∃ u ∈ us, Spans hs reach d.toNat u x) ∧
      ∀ x, (∃ u ∈ us, Spans hs reach d.toNat u x) → ms.contains x = true := by
  have homes : ∀ u ∈ us, ∃ h, findHierarchy hs u.hierarchy = .ok h ∧
      ∀ m ∈ h.members, (m == u) = true → u.depth ≤ m.depth := by
    intro u listed
    obtain ⟨h, first, member⟩ := inside u listed
    refine ⟨h, (findHierarchy_eq_ok_iff assembled names (inside u listed)).mpr ⟨first, member⟩, ?_⟩
    intro m mem same
    rw [Hierarchy.eq_of_nodup_uniqueNames (unique h first) m mem u member (Member.beq_iff.mp same)]
  obtain ⟨ms, value, found⟩ := evaluate_descent (fun found _ => reach.accepts d.toNat found)
    (evaluateMembers_eq_ok.mpr run) homes (evaluate_descendants_of_lt small reach)
  have exact (x : Member) : x ∈ ms ↔ ∃ u ∈ us, Spans hs reach d.toNat u x := by
    refine (found x).trans (exists_congr fun u => and_congr_right fun listed => ?_)
    exact (spans_iff assembled names unique (inside u listed) reach d.toNat).symm
  refine ⟨distinct ms, value.trans (congrArg _ (singletons_eq ms)), ?_, ?_⟩
  · exact fun x kept => (exact x).mp (mem_of_mem_distinct kept)
  · intro x spanned
    refine contains_distinct.mpr (List.contains_iff_exists_mem_beq.mpr ?_)
    exact ⟨x, (exact x).mpr spanned, BEq.rfl⟩

/-- Descendants by distance are exact for the distances below 2^63 and no others. From there on
the distance reads as a negative number, which the evaluator refuses. -/
theorem evaluate_descendants_exact_iff (run : set.evaluate hs = .ok (us.map ([·])))
    (inside : ∀ u ∈ us, Inside hs u) (d : UInt64) (reach : Reach) :
    ((∃ ms : List Member, (descendants set d reach).evaluate hs = .ok (ms.map ([·])) ∧
        (∀ x ∈ ms, ∃ u ∈ us, Spans hs reach d.toNat u x) ∧
        ∀ x, (∃ u ∈ us, Spans hs reach d.toNat u x) → ms.contains x = true) ↔
      d.toNat < 2 ^ 63) ∧
    (2 ^ 63 ≤ d.toNat →
      (descendants set d reach).evaluate hs = .error (.negativeDistance (d.toNat - 2 ^ 64))) ∧
    ((∀ h ∈ hs, h.Sound) → ∀ u ∈ us, ∀ x, Spans hs reach d.toNat u x ↔
      Inside hs x ∧ u ∈ x.upward ∧ reach.Takes d.toNat u.depth x.depth) := by
  refine ⟨⟨?_, fun small => ?_⟩, fun large => evaluate_descendants_of_le large reach, ?_⟩
  · rintro ⟨ms, value, -⟩
    by_contra large
    rw [evaluate_descendants_of_le (Nat.le_of_not_lt large)] at value
    cases value
  · exact evaluate_descendants_exact assembled names unique run inside small reach
  · exact fun sound u listed x =>
      spans_iff_upward assembled names unique sound (inside u listed) reach d.toNat

end

/-- One step below a year and one of its months are the months of the year. -/
theorem evaluate_descendants_exact_calendar :
    let set := members [.year, .january]
    (descendants set 1 .self).evaluate [.calendar] = .ok [[.january]] ∧
    ∃ ms : List Member, (descendants set 1 .self).evaluate [.calendar] = .ok (ms.map ([·])) ∧
      ∀ x ∈ ms, ∃ u ∈ [Member.year, .january], Spans [.calendar] .self 1 u x := by
  intro set
  have assembled : ∀ h ∈ [Hierarchy.calendar], h.Assembled :=
    List.forall_mem_singleton.mpr Hierarchy.calendar_built.assembled
  have unique : ∀ h ∈ [Hierarchy.calendar], (h.members.map Member.uniqueName).Nodup :=
    List.forall_mem_singleton.mpr (by decide)
  have inside : ∀ u ∈ [Member.year, .january], Inside [.calendar] u :=
    List.forall_mem_cons.mpr ⟨⟨_, List.mem_singleton_self _, Hierarchy.year_mem_calendar⟩,
      List.forall_mem_singleton.mpr ⟨_, List.mem_singleton_self _, Hierarchy.january_mem_calendar⟩⟩
  have start : set.evaluate [.calendar] = .ok ([Member.year, .january].map ([·])) := rfl
  obtain ⟨exact, -, -⟩ := evaluate_descendants_exact_iff assembled (List.nodup_singleton _) unique
    start inside 1 .self
  obtain ⟨ms, run, spanned, -⟩ := exact.mpr (by decide)
  exact ⟨rfl, ms, run, spanned⟩

/-- No member lies 2^63 steps below a year, and asking for such members fails. -/
theorem evaluate_descendants_error_calendar :
    let far : UInt64 := 9223372036854775808
    Hierarchy.calendar.Built ∧ (member .year).evaluate [.calendar] = .ok [[.year]] ∧
      (∀ x, ¬ Spans [.calendar] .self far.toNat .year x) ∧
      (descendants (member .year) far .self).evaluate [.calendar] =
        .error (.negativeDistance (-9223372036854775808)) := by
  intro far
  refine ⟨Hierarchy.calendar_built, rfl, fun x spanned => ?_, rfl⟩
  obtain ⟨h, only, mem⟩ := spanned.inside
  obtain rfl := List.mem_singleton.mp only
  have deep : x.depth = 0 + 9223372036854775808 := spanned.takes
  have shallow : ∀ m ∈ Hierarchy.calendar.members, m.depth < 2 := by decide
  have := shallow x mem
  omega

end Expr
end CubeAxis
