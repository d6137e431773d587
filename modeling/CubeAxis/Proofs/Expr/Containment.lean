import CubeAxis.Proofs.Expr.MemberSets

namespace CubeAxis
namespace MemberSet

/-- The member sets that are made from members and levels of a hierarchy, and what
taking members out of them and adding members leaves. -/
inductive Made (h : Hierarchy) : MemberSet → Prop
  | children {parent : Member} : parent ∈ h.members → Made h (children parent [])
  /-- the children of `parent` outside a listed set -/
  | inverse {parent : Member} {inner : List Member} : parent ∈ h.members → Made h (listed inner) →
      Made h (children parent inner)
  | grandchildren {parent : Member} {skipped : List Member} : parent ∈ h.members →
      (∀ m ∈ skipped, m ∈ h.members) → Made h (grandchildrenOutside parent skipped)
  | descendants {root : Member} {l : Level} : root ∈ h.members → l ∈ h.levels →
      Made h (descendants root l [])
  | level {l : Level} : l ∈ h.levels → Made h (level l [])
  | roots {l : Level} : h.level? 0 = some l → Made h (roots l [])
  | listed {ms : List Member} : (∀ m ∈ ms, m ∈ h.members) → Made h (listed ms)
  | remove {s u : MemberSet} {m : Member} : Made h s → m ∈ h.members → s.remove? m = some u →
      Made h u
  | add {s u : MemberSet} {m : Member} : Made h s → m ∈ h.members → s.add? m = some u → Made h u

/-- What goes out of a set together with a member: the subtree of the member where
whole subtrees are left out, elsewhere the member alone. -/
def TakenWith (x : Member) : MemberSet → Member → Prop
  | descendants .., m | level .., m => x ∈ m.upward
  | _, m => m = x

variable {hs : List Hierarchy} {h : Hierarchy} {s u : MemberSet} {x m : Member}

theorem known_insertNew {ms : List Member} (known : ∀ k ∈ ms, k ∈ h.members) (inside : m ∈ h.members) :
    ∀ k ∈ insertNew ms m, k ∈ h.members := by
  intro k mem
  rcases mem_of_mem_insertNew mem with old | rfl
  · exact known k old
  · exact inside

theorem Fits.remove? (fits : s.Fits h) (inside : m ∈ h.members) (taken : s.remove? m = some u) :
    u.Fits h := by
  cases s with
  | children parent leftOut =>
    cases taken
    exact ⟨fits.1, known_insertNew fits.2 inside⟩
  | grandchildren parent leftOut => cases taken
  | descendants root l leftOut =>
    cases taken
    exact ⟨fits.1, known_insertNew fits.2 inside⟩
  | level l leftOut =>
    cases taken
    exact ⟨fits.1, fits.2.1, known_insertNew fits.2.2 inside⟩
  | roots l leftOut =>
    cases taken
    exact ⟨fits.1, fits.2.1, fits.2.2.1, known_insertNew fits.2.2.2 inside⟩
  | listed ms =>
    cases taken
    exact fun k mem => fits k (List.mem_filter.mp mem).1

theorem Fits.add? (fits : s.Fits h) (inside : m ∈ h.members) (added : s.add? m = some u) :
    u.Fits h := by
  cases s with
  | listed ms =>
    cases added
    exact known_insertNew fits inside
  | _ => cases added

theorem Made.fits (made : s.Made h) (sound : h.Sound) (names : (h.levels.map Level.name).Nodup) :
    s.Fits h := by
  induction made with
  | children known => exact ⟨known, nofun⟩
  | inverse known _ inner => exact ⟨known, inner⟩
  | grandchildren known skipped =>
    exact ⟨known, fun m mem => skipped m (mem_of_mem_distinct mem)⟩
  | descendants known _ => exact ⟨known, nofun⟩
  | @level l listed =>
    obtain ⟨d, found⟩ := List.mem_iff_getElem?.mp listed
    exact ⟨(sound.level_at d l found).2, sound.exact names l listed, nofun⟩
  | @roots l first =>
    obtain ⟨top, owner⟩ := sound.level_at 0 l first
    exact ⟨owner, sound.exact names l (List.mem_of_getElem? first), top, nofun⟩
  | listed known => exact known
  | remove _ inside taken ih => exact ih.remove? inside taken
  | add _ inside added ih => exact ih.add? inside added

section

variable (regular : h.Regular)

include regular

theorem forall_insertNew_iff {ms : List Member} (known : ∀ k ∈ ms, k ∈ h.members)
    (inside : x ∈ h.members) {p : Member → Prop} :
    (∀ k ∈ insertNew ms x, p k) ↔ (∀ k ∈ ms, p k) ∧ p x := by
  simp only [regular.discrete.mem_insertNew known inside, or_imp, forall_and, forall_eq]

theorem not_mem_insertNew_iff {ms : List Member} (known : ∀ k ∈ ms, k ∈ h.members)
    (inside : x ∈ h.members) : m ∉ insertNew ms x ↔ m ∉ ms ∧ m ≠ x := by
  rw [regular.discrete.mem_insertNew known inside, not_or]

/-- Taking a member out takes out what goes with it, and nothing else. -/
theorem contains_remove? (fits : s.Fits h) (known : x ∈ h.members) (taken : s.remove? x = some u)
    (inside : m ∈ h.members) :
    u.contains m = true ↔ s.contains m = true ∧ ¬ s.TakenWith x m := by
  have rest := fits.remove? known taken
  cases s with
  | children parent leftOut =>
    cases taken
    rw [contains_children regular rest inside, contains_children regular fits inside,
      not_mem_insertNew_iff regular fits.2 known, and_assoc]
    rfl
  | grandchildren parent leftOut => cases taken
  | descendants root l leftOut =>
    cases taken
    rw [contains_descendants regular rest inside, contains_descendants regular fits inside,
      forall_insertNew_iff regular fits.2 known, and_assoc, and_assoc]
    rfl
  | level l leftOut =>
    cases taken
    rw [contains_level regular rest inside, contains_level regular fits inside,
      forall_insertNew_iff regular fits.2.2 known, and_assoc]
    rfl
  | roots l leftOut =>
    cases taken
    rw [contains_roots regular rest inside, contains_roots regular fits inside,
      not_mem_insertNew_iff regular fits.2.2.2 known, and_assoc]
    rfl
  | listed ms =>
    cases taken
    rw [contains, contains, regular.contains_iff rest inside, regular.contains_iff fits inside,
      List.mem_filter, Bool.not_eq_true', ← Bool.not_eq_true, regular.beq_iff inside known]
    rfl

theorem containsAncestorOf_iff (inside : m ∈ h.members) :
    s.containsAncestorOf m = true ↔ ∃ k ∈ h.members, s.contains k = true ∧ k ∈ m.upward := by
  rw [containsAncestorOf, List.any_eq_true]
  refine exists_congr fun k => ?_
  constructor
  · exact fun given => ⟨regular.upward_mem inside given.1, given.2, given.1⟩
  · exact fun given => ⟨given.2.2, given.2.1⟩

variable (found : Expr.findHierarchy hs h.name = .ok h)

include found

/-- The members at or below those of a set are the descendants of its expression. -/
theorem picks_below (fits : s.Fits h) : (Expr.descendants s.expr 0 .selfAndAfter).Picks hs h
    {m | m ∈ h.members ∧ s.containsAncestorOf m = true} := by
  have below := Expr.picks_within regular found (picks_expr regular found fits) 0 .selfAndAfter
  refine below.congr fun m => and_congr_right fun inside => ?_
  rw [containsAncestorOf_iff regular inside]
  simp [Reach.accepts, and_assoc]

end

theorem exists_remove? (s : MemberSet) (x : Member) :
    (∃ parent leftOut, s = .grandchildren parent leftOut) ∨ ∃ u, s.remove? x = some u := by
  cases s with
  | grandchildren parent leftOut => exact Or.inl ⟨parent, leftOut, rfl⟩
  | _ => exact Or.inr ⟨_, rfl⟩

/-- A member set contains what its expression denotes, and covers what is at or below
that. All but the grandchildren give members up, with what goes with them. -/
theorem contains_iff_denoted (built : h.Built) (members : (h.members.map Member.uniqueName).Nodup)
    (levels : (h.levels.map Level.name).Nodup) (names : (hs.map (·.name)).Nodup) (listed : h ∈ hs)
    (made : s.Made h) :
    (∃ ms, s.expr.evaluateMembers hs = .ok ms ∧
      ∀ m, m ∈ ms ↔ m ∈ h.members ∧ s.contains m = true) ∧
    (∃ ms, (Expr.descendants s.expr 0 .selfAndAfter).evaluateMembers hs = .ok ms ∧
      ∀ m, m ∈ ms ↔ m ∈ h.members ∧ s.containsAncestorOf m = true) ∧
    ∀ x ∈ h.members, (∃ parent leftOut, s = .grandchildren parent leftOut) ∨
      ∃ u, s.remove? x = some u ∧
        ∀ m ∈ h.members, u.contains m = true ↔ s.contains m = true ∧ ¬ s.TakenWith x m := by
  have regular := built.regular members
  have found := Expr.findHierarchy_of_nodup names listed
  have fits := made.fits regular.toSound levels
  refine ⟨(picks_expr regular found fits).denotes.argument_members,
    (picks_below regular found fits).denotes.argument_members, fun x known => ?_⟩
  refine (s.exists_remove? x).imp_right fun given => ?_
  obtain ⟨u, taken⟩ := given
  exact ⟨u, taken, fun m inside => contains_remove? regular fits known taken inside⟩

/-- The months of the calendar without those of the first year. -/
theorem contains_iff_denoted_calendar :
    let months := MemberSet.level ⟨"Time", "Month", 1⟩ [.year]
    (∃ ms, months.expr.evaluateMembers [.calendar] = .ok ms ∧
      ∀ m, m ∈ ms ↔ m ∈ Hierarchy.calendar.members ∧ months.contains m = true) ∧
    (∃ ms, (Expr.descendants months.expr 0 .selfAndAfter).evaluateMembers [.calendar] = .ok ms ∧
      ∀ m, m ∈ ms ↔ m ∈ Hierarchy.calendar.members ∧ months.containsAncestorOf m = true) ∧
    ∀ x ∈ Hierarchy.calendar.members, (∃ parent leftOut, months = .grandchildren parent leftOut) ∨
      ∃ u, months.remove? x = some u ∧ ∀ m ∈ Hierarchy.calendar.members,
        u.contains m = true ↔ months.contains m = true ∧ ¬ months.TakenWith x m := by
  have month : (⟨"Time", "Month", 1⟩ : Level) ∈ Hierarchy.calendar.levels :=
    List.mem_of_getElem? (i := 1) rfl
  exact contains_iff_denoted Hierarchy.calendar_built (by decide) (by decide) (by decide)
    (List.mem_singleton_self _) (.remove (.level month) Hierarchy.year_mem_calendar rfl)

end MemberSet
end CubeAxis
