import CubeAxis.Proofs.Expr.MemberSets
import CubeAxis.Proofs.Resolution.Visibility
import CubeAxis.Resolution.Collapsed

namespace CubeAxis.Collapsed

variable {hs : List Hierarchy} {h : Hierarchy} {t : SelectionTree} {positions : List Member}
  {p q : Progress} {A B : Set Member}

/-- What is built so far promises nothing that is not visible, and the pool holds
recorded positions only. -/
structure Honest (hs : List Hierarchy) (h : Hierarchy) (t : SelectionTree)
    (positions : List Member) (p : Progress) : Prop where
  evaluable : p.axis.Evaluable hs h
  closes : p.axis.undrills = {}
  pool : ∀ m ∈ p.pool, m ∈ positions
  roots : ∀ m ∈ p.axis.roots.shown hs, Visible h t positions m
  drills : ∀ m ∈ p.axis.drills.shown hs, Visible h t positions m ∧ m ∈ positions
  excluded : ∀ m ∈ p.axis.excluded.shown hs, t.isIncluded m = false

/-- The member is among the roots or shown by a drill on its parent. -/
def Covers (hs : List Hierarchy) (p : Progress) (m : Member) : Prop :=
  m ∈ p.axis.roots.shown hs ∨ ∃ d ∈ p.axis.drills.shown hs, m.parent? = some d

/-- A drill on the member shows nothing that is not included. -/
def Tidy (hs : List Hierarchy) (h : Hierarchy) (t : SelectionTree) (p : Progress) (d : Member) :
    Prop :=
  ∀ c ∈ h.members, c.parent? = some d → t.isIncluded c = true ∨ c ∈ p.axis.excluded.shown hs

/-- The recorded positions of an area are still in the pool. -/
def Unclaimed (positions : List Member) (A : Set Member) (p : Progress) : Prop :=
  ∀ m ∈ A, m ∈ positions → m ∈ p.pool

/-- From `p` to `q` the visible members of an area are added, and no position
outside of it is claimed. -/
structure Grows (hs : List Hierarchy) (h : Hierarchy) (t : SelectionTree) (positions : List Member)
    (A : Set Member) (p q : Progress) : Prop where
  honest : Honest hs h t positions q
  roots : p.axis.roots.shown hs ⊆ q.axis.roots.shown hs
  drills : p.axis.drills.shown hs ⊆ q.axis.drills.shown hs
  excluded : p.axis.excluded.shown hs ⊆ q.axis.excluded.shown hs
  pool : ∀ m ∉ A, m ∈ p.pool → m ∈ q.pool
  tidy : ∀ d ∈ q.axis.drills.shown hs, d ∈ p.axis.drills.shown hs ∨ Tidy hs h t q d
  covers : ∀ m ∈ A, Visible h t positions m → Covers hs q m

theorem Honest.covers_visible (honest : Honest hs h t positions p) {m : Member}
    (covered : Covers hs p m) (inside : m ∈ h.members) (included : t.isIncluded m = true) :
    Visible h t positions m := by
  rcases covered with root | ⟨d, drilled, link⟩
  · exact honest.roots m root
  · obtain ⟨visible, known⟩ := honest.drills d drilled
    refine (visible.opens known).visible inside (Member.parent_mem_ancestors link) included ?_
    intro a above below _
    have top := Member.depth_lt_of_mem_ancestors above
    have low := Member.depth_lt_of_mem_ancestors below
    have step := Member.depth_of_parent? link
    omega

namespace Grows

theorem refl (honest : Honest hs h t positions p)
    (empty : ∀ m ∈ A, ¬ Visible h t positions m) : Grows hs h t positions A p p where
  honest := honest
  roots := Set.Subset.rfl
  drills := Set.Subset.rfl
  excluded := Set.Subset.rfl
  pool _ _ := id
  tidy _ := Or.inl
  covers m inside visible := absurd visible (empty m inside)

theorem covered (grows : Grows hs h t positions A p q) {m : Member} (old : Covers hs p m) :
    Covers hs q m :=
  old.imp (grows.roots ·) fun ⟨d, drilled, link⟩ => ⟨d, grows.drills drilled, link⟩

theorem keeps_tidy (grows : Grows hs h t positions A p q) {d : Member} (old : Tidy hs h t p d) :
    Tidy hs h t q d :=
  fun c inside link => (old c inside link).imp_right (grows.excluded ·)

theorem trans {r : Progress} (first : Grows hs h t positions A p q)
    (second : Grows hs h t positions B q r) : Grows hs h t positions (A ∪ B) p r where
  honest := second.honest
  roots := first.roots.trans second.roots
  drills := first.drills.trans second.drills
  excluded := first.excluded.trans second.excluded
  pool m outside mem := by
    rw [Set.mem_union, not_or] at outside
    exact second.pool m outside.2 (first.pool m outside.1 mem)
  tidy d drilled := by
    rcases second.tidy d drilled with old | tidy
    · exact (first.tidy d old).imp_right second.keeps_tidy
    · exact Or.inr tidy
  covers m inside visible := by
    rcases inside with left | right
    · exact second.covered (first.covers m left visible)
    · exact second.covers m right visible

/-- The area may be given with members that are not visible, or that nothing claims. -/
theorem mono (grows : Grows hs h t positions A p q) (sub : A ⊆ B)
    (rest : ∀ m ∈ B, Visible h t positions m → m ∉ A → Covers hs q m) :
    Grows hs h t positions B p q :=
  { grows with
    pool := fun m outside mem => grows.pool m (fun inside => outside (sub inside)) mem
    covers := fun m inside visible => by
      by_cases known : m ∈ A
      · exact grows.covers m known visible
      · exact rest m inside visible known }

theorem unclaimed (grows : Grows hs h t positions A p q) (free : Unclaimed positions B p)
    (apart : ∀ m ∈ B, m ∉ A) : Unclaimed positions B q :=
  fun m inside known => grows.pool m (apart m inside) (free m inside known)

end Grows

section

variable (honest : Honest hs h t positions p) (regular : h.Regular) {e : Expr} {s : Set Member}

include honest

theorem Honest.claim {pool : Pool} (sub : ∀ m ∈ pool, m ∈ p.pool)
    (rest : ∀ m ∉ A, m ∈ p.pool → m ∈ pool)
    (covered : ∀ m ∈ A, Visible h t positions m → Covers hs p m) :
    Grows hs h t positions A p { p with pool := pool } where
  honest := { honest with pool := fun m mem => honest.pool m (sub m mem) }
  roots := Set.Subset.rfl
  drills := Set.Subset.rfl
  excluded := Set.Subset.rfl
  pool := rest
  tidy _ := Or.inl
  covers := covered

/-- Taking members of an area out of the pool where all visible ones are covered. -/
theorem Honest.takeWhere (test : Member → Bool)
    (within : ∀ m ∈ p.pool, test m = true → m ∈ A)
    (covered : ∀ m ∈ A, Visible h t positions m → Covers hs p m) :
    Grows hs h t positions A p { p with pool := (p.pool.takeWhere test).2 } := by
  refine honest.claim (fun m mem => (List.mem_filter.mp mem).1) (fun m outside mem => ?_) covered
  refine List.mem_filter.mpr ⟨mem, ?_⟩
  rw [Bool.not_eq_true', Bool.eq_false_iff]
  exact fun passed => outside (within m mem passed)

include regular

theorem Honest.add (term : e.Term hs (lone h.all) (lone s))
    (visible : ∀ m ∈ s, Visible h t positions m)
    (covers : ∀ m ∈ A, Visible h t positions m → m ∈ s) :
    Grows hs h t positions A p { p with axis := p.axis.add e } := by
  have roots : (p.axis.add e).roots.shown hs = p.axis.roots.shown hs ∪ s :=
    UnionTerms.shown_add regular term
  refine ⟨{ honest with evaluable := honest.evaluable.add term, roots := fun m mem => ?_ },
    fun m mem => ?_, Set.Subset.rfl, Set.Subset.rfl, fun _ _ => id, fun _ => Or.inl,
    fun m inside shown => Or.inl ?_⟩
  · rw [roots] at mem
    exact mem.elim (honest.roots m) (visible m)
  · rw [roots]
    exact Or.inl mem
  · rw [roots]
    exact Or.inr (covers m inside shown)

theorem Honest.exclude (term : e.Term hs (lone h.all) (lone s))
    (hidden : ∀ m ∈ s, t.isIncluded m = false) (empty : ∀ m ∈ A, ¬ Visible h t positions m) :
    Grows hs h t positions A p { p with axis := p.axis.exclude e } ∧
      s ⊆ (p.axis.exclude e).excluded.shown hs := by
  have excluded : (p.axis.exclude e).excluded.shown hs = p.axis.excluded.shown hs ∪ s :=
    UnionTerms.shown_add regular term
  have fine : Honest hs h t positions { p with axis := p.axis.exclude e } := by
    refine { honest with evaluable := honest.evaluable.exclude term, excluded := fun m mem => ?_ }
    rw [excluded] at mem
    exact mem.elim (honest.excluded m) (hidden m)
  rw [excluded]
  refine ⟨⟨fine, Set.Subset.rfl, Set.Subset.rfl, fun m mem => ?_, fun _ _ => id, fun _ => Or.inl,
    fun m inside shown => absurd shown (empty m inside)⟩, Set.subset_union_right⟩
  rw [excluded]
  exact Or.inl mem

theorem Honest.drill (term : e.Term hs (lone h.all) (lone s))
    (visible : ∀ m ∈ s, Visible h t positions m ∧ m ∈ positions) :
    Honest hs h t positions { p with axis := p.axis.drill e } := by
  refine { honest with evaluable := honest.evaluable.drill term, drills := fun m mem => ?_ }
  rw [AxisSet.drill, UnionTerms.shown_add regular term] at mem
  exact mem.elim (honest.drills m) (visible m)

theorem Honest.drill_grows (term : e.Term hs (lone h.all) (lone s))
    (visible : ∀ m ∈ s, Visible h t positions m ∧ m ∈ positions)
    (tidy : ∀ d ∈ s, ∀ c ∈ h.members, c.parent? = some d → t.isIncluded c = true)
    (covers : ∀ m ∈ A, Visible h t positions m → ∃ d ∈ s, m.parent? = some d) :
    Grows hs h t positions A p { p with axis := p.axis.drill e } := by
  have drills : (p.axis.drill e).drills.shown hs = p.axis.drills.shown hs ∪ s :=
    UnionTerms.shown_add regular term
  refine ⟨honest.drill regular term visible, Set.Subset.rfl, fun m mem => ?_, Set.Subset.rfl,
    fun _ _ => id, fun d mem => ?_, fun m inside shown => Or.inr ?_⟩
  · rw [drills]
    exact Or.inl mem
  · rw [drills] at mem
    exact mem.imp_right fun new c inside link => Or.inl (tidy d new c inside link)
  · obtain ⟨d, mem, link⟩ := covers m inside shown
    refine ⟨d, ?_, link⟩
    rw [drills]
    exact Or.inr mem

end

end CubeAxis.Collapsed
