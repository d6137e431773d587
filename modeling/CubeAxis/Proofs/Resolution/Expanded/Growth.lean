import CubeAxis.Proofs.Resolution.Expanded.Additions
import CubeAxis.Proofs.Selection

namespace CubeAxis.Expanded

variable {hs : List Hierarchy} {h : Hierarchy} {t : SelectionTree} {positions : List Member}
  {p q : Progress} {A B A' B' R U X : Set Member} {C : List (Nat × Member)} {x : Member}

/-- The member is cut out of the level-wide set of its level. -/
def Cut (p : Progress) (x : Member) : Prop :=
  ∃ c, (x.depth, c) ∈ p.cutOuts ∧ c ∈ x.upward

/-- The member is among the roots and not excluded. -/
def Shown (hs : List Hierarchy) (p : Progress) (x : Member) : Prop :=
  x ∈ p.axis.roots.shown hs ∧ x ∉ p.axis.excluded.shown hs

/-- The sets built so far leave nothing to do for the member but what the level-wide
sets will do: these reach the members on signed levels that are not special. -/
structure Right (hs : List Hierarchy) (h : Hierarchy) (t : SelectionTree) (p : Progress)
    (x : Member) : Prop where
  cut : (t.levelSignAt h.levels x.depth).isSome = true → (Cut p x ↔ t.isSpecial x = true)
  plain : t.levelSignAt h.levels x.depth = none ∨ t.isSpecial x = true →
    (Shown hs p x ↔ t.isIncluded x = true)
  leveled : t.levelSignAt h.levels x.depth = some .included → t.isSpecial x = false →
    x ∉ p.axis.excluded.shown hs

/-- The member lies below a closed one. -/
def Hidden (hs : List Hierarchy) (p : Progress) (x : Member) : Prop :=
  ∃ u ∈ p.axis.undrills.shown hs, u ∈ x.ancestors

/-- Nothing but recorded members is closed, and nothing is opened. -/
structure Fine (hs : List Hierarchy) (h : Hierarchy) (t : SelectionTree) (positions : List Member)
    (p : Progress) : Prop where
  evaluable : p.axis.Evaluable hs h
  drills : p.axis.drills = {}
  pool : ∀ m ∈ p.pool, m ∈ positions
  cutOuts : ∀ c ∈ p.cutOuts, c.2 ∈ h.members
  undrills : ∀ u ∈ p.axis.undrills.shown hs, t.isIncluded u = true ∧ u ∈ positions

/-- The recorded positions of an area are still in the pool. -/
def Unclaimed (positions : List Member) (A : Set Member) (p : Progress) : Prop :=
  ∀ m ∈ A, m ∈ positions → m ∈ p.pool

/-- From `p` to `q` nothing changes outside of `A`, and the members of `B` are dealt with. -/
structure Grows (hs : List Hierarchy) (h : Hierarchy) (t : SelectionTree) (positions : List Member)
    (A B : Set Member) (p q : Progress) : Prop where
  fine : Fine hs h t positions q
  undrills : p.axis.undrills.shown hs ⊆ q.axis.undrills.shown hs
  roots : ∀ x ∈ h.members, x ∉ A → (x ∈ q.axis.roots.shown hs ↔ x ∈ p.axis.roots.shown hs)
  excluded : ∀ x ∈ h.members, x ∉ A →
    (x ∈ q.axis.excluded.shown hs ↔ x ∈ p.axis.excluded.shown hs)
  cut : ∀ x ∈ h.members, x ∉ A → (Cut q x ↔ Cut p x)
  pool : ∀ x ∉ B, x ∈ p.pool → x ∈ q.pool
  right : ∀ x ∈ B, x ∈ h.members ∧ (Hidden hs q x ∨ Right hs h t q x)
  closes : ∀ x ∈ B, t.isIncluded x = true → x ∈ positions →
    x ∈ q.axis.undrills.shown hs ∨ Hidden hs q x

theorem Right.congr (right : Right hs h t p x)
    (roots : x ∈ q.axis.roots.shown hs ↔ x ∈ p.axis.roots.shown hs)
    (excluded : x ∈ q.axis.excluded.shown hs ↔ x ∈ p.axis.excluded.shown hs)
    (cut : Cut q x ↔ Cut p x) : Right hs h t q x where
  cut signed := cut.trans (right.cut signed)
  plain reached := by
    rw [← right.plain reached, Shown, Shown, roots, excluded]
  leveled sign special := by
    rw [excluded]
    exact right.leveled sign special

namespace Grows

theorem hidden (grows : Grows hs h t positions A B p q) (old : Hidden hs p x) : Hidden hs q x :=
  old.imp fun _ ⟨closed, above⟩ => ⟨grows.undrills closed, above⟩

theorem trans {r : Progress} (first : Grows hs h t positions A B p q)
    (second : Grows hs h t positions A' B' q r) (apart : ∀ x ∈ B, x ∉ A') :
    Grows hs h t positions (A ∪ A') (B ∪ B') p r where
  fine := second.fine
  undrills := first.undrills.trans second.undrills
  roots x inside outside := by
    rw [Set.mem_union, not_or] at outside
    rw [second.roots x inside outside.2, first.roots x inside outside.1]
  excluded x inside outside := by
    rw [Set.mem_union, not_or] at outside
    rw [second.excluded x inside outside.2, first.excluded x inside outside.1]
  cut x inside outside := by
    rw [Set.mem_union, not_or] at outside
    rw [second.cut x inside outside.2, first.cut x inside outside.1]
  pool x outside mem := by
    rw [Set.mem_union, not_or] at outside
    exact second.pool x outside.2 (first.pool x outside.1 mem)
  right x inside := by
    rcases inside with left | other
    · obtain ⟨member, state⟩ := first.right x left
      have far := apart x left
      refine ⟨member, state.imp second.hidden fun right => ?_⟩
      exact right.congr (second.roots x member far) (second.excluded x member far)
        (second.cut x member far)
    · exact second.right x other
  closes x inside included recorded := by
    rcases inside with left | other
    · exact (first.closes x left included recorded).imp (second.undrills ·) second.hidden
    · exact second.closes x other included recorded

theorem unclaimed (grows : Grows hs h t positions A B p q) (free : Unclaimed positions A' p)
    (apart : ∀ x ∈ A', x ∉ B) : Unclaimed positions A' q :=
  fun x inside recorded => grows.pool x (apart x inside) (free x inside recorded)

theorem refl (fine : Fine hs h t positions p) : Grows hs h t positions ∅ ∅ p p where
  fine := fine
  undrills := Set.Subset.rfl
  roots _ _ _ := Iff.rfl
  excluded _ _ _ := Iff.rfl
  cut _ _ _ := Iff.rfl
  pool _ _ := id
  right x none := absurd none (Set.notMem_empty x)
  closes x none := absurd none (Set.notMem_empty x)

end Grows

namespace Adds

variable (adds : Adds hs h p q R U X C)

include adds

theorem cut_iff : Cut q x ↔ Cut p x ∨ ∃ c, (x.depth, c) ∈ C ∧ c ∈ x.upward := by
  simp only [Cut, adds.cutOuts, List.mem_append, or_and_right, exists_or]

theorem mem_roots : x ∈ q.axis.roots.shown hs ↔ x ∈ p.axis.roots.shown hs ∨ x ∈ R := by
  rw [adds.roots, Set.mem_union]

theorem mem_excluded : x ∈ q.axis.excluded.shown hs ↔ x ∈ p.axis.excluded.shown hs ∨ x ∈ X := by
  rw [adds.excluded, Set.mem_union]

theorem mem_undrills : x ∈ q.axis.undrills.shown hs ↔ x ∈ p.axis.undrills.shown hs ∨ x ∈ U := by
  rw [adds.undrills, Set.mem_union]

theorem fine (old : Fine hs h t positions p) (pool : ∀ m ∈ q.pool, m ∈ p.pool)
    (cutOuts : ∀ c ∈ C, c.2 ∈ h.members)
    (closed : ∀ u ∈ U, t.isIncluded u = true ∧ u ∈ positions) : Fine hs h t positions q where
  evaluable := adds.evaluable old.evaluable
  drills := adds.drills.trans old.drills
  pool m mem := old.pool m (pool m mem)
  cutOuts c mem := by
    rw [adds.cutOuts, List.mem_append] at mem
    exact mem.elim (old.cutOuts c) (cutOuts c)
  undrills u mem := (adds.mem_undrills.mp mem).elim (old.undrills u) (closed u)

/-- Additions within an area that deal with a part of it. -/
theorem grows (fine : Fine hs h t positions q) (roots : R ⊆ A) (excluded : X ⊆ A)
    (cutOuts : ∀ d c, (d, c) ∈ C → ∀ x ∈ h.members, c ∈ x.upward → x ∈ A)
    (pool : ∀ x ∉ B, x ∈ p.pool → x ∈ q.pool)
    (right : ∀ x ∈ B, x ∈ h.members ∧ (Hidden hs q x ∨ Right hs h t q x))
    (closes : ∀ x ∈ B, t.isIncluded x = true → x ∈ positions →
      x ∈ q.axis.undrills.shown hs ∨ Hidden hs q x) : Grows hs h t positions A B p q where
  fine := fine
  undrills x mem := adds.mem_undrills.mpr (Or.inl mem)
  roots x _ outside := by
    rw [adds.mem_roots]
    exact or_iff_left fun new => outside (roots new)
  excluded x _ outside := by
    rw [adds.mem_excluded]
    exact or_iff_left fun new => outside (excluded new)
  cut x inside outside := by
    rw [adds.cut_iff]
    refine or_iff_left ?_
    intro given
    obtain ⟨c, mem, above⟩ := given
    exact outside (cutOuts x.depth c mem x inside above)
  pool := pool
  right := right
  closes := closes

end Adds

end CubeAxis.Expanded
