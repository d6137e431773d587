import CubeAxis.Proofs.Resolution.Expanded.Deeper
import CubeAxis.Proofs.Resolution.Region
import CubeAxis.Proofs.Sorting

namespace CubeAxis
namespace Expanded

variable {hs : List Hierarchy} {h : Hierarchy} {p q : Progress} {m : Member}

section

variable (regular : h.Regular)

include regular

/-- Keeping a list of members in turn: all of them end up at or below a kept one. -/
theorem foldl_keep (candidates kept : List Member) (known : ∀ c ∈ candidates, c ∈ h.members)
    (old : ∀ k ∈ kept, k ∈ h.members) :
    (∀ k ∈ candidates.foldl outermost.keepUnlessBelow kept, k ∈ kept ∨ k ∈ candidates) ∧
      (∀ k ∈ kept, k ∈ candidates.foldl outermost.keepUnlessBelow kept) ∧
      ∀ c ∈ candidates, c ∈ candidates.foldl outermost.keepUnlessBelow kept ∨
        ∃ k ∈ candidates.foldl outermost.keepUnlessBelow kept, k ∈ c.ancestors := by
  induction candidates generalizing kept with
  | nil => exact ⟨fun k mem => Or.inl mem, fun k mem => mem, fun c mem => absurd mem List.not_mem_nil⟩
  | cons c cs ih =>
    have inside := known c List.mem_cons_self
    have rest : ∀ k ∈ cs, k ∈ h.members := fun k mem => known k (List.mem_cons_of_mem _ mem)
    rw [List.foldl_cons]
    by_cases hidden : c.ancestors.any kept.contains = true
    · have same : outermost.keepUnlessBelow kept c = kept := by
        rw [outermost.keepUnlessBelow, if_pos hidden]
      rw [same]
      obtain ⟨sound, keeps, covers⟩ := ih kept rest old
      refine ⟨fun k mem => (sound k mem).imp_right (List.mem_cons_of_mem _), keeps, fun x mem => ?_⟩
      rcases List.mem_cons.mp mem with rfl | tail
      · obtain ⟨k, above, present⟩ := List.any_eq_true.mp hidden
        have listed := (regular.contains_iff old (regular.ancestors_mem inside above)).mp present
        exact Or.inr ⟨k, keeps k listed, above⟩
      · exact covers x tail
    · have more : outermost.keepUnlessBelow kept c = insertNew kept c := by
        rw [outermost.keepUnlessBelow, if_neg hidden]
      rw [more]
      have mem_iff : ∀ k, k ∈ insertNew kept c ↔ k ∈ kept ∨ k = c := fun k =>
        regular.discrete.mem_insertNew old inside
      obtain ⟨sound, keeps, covers⟩ := ih (insertNew kept c) rest fun k mem => by
        rcases (mem_iff k).mp mem with listed | rfl
        · exact old k listed
        · exact inside
      refine ⟨fun k mem => ?_, fun k mem => keeps k ((mem_iff k).mpr (Or.inl mem)), fun x mem => ?_⟩
      · rcases sound k mem with old | new
        · refine ((mem_iff k).mp old).imp_right fun same => ?_
          rw [same]
          exact List.mem_cons_self
        · exact Or.inr (List.mem_cons_of_mem _ new)
      · rcases List.mem_cons.mp mem with rfl | tail
        · exact Or.inl (keeps x ((mem_iff x).mpr (Or.inr rfl)))
        · exact covers x tail

theorem mem_of_mem_outermost {candidates : List Member}
    (known : ∀ c ∈ candidates, c ∈ h.members) {k : Member} (mem : k ∈ outermost candidates) :
    k ∈ candidates := by
  have found := (foldl_keep regular (sortBy Member.depth candidates) []
    (fun c listed => known c (mem_sortBy.mp listed)) fun _ none => absurd none List.not_mem_nil).1
  exact mem_sortBy.mp ((found k mem).resolve_left List.not_mem_nil)

/-- Every candidate is among the outermost ones or below one of them. -/
theorem outermost_covers {candidates : List Member} (known : ∀ c ∈ candidates, c ∈ h.members)
    {c : Member} (mem : c ∈ candidates) :
    c ∈ outermost candidates ∨ ∃ k ∈ outermost candidates, k ∈ c.ancestors :=
  (foldl_keep regular (sortBy Member.depth candidates) []
    (fun c listed => known c (mem_sortBy.mp listed)) fun _ none => absurd none List.not_mem_nil).2.2 c
      (mem_sortBy.mpr mem)

end

theorem foldl_undrill_adds {us : List Member} (inside : ∀ u ∈ us, u ∈ h.members) (p : Progress) :
    Adds hs h p (us.foldl Progress.undrill p) ∅ {u | u ∈ us} ∅ [] := by
  induction us generalizing p with
  | nil => exact (Adds.refl p).congr rfl (by simp) rfl rfl
  | cons u us ih =>
    have rest := ih (fun k mem => inside k (List.mem_cons_of_mem _ mem)) (p.undrill u)
    have first : Adds hs h p (p.undrill u) ∅ {u} ∅ [] := .undrill (inside u List.mem_cons_self)
    refine (first.trans rest).congr (by simp) (Set.ext fun x => ?_) (by simp) rfl
    simp

theorem Blind.foldl_undrill (us : List Member) : Blind (us.foldl Progress.undrill) :=
  .foldl (fun _ _ _ => rfl) us

/-- What closing a region claims and hides. -/
structure Closed (h : Hierarchy) (r : Region) (before after : Pool) (U : Set Member) : Prop where
  owned : ∀ u ∈ U, u ∈ r.area h ∧ r.tree.isIncluded u = true ∧ u ∈ before
  covers : ∀ m ∈ r.area h, r.tree.isIncluded m = true → m ∈ before → m ∈ U ∨ ∃ u ∈ U, u ∈ m.ancestors
  fewer : ∀ m ∈ after, m ∈ before
  kept : ∀ m ∉ r.area h, m ∈ before → m ∈ after

/-- The test for the members that a region closes. -/
def closes (r : Region) (m : Member) : Bool :=
  r.owns m && (r.signAt m.depth).isIncluded

theorem closeRegion_eq (r : Region) (p : Progress) :
    closeRegion r p = (outermost (p.pool.filter (closes r))).foldl Progress.undrill
      { p with pool := p.pool.filter fun m => !closes r m } :=
  rfl

theorem pool_closeRegion (r : Region) (p : Progress) :
    (closeRegion r p).pool = p.pool.filter fun m => !closes r m := by
  rw [closeRegion_eq, (Blind.foldl_undrill _).pool]

theorem closes_iff (regular : h.Regular) {r : Region} (sits : r.Sits h) (inside : m ∈ h.members) :
    closes r m = true ↔ m ∈ r.area h ∧ r.tree.isIncluded m = true := by
  rw [closes, Bool.and_eq_true, sits.owns_iff regular inside]
  exact and_congr_right fun owned => (sits.isIncluded_iff regular owned).symm

theorem mem_filter_closes (regular : h.Regular) {r : Region} (sits : r.Sits h) {pool : Pool}
    (inPool : ∀ m ∈ pool, m ∈ h.members) :
    m ∈ pool.filter (closes r) ↔ m ∈ pool ∧ m ∈ r.area h ∧ r.tree.isIncluded m = true := by
  rw [List.mem_filter]
  exact and_congr_right fun mem => closes_iff regular sits (inPool m mem)

theorem closeRegion_adds (regular : h.Regular) {r : Region} (sits : r.Sits h)
    (inPool : ∀ m ∈ p.pool, m ∈ h.members) :
    ∃ U, Adds hs h p (closeRegion r p) ∅ U ∅ [] ∧ Closed h r p.pool (closeRegion r p).pool U := by
  have mem_iff := fun m => mem_filter_closes (m := m) regular sits inPool
  have known : ∀ m ∈ p.pool.filter (closes r), m ∈ h.members :=
    fun m mem => inPool m ((mem_iff m).mp mem).1
  have left : ∀ m, m ∈ (closeRegion r p).pool ↔ m ∈ p.pool ∧ (!closes r m) = true := by
    intro m
    rw [pool_closeRegion, List.mem_filter]
  have closes : Adds hs h _ (closeRegion r p) ∅ _ ∅ [] :=
    foldl_undrill_adds (fun u mem => known u (mem_of_mem_outermost regular known mem)) _
  refine ⟨_, ((Adds.pool _).trans closes).congr (Set.union_empty _).symm rfl (by simp) rfl,
    fun u mem => ?_, fun m owned included mem => ?_, fun m mem => ((left m).mp mem).1,
    fun m other mem => ?_⟩
  · rw [Set.empty_union] at mem
    obtain ⟨pooled, owned, included⟩ := (mem_iff u).mp (mem_of_mem_outermost regular known mem)
    exact ⟨owned, included, pooled⟩
  · rw [Set.empty_union]
    exact outermost_covers regular known ((mem_iff m).mpr ⟨mem, owned, included⟩)
  · refine (left m).mpr ⟨mem, ?_⟩
    rw [Bool.not_eq_true', Bool.eq_false_iff]
    exact fun passed => other ((closes_iff regular sits (inPool m mem)).mp passed).1

theorem mem_unsignedDepths {r : Region} {d : Nat} :
    d ∈ unsignedDepths r ↔
      r.childrenDepth + 1 ≤ d ∧ d < r.levels.length ∧ r.levelSign d = none := by
  simp only [unsignedDepths, List.mem_filter, List.mem_range'_1, Option.isNone_iff_eq_none, and_assoc]
  refine and_congr_right fun low => and_congr_left fun _ => ?_
  omega

theorem nodup_unsignedDepths (r : Region) : (unsignedDepths r).Nodup :=
  List.Nodup.filter _ List.nodup_range'

/-- The deeper members of a region on unsigned levels go, and no others. -/
theorem excludeDeeper_adds {r : Region} (regular : h.Regular) (sits : r.Sits h)
    (found : Expr.findHierarchy hs h.name = .ok h) (site : r.site.member? = some m) (p : Progress) :
    Adds hs h p (excludeDeeper r.levels m r.overridden (unsignedDepths r) p) ∅ ∅
      {x | x ∈ r.area h ∧ m.depth + 2 ≤ x.depth ∧ r.levelSign x.depth = none} [] := by
  have inside := sits.member_mem m site
  have start : r.childrenDepth = m.depth + 1 := by rw [Region.childrenDepth, site]; rfl
  have children : ∀ l ∈ r.overridden, l ∈ h.children m := fun l label =>
    (regular.mem_children_iff inside).mpr
      ⟨sits.label_mem label, (sits.label_parent label).trans site⟩
  have within : ∀ d ∈ unsignedDepths r, m.depth + 2 ≤ d ∧ d < h.levels.length := by
    intro d mem
    obtain ⟨low, bound, _⟩ := mem_unsignedDepths.mp mem
    rw [start] at low
    exact ⟨low, sits.levels ▸ bound⟩
  have cover := deeperSets_cover regular found inside children (nodup_unsignedDepths r) within
  rw [← sits.levels] at cover
  refine (cover.excluded regular p).congr rfl rfl (Set.ext fun x => ?_) rfl
  have area : x ∈ r.area h ↔
      x ∈ h.members ∧ m ∈ x.ancestors ∧ ∀ l ∈ r.overridden, l ∉ x.upward := by
    simp [Region.area, site]
  simp only [deeper, Set.mem_ofPred_eq, mem_unsignedDepths, start, area]
  constructor
  · intro given
    obtain ⟨⟨member, under, free⟩, deep, sign⟩ := given
    exact ⟨member, under, ⟨deep, sits.depth_lt_levels regular.toSound member, sign⟩, free⟩
  · intro given
    obtain ⟨member, under, ⟨deep, _, sign⟩, free⟩ := given
    exact ⟨⟨member, under, free⟩, deep, sign⟩

end Expanded
end CubeAxis
