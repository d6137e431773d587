import CubeAxis.Proofs.Resolution.Expanded.Levels
import CubeAxis.Proofs.Resolution.Sifting
import Mathlib.Data.List.Induction

namespace CubeAxis.Expanded

variable {h : Hierarchy} {t : SelectionTree} {positions : List Member} {keep : Member → Bool}
  {p q : Progress} {A B : Set Member}

section

variable (regular : h.Regular)

include regular

/-- A candidate below an earlier one is not kept. -/
theorem foldl_keep_concat {candidates : List Member} {c k : Member}
    (known : ∀ c ∈ candidates, c ∈ h.members) (earlier : k ∈ candidates) (above : k ∈ c.ancestors) :
    (candidates ++ [c]).foldl outermost.keepUnlessBelow [] =
      candidates.foldl outermost.keepUnlessBelow [] := by
  obtain ⟨sound, _, covers⟩ := foldl_keep regular candidates [] known
    fun _ none => absurd none List.not_mem_nil
  have kept : ∀ u ∈ candidates.foldl outermost.keepUnlessBelow [], u ∈ h.members :=
    fun u mem => known u ((sound u mem).resolve_left List.not_mem_nil)
  obtain ⟨u, mem, higher⟩ :
      ∃ u ∈ candidates.foldl outermost.keepUnlessBelow [], u ∈ c.ancestors := by
    rcases covers k earlier with mem | ⟨u, mem, higher⟩
    · exact ⟨k, mem, above⟩
    · exact ⟨u, mem, Member.mem_ancestors_trans (Member.mem_upward_of_ancestors higher) above⟩
  have hidden : c.ancestors.any (candidates.foldl outermost.keepUnlessBelow []).contains = true :=
    List.any_eq_true.mpr ⟨u, higher, (regular.contains_iff kept (kept u mem)).mpr mem⟩
  rw [List.foldl_append, List.foldl_cons, List.foldl_nil, outermost.keepUnlessBelow, if_pos hidden]

/-- Candidates below another one may be dropped before the outermost ones are kept. -/
theorem foldl_keep_filter {candidates : List Member} (known : ∀ c ∈ candidates, c ∈ h.members)
    (sorted : candidates.Pairwise fun a b => a.depth ≤ b.depth)
    (covered : ∀ c ∈ candidates, keep c = false → ∃ k ∈ candidates, k ∈ c.ancestors) :
    (candidates.filter keep).foldl outermost.keepUnlessBelow [] =
      candidates.foldl outermost.keepUnlessBelow [] := by
  induction candidates using List.reverseRecOn with
  | nil => rfl
  | append_singleton cs c ih =>
    obtain ⟨earlier, _, last⟩ := List.pairwise_append.mp sorted
    have knownCs : ∀ k ∈ cs, k ∈ h.members := fun k mem => known k (List.mem_append_left _ mem)
    have last_mem : c ∈ cs ++ [c] := List.mem_append_right _ (List.mem_singleton_self c)
    -- what lies above a candidate comes before it
    have before : ∀ x : Member, x.depth ≤ c.depth → ∀ k ∈ cs ++ [c], k ∈ x.ancestors → k ∈ cs := by
      intro x bound k mem above
      refine (List.mem_append.mp mem).resolve_right fun only => ?_
      have strict := Member.depth_lt_of_mem_ancestors above
      rw [List.mem_singleton.mp only] at strict
      omega
    have rest := ih knownCs earlier fun x mem dropped => by
      obtain ⟨k, listed, above⟩ := covered x (List.mem_append_left _ mem) dropped
      exact ⟨k, before x (last x mem c (List.mem_singleton_self c)) k listed above, above⟩
    rw [List.filter_append]
    cases kept : keep c with
    | true => rw [List.filter_cons_of_pos kept, List.filter_nil, List.foldl_append,
        List.foldl_append, rest]
    | false =>
      obtain ⟨k, listed, above⟩ := covered c last_mem kept
      rw [List.filter_cons_of_neg (Bool.eq_false_iff.mp kept), List.filter_nil, List.append_nil,
        rest, foldl_keep_concat regular knownCs (before c (Nat.le_refl _) k listed above) above]

theorem outermost_filter {candidates : List Member} (known : ∀ c ∈ candidates, c ∈ h.members)
    (covered : ∀ c ∈ candidates, keep c = false → ∃ k ∈ candidates, k ∈ c.ancestors) :
    outermost (candidates.filter keep) = outermost candidates := by
  rw [outermost, outermost, sortBy_filter]
  refine foldl_keep_filter regular (fun c mem => known c (mem_sortBy.mp mem))
    (sorted_sortBy Member.depth candidates) fun c mem dropped => ?_
  obtain ⟨k, listed, above⟩ := covered c (mem_sortBy.mp mem) dropped
  exact ⟨k, mem_sortBy.mpr listed, above⟩

end

/-- From `p` to `q` positions are claimed in `A` only. -/
def Claims (A : Set Member) (p q : Progress) : Prop :=
  ∀ m ∉ A, m ∈ p.pool → m ∈ q.pool

namespace Claims

theorem trans {r : Progress} (first : Claims A p q) (second : Claims B q r) : Claims (A ∪ B) p r := by
  intro m outside mem
  rw [Set.mem_union, not_or] at outside
  exact second m outside.2 (first m outside.1 mem)

theorem mono (claims : Claims A p q) (within : A ⊆ B) : Claims B p q :=
  fun m outside => claims m fun inside => outside (within inside)

theorem unclaimed (claims : Claims A p q) (free : Unclaimed positions B p) (apart : ∀ m ∈ B, m ∉ A) :
    Unclaimed positions B q :=
  fun m inside recorded => claims m (apart m inside) (free m inside recorded)

end Claims

theorem Blind.claims {f : Progress → Progress} (blind : Blind f) (p : Progress) :
    Claims ∅ p (f p) :=
  fun _ _ mem => blind.pool p ▸ mem

/-- Two walks at the same place, the second with a sifted pool. -/
structure Sifted (keep : Member → Bool) (positions : List Member) (p q : Progress) : Prop where
  rest : q = { p with pool := p.pool.filter keep }
  recorded : ∀ m ∈ p.pool, m ∈ positions

namespace Sifted

/-- A member that the sieve lets through is claimed by both walks. -/
theorem take {m : Member} (sifted : Sifted keep positions p q) (regular : h.Regular)
    (recorded : ∀ k ∈ positions, k ∈ h.members) (inside : m ∈ h.members)
    (through : keep m = true) :
    q.pool.contains m = p.pool.contains m ∧
      Sifted keep positions { p with pool := p.pool.erase m } { q with pool := q.pool.erase m } := by
  have both := Pool.take_filter regular (fun k mem => recorded k (sifted.recorded k mem)) inside
    through
  simp only [Pool.take, Prod.mk.injEq] at both
  rw [sifted.rest]
  exact ⟨both.1, ⟨by rw [both.2], fun k mem => sifted.recorded k (List.mem_of_mem_erase mem)⟩⟩

theorem step {f : Progress → Progress} (sifted : Sifted keep positions p q)
    (blind : Blind f) : Sifted keep positions (f p) (f q) where
  rest := by rw [sifted.rest, blind, blind.pool]
  recorded m mem := sifted.recorded m (blind.pool p ▸ mem)

end Sifted

section

variable (regular : h.Regular) (recorded : ∀ m ∈ positions, m ∈ h.members)

include regular recorded

/-- Both walks close the same members of a region: a hidden one lies below a visible one. -/
theorem closeRegion_sifted {r : Region} (sits : r.Sits h)
    (visible : ∀ m, Visible h r.tree positions m → keep m = true)
    (unclosed : ∀ m, r.site.member? = some m → Unclosed r.tree positions m)
    (free : Unclaimed positions (r.area h) p) (sifted : Sifted keep positions p q) :
    Sifted keep positions (closeRegion r p) (closeRegion r q) ∧
      Claims (r.area h) p (closeRegion r p) := by
  have known : ∀ m ∈ p.pool, m ∈ h.members := fun m mem => recorded m (sifted.recorded m mem)
  obtain ⟨_, -, closed⟩ : ∃ U, Adds [] h p (closeRegion r p) ∅ U ∅ [] ∧
      Closed h r p.pool (closeRegion r p).pool U := closeRegion_adds regular sits known
  refine ⟨⟨?_, fun m mem => sifted.recorded m (closed.fewer m mem)⟩, closed.kept⟩
  have mem_iff := fun m => mem_filter_closes (m := m) regular sits known
  have covered : ∀ c ∈ p.pool.filter (closes r), keep c = false →
      ∃ k ∈ p.pool.filter (closes r), k ∈ c.ancestors := by
    intro c mem dropped
    obtain ⟨pooled, owned, included⟩ := (mem_iff c).mp mem
    have hidden : ¬ Visible h r.tree positions c :=
      fun shown => Bool.noConfusion ((visible c shown).symm.trans dropped)
    obtain ⟨k, above, sign, drilled⟩ :
        ∃ k ∈ c.ancestors, r.tree.isIncluded k = true ∧ k ∈ positions := by
      by_contra none
      exact hidden ⟨owned.1, included, fun k above sign drilled => none ⟨k, above, sign, drilled⟩⟩
    rcases sits.mem_area_or_above regular.toSound owned above with inside | ⟨m, site, atop⟩
    · exact ⟨k, (mem_iff k).mpr ⟨free k inside drilled, inside, sign⟩, above⟩
    · exact absurd drilled (unclosed m site k atop sign)
  have same : outermost (q.pool.filter (closes r)) = outermost (p.pool.filter (closes r)) := by
    rw [sifted.rest, List.filter_comm]
    exact outermost_filter regular (fun c mem => known c ((mem_iff c).mp mem).1) covered
  have left : q.pool.filter (fun m => !closes r m) =
      (p.pool.filter fun m => !closes r m).filter keep := by
    rw [sifted.rest, List.filter_comm]
  have blind := Blind.foldl_undrill (outermost (p.pool.filter (closes r)))
  rw [closeRegion_eq, same, left, sifted.rest, closeRegion_eq, blind.pool, ← blind]

/-- A claimed node closes in both walks and claims its own member only. -/
theorem closeNode_sifted {m : Member} (inside : m ∈ h.members) (through : keep m = true)
    (a : Ambient) (sifted : Sifted keep positions p q) :
    Sifted keep positions (closeNode h t a m { p with pool := p.pool.erase m })
        (closeNode h t a m { q with pool := q.pool.erase m }) ∧
      Claims {m} p (closeNode h t a m { p with pool := p.pool.erase m }) := by
  have blind := Blind.closeNode h t a m
  refine ⟨(sifted.take regular recorded inside through).2.step blind, fun k outside mem => ?_⟩
  rw [blind.pool]
  exact regular.mem_erase_of_ne (recorded k (sifted.recorded k mem)) inside outside mem

variable (visible : ∀ m, Visible h t positions m → keep m = true) {parent : Option Member}
  {i : Inherited} {a : Ambient}

include visible

/-- An open node claims in its region and then below it. -/
theorem openNode_sifted {m : Member} {o : Override} {below beside : Forest Override}
    (stands : t.Stands h parent i (.cons m o below beside)) (unclosed : Unclosed t positions m)
    {r : Region} (shape : r = ⟨t, h.levels, ⟨some (m, i), o.state, o.sequence, below⟩⟩)
    (free : Unclaimed positions (r.area h ∪ below.area h) p) (sifted : Sifted keep positions p q)
    (visits : ∀ a p q, Unclaimed positions (below.area h) p → Sifted keep positions p q →
      Sifted keep positions (visit t h.levels (i.handDown o.state) a below p)
          (visit t h.levels (i.handDown o.state) a below q) ∧
        Claims (below.area h) p (visit t h.levels (i.handDown o.state) a below p))
    (self : Bool) :
    Sifted keep positions
        (visit t h.levels (i.handDown o.state) (ambientBelow r a) below (showRegion r m a self p).2)
        (visit t h.levels (i.handDown o.state) (ambientBelow r a) below (showRegion r m a self q).2) ∧
      Claims (r.area h ∪ below.area h) p (visit t h.levels (i.handDown o.state) (ambientBelow r a)
        below (showRegion r m a self p).2) := by
  have sits := stands.region
  rw [← shape] at sits
  have tree : r.tree = t := by rw [shape]
  have blind := (Edit.adjust r m a self).blind
  have adjusted := blind.claims p
  obtain ⟨region, claims⟩ := closeRegion_sifted regular recorded sits (tree.symm ▸ visible)
    (by rw [shape]; rintro k ⟨⟩; exact unclosed)
    (adjusted.unclaimed (fun k owned => free k (Or.inl owned)) fun k _ => Set.notMem_empty k)
    (sifted.step blind)
  have closed := (adjusted.trans claims).mono (Set.empty_union _).subset
  have apart : ∀ k ∈ below.area h, k ∉ r.area h :=
    fun k lower => r.not_mem_area_of_below (by rw [shape]; exact lower)
  obtain ⟨rest, claimsBelow⟩ := visits (ambientBelow r a) _ _
    (closed.unclaimed (fun k lower => free k (Or.inr lower)) apart) region
  exact ⟨rest, closed.trans claimsBelow⟩

/-- A node's member is claimed where it is included, and then it is visible. -/
theorem visitNode_sifted {m : Member} {o : Override} {below beside : Forest Override}
    (stands : t.Stands h parent i (.cons m o below beside))
    (unclosed : ∀ k, parent = some k → Unclosed t positions k)
    (free : Unclaimed positions (h.subtree m) p) (sifted : Sifted keep positions p q)
    (visits : Unclosed t positions m → ∀ a p q, Unclaimed positions (below.area h) p →
      Sifted keep positions p q →
      Sifted keep positions (visit t h.levels (i.handDown o.state) a below p)
          (visit t h.levels (i.handDown o.state) a below q) ∧
        Claims (below.area h) p (visit t h.levels (i.handDown o.state) a below p)) :
    Sifted keep positions (visitNode t h.levels i a m o below p)
        (visitNode t h.levels i a m o below q) ∧
      Claims (h.subtree m) p (visitNode t h.levels i a m o below p) := by
  have inside := stands.node_mem
  have self : m ∈ h.subtree m := ⟨inside, Member.mem_upward_self m⟩
  have above : ∀ k, m.parent? = some k → Unclosed t positions k :=
    fun k link => unclosed k (stands.node_parent.symm.trans link)
  obtain ⟨r, shape⟩ : ∃ r : Region, r = ⟨t, h.levels, ⟨some (m, i), o.state, o.sequence, below⟩⟩ :=
    ⟨_, rfl⟩
  have area : h.subtree m = {m} ∪ (r.area h ∪ below.area h) := shape ▸ stands.subtree_eq
  have marked := sifted.step (Edit.markNode h t r a m).blind
  have before := (Edit.markNode h t r a m).blind.claims p
  rw [visitNode, visitNode, enter_eq stands regular a p shape, enter_eq stands regular a q shape]
  dsimp only
  generalize markNode h t r a m p = p' at marked before ⊢
  generalize markNode h t r a m q = q' at marked ⊢
  have through := fun sign => visible m (visible_of_unclosed inside sign above)
  have agree : (t.isIncluded m && q'.pool.contains m) = (t.isIncluded m && p'.pool.contains m) := by
    cases sign : t.isIncluded m with
    | false => rfl
    | true => rw [(marked.take regular recorded inside (through sign)).1]
  rw [agree]
  by_cases closes : (t.isIncluded m && p'.pool.contains m) = true
  · rw [if_pos closes, if_pos closes]
    obtain ⟨sign, _⟩ := Bool.and_eq_true_iff.mp closes
    obtain ⟨closed, claims⟩ :=
      closeNode_sifted (t := t) regular recorded inside (through sign) a marked
    refine ⟨closed, (before.trans claims).mono ?_⟩
    rw [Set.empty_union]
    exact Set.singleton_subset_iff.mpr self
  · rw [if_neg closes, if_neg closes]
    have known : ∀ k ∈ p'.pool, k ∈ h.members := fun k mem => recorded k (marked.recorded k mem)
    have unclosedM : Unclosed t positions m := by
      refine unclosed_of_parent above fun sign drilled => closes ?_
      rw [sign, Bool.true_and, regular.contains_iff known inside]
      exact before m (Set.notMem_empty m) (free m self drilled)
    have unclaimed : Unclaimed positions (r.area h ∪ below.area h) p' :=
      before.unclaimed (fun k owned => free k (area ▸ Or.inr owned)) fun k _ => Set.notMem_empty k
    obtain ⟨rest, claims⟩ := openNode_sifted regular recorded visible stands unclosedM shape unclaimed
      marked (visits unclosedM) (a := a) (differsSelf h t a m && t.isIncluded m)
    refine ⟨rest, (before.trans claims).mono ?_⟩
    rw [Set.empty_union, area]
    exact Set.subset_union_right

/-- The walk over the nodes of a forest claims the same positions, below hidden ones apart. -/
theorem visit_sifted {f : Forest Override} (stands : t.Stands h parent i f)
    (unclosed : ∀ k, parent = some k → Unclosed t positions k)
    (free : Unclaimed positions (f.area h) p) (sifted : Sifted keep positions p q) :
    Sifted keep positions (visit t h.levels i a f p) (visit t h.levels i a f q) ∧
      Claims (f.area h) p (visit t h.levels i a f p) := by
  induction f generalizing parent i a p q with
  | nil => exact ⟨sifted, fun _ _ mem => mem⟩
  | cons m o below beside ihBelow ihBeside =>
    rw [SelectionTree.Stands.area_cons] at free ⊢
    obtain ⟨node, claims⟩ := visitNode_sifted regular recorded visible (a := a) stands unclosed
      (fun k mem => free k (Or.inl mem)) sifted fun unclosedM a p q free sifted =>
        ihBelow stands.region.stands (by rintro k ⟨⟩; exact unclosedM) free sifted
    obtain ⟨rest, claimsRest⟩ := ihBeside (a := a) (stands.siblings regular) unclosed
      (claims.unclaimed (fun k mem => free k (Or.inr mem)) fun k => stands.apart) node
    rw [visit_cons, visit_cons]
    exact ⟨rest, claims.trans claimsRest⟩

/-- A pool sifted from hidden positions leads to the same set. -/
theorem resolve_sifted (hung : t.overrides.Hung h none) :
    (resolve t h.levels (positions.filter keep)).axis = (resolve t h.levels positions).axis := by
  have start : Sifted keep positions { pool := positions } { pool := positions.filter keep } :=
    ⟨rfl, fun _ => id⟩
  obtain ⟨roots, claims⟩ := closeRegion_sifted regular recorded (SelectionTree.sits_root hung)
    visible (fun k none => by cases none) (fun _ _ => id) start
  have walk := (visit_sifted regular recorded visible (a := .nothing)
    (SelectionTree.sits_root hung).stands (fun k none => by cases none)
    (claims.unclaimed (fun _ _ => id) fun m => Region.not_mem_area_of_below _) roots).1
  exact (congrArg Progress.axis (walk.step (Edit.showLevels t h.levels).blind).rest :)

end

end CubeAxis.Expanded
