import CubeAxis.Proofs.Resolution.Expanded.Sifting
import Mathlib.Data.List.Nodup
import Mathlib.Data.List.Perm.Subperm

namespace CubeAxis.Expanded

/-- From `p` to `q` each recorded member of an area that is visible is closed once, and no
other one. Visible members leave the pool, what lies elsewhere stays in it. -/
structure Settles (h : Hierarchy) (t : SelectionTree) (positions : List Member) (A : Set Member)
    (p q : Progress) : Prop where
  order : q.pool.Sublist p.pool
  kept : Claims A p q
  left : ∀ m ∈ A, Visible h t positions m → m ∉ q.pool
  closes : ∃ us, q.axis.undrilled = p.axis.undrilled ++ us ∧ us.Nodup ∧
    ∀ m, m ∈ us ↔ m ∈ A ∧ m ∈ positions ∧ Visible h t positions m

variable {h : Hierarchy} {t : SelectionTree} {positions : List Member} {p q : Progress}
  {A B : Set Member}

namespace Settles

/-- A step that closes nothing is enough where no recorded member is visible. -/
theorem step {f : Progress → Progress} (edit : Edit f)
    (inPool : ∀ m ∈ p.pool, m ∈ positions)
    (none : ∀ m ∈ A, Visible h t positions m → m ∉ positions) :
    Settles h t positions A p (f p) where
  order := by rw [edit.blind.pool]
  kept _ _ mem := by rwa [edit.blind.pool]
  left m inside visible mem := by
    rw [edit.blind.pool] at mem
    exact none m inside visible (inPool m mem)
  closes := by
    refine ⟨[], by rw [edit.undrilled, List.append_nil], List.nodup_nil, fun m => ?_⟩
    exact iff_of_false List.not_mem_nil fun given => none m given.1 given.2.2 given.2.1

theorem trans {r : Progress} (first : Settles h t positions A p q)
    (second : Settles h t positions B q r) (apart : ∀ m ∈ B, m ∉ A) :
    Settles h t positions (A ∪ B) p r where
  order := second.order.trans first.order
  kept := first.kept.trans second.kept
  left m inside visible mem := by
    rcases inside with inside | inside
    · exact first.left m inside visible (second.order.subset mem)
    · exact second.left m inside visible mem
  closes := by
    obtain ⟨us, closedA, onceA, memA⟩ := first.closes
    obtain ⟨vs, closedB, onceB, memB⟩ := second.closes
    refine ⟨us ++ vs, by rw [closedB, closedA, List.append_assoc], ?_, fun m => ?_⟩
    · refine List.nodup_append.mpr ⟨onceA, onceB, fun u inA v inB same => ?_⟩
      exact apart v ((memB v).mp inB).1 (same ▸ ((memA u).mp inA).1)
    · rw [List.mem_append, memA, memB, Set.mem_union, or_and_right]

theorem unclaimed (settles : Settles h t positions A p q) (free : Unclaimed positions B p)
    (apart : ∀ m ∈ B, m ∉ A) : Unclaimed positions B q :=
  settles.kept.unclaimed free apart

end Settles

section

variable (regular : h.Regular)

include regular

/-- The outermost candidates are those below no other one. -/
theorem mem_outermost_iff {candidates : List Member} (known : ∀ c ∈ candidates, c ∈ h.members)
    {m : Member} :
    m ∈ outermost candidates ↔ m ∈ candidates ∧ ∀ k ∈ m.ancestors, k ∉ candidates := by
  constructor
  · intro mem
    have above : ∀ c ∈ candidates, c.ancestors.any candidates.contains = true ↔
        ∃ k ∈ candidates, k ∈ c.ancestors := by
      intro c listed
      rw [List.any_eq_true]
      constructor
      · rintro ⟨k, higher, present⟩
        have inside := regular.ancestors_mem (known c listed) higher
        exact ⟨k, (regular.contains_iff known inside).mp present, higher⟩
      · rintro ⟨k, present, higher⟩
        exact ⟨k, higher, (regular.contains_iff known (known k present)).mpr present⟩
    -- those below another one may be dropped first, so none of them is kept
    have dropped : outermost (candidates.filter fun c => !c.ancestors.any candidates.contains) =
        outermost candidates :=
      outermost_filter regular known fun c listed hidden =>
        (above c listed).mp ((Bool.not_eq_false' _).mp hidden)
    rw [← dropped] at mem
    have passed := mem_of_mem_outermost regular (fun c kept => known c (List.mem_of_mem_filter kept))
      mem
    obtain ⟨listed, free⟩ := List.mem_filter.mp passed
    refine ⟨listed, fun k higher present => ?_⟩
    rw [(above m listed).mpr ⟨k, present, higher⟩] at free
    exact Bool.false_ne_true free
  · rintro ⟨listed, free⟩
    refine (outermost_covers regular known listed).resolve_right ?_
    rintro ⟨k, kept, higher⟩
    exact free k higher (mem_of_mem_outermost regular known kept)

end

theorem nodup_outermost (candidates : List Member) : (outermost candidates).Nodup := by
  suffices kept : ∀ (cs ks : List Member), ks.Nodup →
      (cs.foldl outermost.keepUnlessBelow ks).Nodup from kept _ _ List.nodup_nil
  intro cs
  induction cs with
  | nil => exact fun _ once => once
  | cons c cs ih =>
    intro ks once
    refine ih _ ?_
    unfold outermost.keepUnlessBelow insertNew
    split
    · exact once
    · split
      · exact once
      · rename_i fresh
        refine once.append (List.nodup_singleton c) (List.disjoint_singleton.mpr fun mem => fresh ?_)
        exact List.contains_iff_exists_mem_beq.mpr ⟨c, mem, BEq.rfl⟩

theorem undrilled_foldl (us : List Member) (p : Progress) :
    (us.foldl Progress.undrill p).axis.undrilled = p.axis.undrilled ++ us := by
  induction us generalizing p with
  | nil => exact (List.append_nil _).symm
  | cons u us ih =>
    rw [List.foldl_cons, ih]
    exact List.append_assoc p.axis.undrilled [u] us

theorem undrilled_closeNode (h : Hierarchy) (t : SelectionTree) (a : Ambient) (m : Member)
    (p : Progress) : (closeNode h t a m p).axis.undrilled = p.axis.undrilled ++ [m] := by
  unfold closeNode Progress.when
  split <;> rfl

section

variable (regular : h.Regular) (recorded : ∀ m ∈ positions, m ∈ h.members)

include regular recorded

/-- Closing a region closes what is recorded and visible there. -/
theorem closeRegion_settles {r : Region} (sits : r.Sits h)
    (unclosed : ∀ m, r.site.member? = some m → Unclosed r.tree positions m)
    (inPool : ∀ m ∈ p.pool, m ∈ positions) (free : Unclaimed positions (r.area h) p) :
    Settles h r.tree positions (r.area h) p (closeRegion r p) := by
  have inside : ∀ m ∈ p.pool, m ∈ h.members := fun m mem => recorded m (inPool m mem)
  have mem_iff := fun m => mem_filter_closes (m := m) regular sits inside
  have known : ∀ m ∈ p.pool.filter (closes r), m ∈ h.members :=
    fun m mem => inside m (List.mem_of_mem_filter mem)
  have left := pool_closeRegion r p
  refine ⟨left ▸ List.filter_sublist, fun m outside mem => ?_, fun m owned visible mem => ?_,
    outermost (p.pool.filter (closes r)), ?_, nodup_outermost _, fun m => ?_⟩
  · rw [left, List.mem_filter, Bool.not_eq_true', ← Bool.not_eq_true,
      closes_iff regular sits (inside m mem)]
    exact ⟨mem, fun given => outside given.1⟩
  · rw [left, List.mem_filter, Bool.not_eq_true', ← Bool.not_eq_true,
      closes_iff regular sits visible.1] at mem
    exact mem.2 ⟨owned, visible.2.1⟩
  · rw [closeRegion_eq, undrilled_foldl]
  · rw [mem_outermost_iff regular known, mem_iff]
    constructor
    · rintro ⟨⟨mem, owned, included⟩, outer⟩
      refine ⟨owned, inPool m mem, owned.1, included, fun k above sign drilled => ?_⟩
      rcases sits.mem_area_or_above regular.toSound owned above with ownedK | ⟨s, site, atop⟩
      · exact outer k above ((mem_iff k).mpr ⟨free k ownedK drilled, ownedK, sign⟩)
      · exact unclosed s site k atop sign drilled
    · rintro ⟨owned, drilled, visible⟩
      refine ⟨⟨free m owned drilled, owned, visible.2.1⟩, fun k above mem => ?_⟩
      obtain ⟨pooled, _, sign⟩ := (mem_iff k).mp mem
      exact visible.2.2 k above sign (inPool k pooled)

variable {parent : Option Member} {i : Inherited} {a : Ambient}

/-- Up to its region an open node closes what is recorded and visible there. Its own member
is not recorded where it is visible. -/
theorem openNode_settles {m : Member} {o : Override} {below beside : Forest Override}
    (stands : t.Stands h parent i (.cons m o below beside)) {r : Region}
    (shape : r = ⟨t, h.levels, ⟨some (m, i), o.state, o.sequence, below⟩⟩)
    {f : Progress → Progress} (edit : Edit f) (unclosed : Unclosed t positions m)
    (undrilled : t.isIncluded m = true → m ∉ positions) (inPool : ∀ k ∈ p.pool, k ∈ positions)
    (free : Unclaimed positions (r.area h) p) :
    Settles h t positions ({m} ∪ r.area h) p (closeRegion r (f p)) := by
  subst shape
  have node : Settles h t positions {m} p (f p) := by
    refine .step edit inPool fun k same visible => ?_
    rw [Set.mem_singleton_iff.mp same] at visible ⊢
    exact undrilled visible.2.1
  have apart := fun k owned => stands.not_mem_singleton_of_below (x := k) (Or.inl owned)
  have region := closeRegion_settles regular recorded stands.region (by rintro k ⟨⟩; exact unclosed)
    (fun k mem => inPool k (node.order.subset mem)) (node.unclaimed free apart)
  exact node.trans region apart

variable (once : positions.Nodup)

include once

/-- A node that is closed is the only visible one at or below it that is recorded. -/
theorem closeNode_settles {m : Member} (visible : Visible h t positions m) (drilled : m ∈ positions)
    (order : p.pool.Sublist positions) :
    Settles h t positions (h.subtree m) p (closeNode h t a m { p with pool := p.pool.erase m }) := by
  have blind := Blind.closeNode h t a m
  have pool : (closeNode h t a m { p with pool := p.pool.erase m }).pool =
      p.pool.filter fun k => !(k == m) := by
    rw [blind.pool]
    exact Pool.erase_eq_filter regular (once.sublist order)
      (fun k mem => recorded k (order.subset mem)) visible.1
  have same : ∀ k ∈ h.subtree m, Visible h t positions k → k = m := by
    intro k lower seen
    refine (Member.mem_upward_iff.mp lower.2).elim Eq.symm fun higher => ?_
    exact absurd drilled (seen.2.2 m higher visible.2.1)
  refine ⟨pool ▸ List.filter_sublist, fun k outside mem => ?_, fun k lower seen mem => ?_, [m],
    undrilled_closeNode h t a m _, List.nodup_singleton m, fun k => ?_⟩
  · rw [pool, List.mem_filter, Bool.not_eq_true', ← Bool.not_eq_true,
      regular.beq_iff (recorded k (order.subset mem)) visible.1]
    refine ⟨mem, ?_⟩
    rintro rfl
    exact outside ⟨visible.1, Member.mem_upward_self k⟩
  · rw [same k lower seen, pool, List.mem_filter] at mem
    simp at mem
  · rw [List.mem_singleton]
    constructor
    · rintro rfl
      exact ⟨⟨visible.1, Member.mem_upward_self k⟩, drilled, visible⟩
    · exact fun given => same k given.1 given.2.2

theorem visitNode_settles {m : Member} {o : Override} {below beside : Forest Override}
    (stands : t.Stands h parent i (.cons m o below beside))
    (unclosed : ∀ k, parent = some k → Unclosed t positions k)
    (order : p.pool.Sublist positions) (free : Unclaimed positions (h.subtree m) p)
    (visits : Unclosed t positions m → ∀ a (q : Progress), q.pool.Sublist positions →
      Unclaimed positions (below.area h) q →
      Settles h t positions (below.area h) q (visit t h.levels (i.handDown o.state) a below q)) :
    Settles h t positions (h.subtree m) p (visitNode t h.levels i a m o below p) := by
  have inside := stands.node_mem
  have self : m ∈ h.subtree m := ⟨inside, Member.mem_upward_self m⟩
  have above : ∀ k, m.parent? = some k → Unclosed t positions k :=
    fun k link => unclosed k (stands.node_parent.symm.trans link)
  generalize shape : (⟨t, h.levels, ⟨some (m, i), o.state, o.sequence, below⟩⟩ : Region) = r
  have edit := Edit.markNode h t r a m
  have inPool : (markNode h t r a m p).pool.contains m = true ↔ m ∈ positions := by
    rw [edit.blind.pool]
    exact regular.contains_iff_of_within recorded (fun k mem => order.subset mem) inside (free m self)
  rw [visitNode, enter_eq stands regular a p shape.symm]
  dsimp only
  by_cases closes : (t.isIncluded m && (markNode h t r a m p).pool.contains m) = true
  · rw [if_pos closes]
    rw [Bool.and_eq_true, inPool] at closes
    have before : Settles h t positions ∅ p (markNode h t r a m p) :=
      .step edit (fun k mem => order.subset mem) fun k none => absurd none id
    have node := closeNode_settles (a := a) regular recorded once
      (visible_of_unclosed inside closes.1 above) closes.2 (before.order.trans order)
    have whole := before.trans node fun _ _ => id
    rwa [Set.empty_union] at whole
  · rw [if_neg closes]
    rw [Bool.and_eq_true, inPool, not_and] at closes
    have area : h.subtree m = {m} ∪ (r.area h ∪ below.area h) := shape ▸ stands.subtree_eq
    have unclosedM : Unclosed t positions m := unclosed_of_parent above closes
    have node := openNode_settles regular recorded stands shape.symm
      (.comp (.adjust r m a (differsSelf h t a m && t.isIncluded m)) edit) unclosedM closes
      (fun k mem => order.subset mem) fun k owned => free k (area ▸ Or.inr (Or.inl owned))
    have apart : ∀ k ∈ below.area h, k ∉ ({m} : Set Member) ∪ r.area h :=
      shape ▸ fun k => stands.not_mem_node_of_below
    have rest := visits unclosedM (ambientBelow r a) _ (node.order.trans order)
      (node.unclaimed (fun k lower => free k (area ▸ Or.inr (Or.inr lower))) apart)
    rw [area, ← Set.union_assoc]
    exact node.trans rest apart

/-- The walk over the nodes of a forest closes what is recorded and visible there. -/
theorem visit_settles {f : Forest Override} (stands : t.Stands h parent i f)
    (unclosed : ∀ k, parent = some k → Unclosed t positions k)
    (order : p.pool.Sublist positions) (free : Unclaimed positions (f.area h) p) :
    Settles h t positions (f.area h) p (visit t h.levels i a f p) := by
  induction f generalizing parent i a p with
  | nil =>
    refine .step .none (fun k mem => order.subset mem) ?_
    rintro k ⟨_, l, label, _⟩
    exact absurd label List.not_mem_nil
  | cons m o below beside ihBelow ihBeside =>
    rw [SelectionTree.Stands.area_cons] at free ⊢
    have node := visitNode_settles (a := a) regular recorded once stands unclosed order
      (fun k mem => free k (Or.inl mem)) fun unclosedM a q order free =>
        ihBelow stands.region.stands (by rintro k ⟨⟩; exact unclosedM) order free
    have rest := ihBeside (a := a) (stands.siblings regular) unclosed (node.order.trans order)
      (node.unclaimed (fun k mem => free k (Or.inr mem)) fun k => stands.apart)
    rw [visit_cons]
    exact node.trans rest fun k => stands.apart

/-- From the closed members of the root region to the level-wide sets. -/
theorem resolve_settles (hung : t.overrides.Hung h none) :
    ∃ A, (∀ m ∈ h.members, m ∈ A) ∧
      Settles h t positions A { pool := positions } (resolve t h.levels positions) := by
  have roots := closeRegion_settles (p := { pool := positions }) regular recorded
    (SelectionTree.sits_root hung) (fun k none => by cases none) (fun _ => id) fun _ _ => id
  have nodes := visit_settles (a := .nothing) regular recorded once
    (SelectionTree.sits_root hung).stands (fun k none => by cases none) roots.order
    (roots.unclaimed (fun _ _ => id) fun k => Region.not_mem_area_of_below _)
  have walk := roots.trans nodes fun k => Region.not_mem_area_of_below _
  have levels := Settles.step (A := ∅) (h := h) (t := t) (.showLevels t h.levels)
    (fun m mem => walk.order.subset mem) fun _ none => absurd none id
  exact ⟨_, fun m inside => Or.inl (SelectionTree.mem_area_root inside),
    walk.trans levels fun _ none => absurd none id⟩

/-- The closed members are the recorded ones that are visible, and these leave the pool. -/
theorem resolve_account (hung : t.overrides.Hung h none) :
    (resolve t h.levels positions).axis.undrilled.Perm
        (positions.filter (Mode.expanded.isVisible t positions)) ∧
      (∀ m ∈ positions, Mode.expanded.isVisible t positions m = true →
        m ∉ (resolve t h.levels positions).pool) ∧
      (resolve t h.levels positions).pool.Sublist positions := by
  obtain ⟨A, whole, settles⟩ := resolve_settles regular recorded once hung
  obtain ⟨us, closed, onceUs, memUs⟩ := settles.closes
  have visible_iff {m : Member} (mem : m ∈ positions) :
      Mode.expanded.isVisible t positions m = true ↔ Visible h t positions m :=
    isVisible_iff regular recorded (recorded m mem)
  have undrilled : (resolve t h.levels positions).axis.undrilled = us := closed
  refine ⟨?_, fun m mem seen => ?_, settles.order⟩
  · rw [undrilled, List.perm_ext_iff_of_nodup onceUs (once.filter _)]
    intro m
    rw [memUs, List.mem_filter]
    constructor
    · rintro ⟨_, mem, visible⟩
      exact ⟨mem, (visible_iff mem).mpr visible⟩
    · rintro ⟨mem, seen⟩
      exact ⟨whole m (recorded m mem), mem, (visible_iff mem).mp seen⟩
  · exact settles.left m (whole m (recorded m mem)) ((visible_iff mem).mp seen)

end

end CubeAxis.Expanded
