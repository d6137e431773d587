import CubeAxis.Proofs.Expr.Values
import CubeAxis.Proofs.Resolution.Expanded.Additions
import Mathlib.Data.List.Perm.Subperm

namespace CubeAxis
namespace Expanded

variable {hs : List Hierarchy} {h : Hierarchy} {m x : Member} {e : Expr} {es : List Expr}
  {s u : Set Member} {overridden : List Member} {depths : List Nat} {d : Nat}

/-- Expressions that denote members of the hierarchy, together those of a set. -/
inductive Cover (hs : List Hierarchy) (h : Hierarchy) : List Expr → Set Member → Prop
  | nil : Cover hs h [] ∅
  | cons {e : Expr} {es : List Expr} {u s : Set Member} :
      e.Term hs (lone h.all) (lone u) → Cover hs h es s → Cover hs h (e :: es) (u ∪ s)

namespace Cover

theorem congr (cover : Cover hs h es s) (same : u = s) : Cover hs h es u :=
  same ▸ cover

theorem singleton (term : e.Term hs (lone h.all) (lone s)) : Cover hs h [e] s :=
  (cons term nil).congr (Set.union_empty s).symm

/-- Each of the expressions evaluates, and the members of the set are those that one of
them gives. -/
theorem denoted (cover : Cover hs h es s) :
    (∀ e ∈ es, e.HasMembersIn hs h.all) ∧ ∀ x, (∃ e ∈ es, x ∈ e.memberSet hs) ↔ x ∈ s := by
  induction cover with
  | nil => simp
  | @cons e es u s term _ ih =>
    obtain ⟨values, together⟩ := ih
    obtain ⟨ms, run, mem⟩ := term.denotes.argument_members
    have inside : ∀ m ∈ ms, m ∈ h.all := fun m listed =>
      singleton_mem_lone.mp (term.within (singleton_mem_lone.mpr ((mem m).mp listed)))
    have value : e.HasMembersIn hs h.all := ⟨ms, run, inside⟩
    refine ⟨List.forall_mem_cons.mpr ⟨value, values⟩, fun x => ?_⟩
    have first : x ∈ e.memberSet hs ↔ x ∈ u := by
      rw [Expr.mem_memberSet run, mem]
    rw [List.exists_mem_cons_iff, first, together]
    exact Iff.rfl

/-- What the expressions denote is excluded by excluding them one by one. -/
theorem excluded (cover : Cover hs h es s) (regular : h.Regular) (p : Progress) :
    Adds hs h p (es.foldl Progress.exclude p) ∅ ∅ s [] := by
  induction cover generalizing p with
  | nil => exact .refl p
  | @cons e es u s term _ ih =>
    have first : Adds hs h p (p.exclude e) ∅ ∅ u [] := .exclude regular term
    exact (first.trans (ih (p.exclude e))).congr (by simp) (by simp) rfl rfl

end Cover

/-- The members below a member at some depths, outside the overridden subtrees. -/
def deeper (h : Hierarchy) (m : Member) (overridden : List Member) (depths : List Nat) :
    Set Member :=
  {x | x ∈ h.members ∧ m ∈ x.ancestors ∧ x.depth ∈ depths ∧ ∀ o ∈ overridden, o ∉ x.upward}

theorem deeper_cons (h : Hierarchy) (m : Member) (overridden : List Member) (d : Nat)
    (depths : List Nat) : deeper h m overridden (d :: depths) =
      deeper h m overridden [d] ∪ deeper h m overridden depths := by
  ext x
  simp only [deeper, Set.mem_union, Set.mem_ofPred_eq, List.mem_cons, List.not_mem_nil, or_false]
  tauto

theorem deeper_eq_empty (sound : h.Sound) (outside : h.levels[d]? = none) :
    deeper h m overridden [d] = ∅ := by
  refine Set.eq_empty_of_forall_notMem fun x given => ?_
  obtain ⟨inside, _, level, _⟩ := given
  have bound := sound.depth_lt_levels inside
  rw [List.mem_singleton.mp level] at bound
  exact Nat.not_lt.mpr (List.getElem?_eq_none_iff.mp outside) bound

/-- As many different depths as there are levels from some level down are all of them. -/
theorem mem_of_length_add_eq {low high : Nat} (once : depths.Nodup)
    (within : ∀ d ∈ depths, low ≤ d ∧ d < high) (all : depths.length + low = high)
    (lower : low ≤ d) (upper : d < high) : d ∈ depths := by
  have part : depths ⊆ List.range' low (high - low) := fun k mem =>
    List.mem_range'_1.mpr ⟨(within k mem).1, by have := within k mem; omega⟩
  have whole := (once.subperm part).perm_of_length_le (by rw [List.length_range']; omega)
  exact whole.mem_iff.mpr (List.mem_range'_1.mpr ⟨lower, by omega⟩)

/-- Two levels down, the members outside the overridden children are those at or below a
grandchild through another child. -/
theorem mem_deeper_iff_grandchild (below : ∀ o ∈ overridden, o.parent? = some m)
    (inside : x ∈ h.members) (all : x.depth ∈ depths ↔ m.depth + 2 ≤ x.depth) :
    x ∈ deeper h m overridden depths ↔
      ∃ g ∈ x.upward, ∃ c, g.parent? = some c ∧ c.parent? = some m ∧ c ∉ overridden := by
  constructor
  · intro given
    obtain ⟨_, under, level, free⟩ := given
    have deep := all.mp level
    have above := Member.mem_upward_of_ancestors under
    obtain ⟨c, atop, depthC⟩ := Member.exists_mem_upward_of_depth (d := m.depth + 1) (m := x) (by omega)
    obtain ⟨g, lower, depthG⟩ := Member.exists_mem_upward_of_depth deep
    refine ⟨g, lower, c, ?_, ?_, fun listed => free c listed atop⟩
    · exact Member.parent?_eq_some_iff.mpr
        ⟨Member.mem_upward_of_depth_le atop lower (by omega), by omega⟩
    · exact Member.parent?_eq_some_iff.mpr
        ⟨Member.mem_upward_of_depth_le above atop (by omega), depthC⟩
  · intro given
    obtain ⟨g, lower, c, link, link', free⟩ := given
    have depthC := Member.depth_of_parent? link'
    have depthG := Member.depth_of_parent? link
    have bound := Member.depth_le_of_mem_upward lower
    have atop := Member.mem_upward_trans
      (Member.mem_upward_of_ancestors (Member.parent_mem_ancestors link)) lower
    refine ⟨inside, Member.mem_ancestors_of_upward (Member.parent_mem_ancestors link') atop,
      all.mpr (by omega), fun o listed above => free ?_⟩
    -- on one line there is one member at the depth of the children
    have depthO := Member.depth_of_parent? (below o listed)
    rwa [← Member.eq_of_mem_upward_of_depth above atop (by omega)]

section

variable (regular : h.Regular) (found : Expr.findHierarchy hs h.name = .ok h)
  (inside : m ∈ h.members)

include regular found inside

theorem term_descendants_level {level : Level} (known : ∀ o ∈ overridden, o ∈ h.members)
    (atD : h.levels[d]? = some level) (low : m.depth < d) :
    (MemberSet.descendants m level (distinct overridden)).expr.Term hs (lone h.all)
      (lone (deeper h m overridden [d])) := by
  have fits : (MemberSet.descendants m level (distinct overridden)).Fits h :=
    ⟨inside, fun o listed => known o (mem_of_mem_distinct listed)⟩
  have depth : level.depth = d := (regular.level_at d level atD).1
  have same : deeper h m overridden [d] = {x | x ∈ h.members ∧
      (MemberSet.descendants m level (distinct overridden)).contains x = true} := by
    ext x
    refine and_congr_right fun member => ?_
    rw [MemberSet.contains_descendants regular fits member, depth, List.mem_singleton]
    simp only [regular.mem_distinct known]
    constructor
    · intro given
      obtain ⟨under, level, free⟩ := given
      exact ⟨level, Member.mem_upward_of_ancestors under, free⟩
    · intro given
      obtain ⟨level, above, free⟩ := given
      exact ⟨Member.mem_ancestors_of_lt above (by omega), level, free⟩
  rw [same]
  exact MemberSet.term_expr regular found fits

/-- Level by level, each level less the overridden subtrees. -/
theorem cover_levels (known : ∀ o ∈ overridden, o ∈ h.members) (low : ∀ d ∈ depths, m.depth < d) :
    Cover hs h (depths.filterMap fun d => h.levels[d]?.map fun level =>
      (MemberSet.descendants m level (distinct overridden)).expr) (deeper h m overridden depths) := by
  induction depths with
  | nil => exact Cover.nil.congr (by simp [deeper])
  | cons d ds ih =>
    have rest := ih fun k mem => low k (List.mem_cons_of_mem _ mem)
    rw [deeper_cons]
    cases atD : h.levels[d]? with
    | none =>
      rw [List.filterMap_cons_none (by rw [atD]; rfl), deeper_eq_empty regular.toSound atD,
        Set.empty_union]
      exact rest
    | some level =>
      rw [List.filterMap_cons_some (by rw [atD]; rfl)]
      exact .cons (term_descendants_level regular found inside known atD (low d List.mem_cons_self)) rest

/-- By distance, where nothing is overridden. -/
theorem term_below (all : ∀ x ∈ h.members, x.depth ∈ depths ↔ m.depth + 2 ≤ x.depth) :
    (Expr.within (.member m) 2 .selfAndAfter).Term hs (lone h.all) (lone (deeper h m [] depths)) := by
  have same : deeper h m [] depths =
      {x | x ∈ h.members ∧ m ∈ x.upward ∧ m.depth + 2 ≤ x.depth} := by
    ext x
    refine and_congr_right fun member => ?_
    rw [all x member]
    constructor
    · intro given
      obtain ⟨under, deep, _⟩ := given
      exact ⟨Member.mem_upward_of_ancestors under, deep⟩
    · intro given
      obtain ⟨above, deep⟩ := given
      exact ⟨Member.mem_ancestors_of_lt above (by omega), deep, nofun⟩
  rw [same]
  exact term_within regular found inside 2

/-- From the grandchildren down, skipping the overridden children. -/
theorem term_grandchildren (known : ∀ o ∈ overridden, o ∈ h.members)
    (below : ∀ o ∈ overridden, o.parent? = some m)
    (all : ∀ x ∈ h.members, x.depth ∈ depths ↔ m.depth + 2 ≤ x.depth) :
    (Expr.within (MemberSet.grandchildrenOutside m overridden).expr 0 .selfAndAfter).Term hs
      (lone h.all) (lone (deeper h m overridden depths)) := by
  have fits : (MemberSet.grandchildren m (distinct overridden)).Fits h :=
    ⟨inside, fun o listed => known o (mem_of_mem_distinct listed)⟩
  have picks := Expr.picks_within regular found (MemberSet.picks_grandchildren regular found fits)
    0 .selfAndAfter
  refine (picks.congr fun x => ?_).term rfl
  by_cases member : x ∈ h.members
  · rw [mem_deeper_iff_grandchild below member (all x member)]
    constructor
    · intro given
      obtain ⟨g, lower, c, link, link', free⟩ := given
      exact ⟨member, g, ⟨regular.upward_mem member lower, c, link, link',
        fun listed => free (mem_of_mem_distinct listed)⟩, lower, by simp [Reach.accepts]⟩
    · intro given
      obtain ⟨_, g, ⟨_, c, link, link', free⟩, lower, _⟩ := given
      exact ⟨g, lower, c, link, link', fun listed => free ((regular.mem_distinct known).mpr listed)⟩
  · exact iff_of_false (fun given => member given.1) fun given => member given.1

/-- However the deeper members of a region are written, the sets denote them. -/
theorem deeperSets_cover (children : ∀ o ∈ overridden, o ∈ h.children m) (once : depths.Nodup)
    (within : ∀ d ∈ depths, m.depth + 2 ≤ d ∧ d < h.levels.length) :
    Cover hs h (deeperSets h.levels m overridden depths) (deeper h m overridden depths) := by
  have known : ∀ o ∈ overridden, o ∈ h.members :=
    fun o listed => ((regular.mem_children_iff inside).mp (children o listed)).1
  have below : ∀ o ∈ overridden, o.parent? = some m :=
    fun o listed => ((regular.mem_children_iff inside).mp (children o listed)).2
  rw [deeperSets]
  split
  · rename_i count
    have all : ∀ x ∈ h.members, x.depth ∈ depths ↔ m.depth + 2 ≤ x.depth := fun x member =>
      ⟨fun listed => (within _ listed).1, fun deep =>
        mem_of_length_add_eq once within count deep (regular.depth_lt_levels member)⟩
    split
    · rename_i nothing
      rw [List.isEmpty_iff.mp nothing]
      exact .singleton (term_below regular found inside all)
    · exact .singleton (term_grandchildren regular found inside known below all)
  · exact cover_levels regular found inside known fun d mem => by
      have := (within d mem).1
      omega

end

/-- None of the sets is a list of members. -/
theorem listed?_deeperSets (levels : List Level) (mem : e ∈ deeperSets levels m overridden depths) :
    UnionTerms.listed? e = none := by
  unfold deeperSets at mem
  split at mem
  · split at mem
    · rw [List.mem_singleton.mp mem]
      rfl
    · rw [List.mem_singleton.mp mem]
      rfl
  · obtain ⟨d, _, made⟩ := List.mem_filterMap.mp mem
    obtain ⟨level, _, rfl⟩ := Option.map_eq_some_iff.mp made
    simp only [MemberSet.expr, MemberSet.without]
    split <;> rfl

/-- Sets other than lists of members are excluded whole, and nothing else changes. -/
theorem foldl_exclude_eq (whole : ∀ e ∈ es, UnionTerms.listed? e = none) (p : Progress) :
    es.foldl Progress.exclude p = { p with axis := { p.axis with excluded :=
      { p.axis.excluded with others := p.axis.excluded.others ++ es } } } := by
  induction es generalizing p with
  | nil => simp
  | cons e es ih =>
    obtain ⟨first, rest⟩ := List.forall_mem_cons.mp whole
    rw [List.foldl_cons, ih rest]
    simp [Progress.exclude, AxisSet.exclude, UnionTerms.add, first]

/-- Removing the deeper members of a region adds terms to the excluded part that together denote
the members below at the unsigned depths, outside the overridden subtrees, whichever of the
three ways they are written in; nothing else about the set changes. -/
theorem excludeDeeper_exact (sound : h.Sound) (names : (h.members.map Member.uniqueName).Nodup)
    (found : Expr.findHierarchy hs h.name = .ok h) (inside : m ∈ h.members)
    (children : ∀ o ∈ overridden, o ∈ h.children m) {unsigned : List Nat} (once : unsigned.Nodup)
    (within : ∀ d ∈ unsigned, m.depth + 2 ≤ d ∧ d < h.levels.length) (p : Progress) :
    ∃ es : List Expr,
      excludeDeeper h.levels m overridden unsigned p = { p with axis := { p.axis with excluded :=
        { p.axis.excluded with others := p.axis.excluded.others ++ es } } } ∧
      (∀ e ∈ es, ∃ ms, e.evaluateMembers hs = .ok ms) ∧
      ∀ x, (∃ e ∈ es, x ∈ e.memberSet hs) ↔
        x ∈ h.members ∧ m ∈ x.ancestors ∧ x.depth ∈ unsigned ∧ ∀ o ∈ overridden, o ∉ x.upward := by
  have regular : h.Regular := ⟨sound, Hierarchy.eq_of_nodup_uniqueNames names⟩
  obtain ⟨values, together⟩ := (deeperSets_cover regular found inside children once within).denoted
  refine ⟨deeperSets h.levels m overridden unsigned, ?_, fun e mem => ?_, together⟩
  · exact foldl_exclude_eq (fun e mem => listed?_deeperSets h.levels mem) p
  · obtain ⟨ms, run, _⟩ := values e mem
    exact ⟨ms, run⟩

end Expanded

/-- A year with a month in each of two quarters. -/
def Hierarchy.halfYear : Hierarchy :=
  (((Hierarchy.new "Time" ["Year", "Quarter", "Month"]).addPath "2024/Q1/Jan").2.addPath
    "2024/Q2/Apr").2

theorem Hierarchy.halfYear_built : halfYear.Built :=
  .addPath _ (.addPath _ (.new _ _))

/-- With the first quarter overridden, of the months of the year that of the second quarter
is removed. -/
theorem Expanded.excludeDeeper_exact_halfYear :
    let first : Member := .child .year "Q1" "Quarter"
    let april : Member := .child (.child .year "Q2" "Quarter") "Apr" "Month"
    ∃ es : List Expr, (excludeDeeper Hierarchy.halfYear.levels .year [first] [2] ⟨[], {}, []⟩).axis =
        { excluded := { others := es } } ∧
      (∀ e ∈ es, ∃ ms, e.evaluateMembers [.halfYear] = .ok ms) ∧
      (∃ e ∈ es, april ∈ e.memberSet [.halfYear]) ∧
      ∀ e ∈ es, Member.child first "Jan" "Month" ∉ e.memberSet [.halfYear] := by
  intro first april
  have members : Hierarchy.halfYear.members = [.year, first, .child first "Jan" "Month",
    .child .year "Q2" "Quarter", april] := rfl
  have children : ∀ o ∈ [first], o ∈ Hierarchy.halfYear.children .year :=
    List.forall_mem_singleton.mpr (List.mem_of_getElem? (i := 0) rfl)
  have within : ∀ d ∈ [2], Member.year.depth + 2 ≤ d ∧ d < Hierarchy.halfYear.levels.length := by
    decide
  have found : Expr.findHierarchy [.halfYear] "Time" = .ok .halfYear := rfl
  obtain ⟨es, added, values, exact⟩ := excludeDeeper_exact Hierarchy.halfYear_built.sound (by decide)
    found (by simp [members]) children (List.nodup_singleton 2) within ⟨[], {}, []⟩
  refine ⟨es, congrArg Progress.axis added, values, ?_, fun e listed january => ?_⟩
  · refine (exact april).mpr ⟨by simp [members],
      List.mem_cons_of_mem _ (Member.mem_upward_self _), List.mem_singleton_self 2, ?_⟩
    simp [april, first, Member.upward, Member.year]
  · obtain ⟨_, _, _, free⟩ := (exact _).mp ⟨e, listed, january⟩
    exact free first (List.mem_singleton_self first)
      (List.mem_cons_of_mem _ (Member.mem_upward_self first))

end CubeAxis
