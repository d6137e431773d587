import CubeAxis.Proofs.Resolution.Expanded.Growth
import CubeAxis.Proofs.Resolution.Expanded.Regions

namespace CubeAxis.Expanded

variable {hs : List Hierarchy} {h : Hierarchy} {t : SelectionTree} {positions : List Member}
  {p q : Progress}

/-- What has been shown of the members so many levels below a node. -/
def Ambient.at (a : Ambient) : Nat → Sign
  | 0 => a.member
  | 1 => a.children
  | _ + 2 => a.deeper

theorem Ambient.at_of_le (a : Ambient) {k : Nat} (deep : 2 ≤ k) : a.at k = a.deeper := by
  obtain ⟨j, rfl⟩ := Nat.exists_eq_add_of_le' deep
  rfl

/-- Before a node is entered, the ambient tells what is shown of it and below; nothing
there is excluded, and none is cut out but the node itself by its parent. -/
structure Ready (hs : List Hierarchy) (h : Hierarchy) (t : SelectionTree) (i : Inherited)
    (a : Ambient) (m : Member) (p : Progress) : Prop where
  roots : ∀ x ∈ h.subtree m, x ∈ p.axis.roots.shown hs ↔ a.at (x.depth - m.depth) = .included
  excluded : ∀ x ∈ h.subtree m, x ∉ p.axis.excluded.shown hs
  cutSelf : (t.levelSignAt h.levels m.depth).isSome = true → (Cut p m ↔ i.children.isSome = true)
  cutBelow : ∀ x ∈ h.subtree m, m.depth < x.depth → ¬ Cut p x

theorem Ready.transfer {A B : Set Member} {i : Inherited} {a : Ambient} {l : Member}
    (ready : Ready hs h t i a l p) (inside : l ∈ h.members)
    (grows : Grows hs h t positions A B p q) (apart : ∀ x ∈ h.subtree l, x ∉ A) :
    Ready hs h t i a l q where
  roots x within := by
    rw [grows.roots x within.1 (apart x within)]
    exact ready.roots x within
  excluded x within := by
    rw [grows.excluded x within.1 (apart x within)]
    exact ready.excluded x within
  cutSelf signed := by
    rw [grows.cut l inside (apart l ⟨inside, Member.mem_upward_self l⟩)]
    exact ready.cutSelf signed
  cutBelow x within deep := by
    rw [grows.cut x within.1 (apart x within)]
    exact ready.cutBelow x within deep

/-- Whether a region shows the children of its node. -/
def addsChildren (r : Region) (a : Ambient) : Bool :=
  decide (r.childrenDepth < r.levels.length) && decide (childrenTarget r = some .included) &&
    decide (a.children = .excluded)

/-- Whether a region excludes the children of its node. -/
def dropsChildren (r : Region) (a : Ambient) : Bool :=
  decide (r.childrenDepth < r.levels.length) && decide (childrenTarget r = some .excluded) &&
    decide (a.children = .included)

/-- Whether the deeper members of a region are not shown as they should be. -/
def differsDeeper (r : Region) (a : Ambient) : Bool :=
  decide (r.childrenDepth < r.levels.length) && !(unsignedDepths r).isEmpty &&
    r.site.descendantsDefault.sign != a.deeper

def addsDeeper (r : Region) (a : Ambient) : Bool :=
  differsDeeper r a && decide (r.site.descendantsDefault.sign = .included)

def dropsDeeper (r : Region) (a : Ambient) : Bool :=
  differsDeeper r a && decide (r.site.descendantsDefault.sign = .excluded)

/-- The ambient below a node. -/
def ambientBelow (r : Region) (a : Ambient) : Ambient :=
  ⟨if addsChildren r a then .included else a.children,
    if addsDeeper r a then .included else a.deeper,
    if addsDeeper r a then .included else a.deeper⟩

/-- What a region excludes. -/
def dropped (h : Hierarchy) (r : Region) (a : Ambient) : Set Member :=
  {x | x ∈ r.area h ∧ ((x.depth = r.childrenDepth ∧ dropsChildren r a = true) ∨
    (r.childrenDepth < x.depth ∧ r.levelSign x.depth = none ∧ dropsDeeper r a = true))}

/-- What a node shows and excludes of its region, before it closes members there. -/
def adjust (r : Region) (m : Member) (a : Ambient) (self : Bool) (p : Progress) : Progress :=
  showParts m self (addsChildren r a) (addsDeeper r a)
    ((p.when (dropsChildren r a) (·.exclude (MemberSet.childrenExpr m r.overridden))).when
      (dropsDeeper r a) (excludeDeeper r.levels m r.overridden (unsignedDepths r)))

theorem showRegion_eq (r : Region) (m : Member) (a : Ambient) (self : Bool) (p : Progress) :
    showRegion r m a self p = (ambientBelow r a, closeRegion r (adjust r m a self p)) :=
  rfl

theorem Edit.adjust (r : Region) (m : Member) (a : Ambient) (self : Bool) :
    Edit (adjust r m a self) :=
  .comp (.showParts m self _ _) (.comp (.when _ (.excludeDeeper _ m _ _))
    (.when _ (.exclude fun _ => MemberSet.childrenExpr m r.overridden)))

section

variable {r : Region} {m : Member} (regular : h.Regular) (sits : r.Sits h)
  (found : Expr.findHierarchy hs h.name = .ok h) (site : r.site.member? = some m)

include regular sits found site

/-- What the region of a node adds to the sets. -/
theorem showRegion_adds (a : Ambient) (self : Bool) (inPool : ∀ x ∈ p.pool, x ∈ h.members) :
    ∃ U, Adds hs h p (showRegion r m a self p).2
        (parts h m self (addsChildren r a) (addsDeeper r a)) U (dropped h r a) [] ∧
      Closed h r p.pool (showRegion r m a self p).2.pool U := by
  have start : r.childrenDepth = m.depth + 1 := by rw [Region.childrenDepth, site]; rfl
  have inside := sits.member_mem m site
  have children : Adds hs h p (p.when (dropsChildren r a)
      (·.exclude (MemberSet.childrenExpr m r.overridden))) _ _ _ _ :=
    .when (dropsChildren r a) (·.exclude (MemberSet.childrenExpr m r.overridden))
      (.exclude regular (MemberSet.term_childrenExpr regular found inside fun _ => sits.label_mem))
  have deeper (p : Progress) : Adds hs h p (p.when (dropsDeeper r a)
      (excludeDeeper r.levels m r.overridden (unsignedDepths r))) _ _ _ _ :=
    .when (dropsDeeper r a) (excludeDeeper r.levels m r.overridden (unsignedDepths r))
      (excludeDeeper_adds regular sits found site p)
  have shown (p : Progress) : Adds hs h p
      (showParts m self (addsChildren r a) (addsDeeper r a) p) _ ∅ ∅ [] :=
    showParts_adds regular found inside self (addsChildren r a) (addsDeeper r a)
  rw [showRegion_eq]
  have pool := (Edit.adjust r m a self).blind.pool p
  have adds : Adds hs h p (adjust r m a self p) _ _ _ _ :=
    children.trans ((deeper _).trans (shown _))
  generalize adjust r m a self p = before at pool adds ⊢
  obtain ⟨U, closes, closed⟩ : ∃ U, Adds hs h before (closeRegion r before) ∅ U ∅ [] ∧
      Closed h r before.pool (closeRegion r before).pool U :=
    closeRegion_adds regular sits fun x mem => inPool x (pool ▸ mem)
  rw [pool] at closed
  refine ⟨U, (adds.trans closes).congr (by simp) (by simp) (Set.ext fun x => ?_) (by simp), closed⟩
  simp only [dropped, Set.mem_union, Set.mem_ofPred_eq, Set.mem_empty_iff_false, or_false]
  constructor
  · intro given
    obtain ⟨owned, ⟨level, drops⟩ | ⟨deep, unsigned, drops⟩⟩ := given
    · obtain ⟨link, free⟩ := (sits.mem_area_top_iff regular.toSound owned.1).mp ⟨owned, level⟩
      exact Or.inl ⟨⟨owned.1, link.trans site, free⟩, drops⟩
    · exact Or.inr ⟨⟨owned, by omega, unsigned⟩, drops⟩
  · intro given
    rcases given with ⟨⟨member, link, free⟩, drops⟩ | ⟨⟨owned, deep, unsigned⟩, drops⟩
    · obtain ⟨owned, level⟩ := (sits.mem_area_top_iff regular.toSound member).mpr
        ⟨link.trans site.symm, free⟩
      exact ⟨owned, Or.inl ⟨level, drops⟩⟩
    · exact ⟨owned, Or.inr ⟨by omega, unsigned, drops⟩⟩

end

section

variable {r : Region} {a : Ambient} {d : Nat}

/-- The children of a node without a node, where no level-wide set takes care of them. -/
theorem children_shown_iff (inside : r.childrenDepth < r.levels.length)
    (reached : r.levelSign r.childrenDepth = none ∨ r.hasExplicitChildren = true) :
    (a.children = .included ∨ addsChildren r a = true) ∧ ¬ dropsChildren r a = true ↔
      (r.signAt r.childrenDepth).isIncluded = true := by
  have target : childrenTarget r = some (r.signAt r.childrenDepth) := by
    rw [childrenTarget, if_pos]
    rw [Bool.or_eq_true, Option.isNone_iff_eq_none]
    exact reached.symm
  simp only [addsChildren, dropsChildren, inside, target]
  cases r.signAt r.childrenDepth <;> cases a.children <;> simp [Sign.isIncluded]

theorem not_dropsChildren (signed : (r.levelSign r.childrenDepth).isSome = true)
    (plain : r.hasExplicitChildren = false) : ¬ dropsChildren r a = true := by
  have target : childrenTarget r = none := by
    rw [childrenTarget, if_neg]
    simp [plain, Option.isSome_iff_ne_none.mp signed]
  simp [dropsChildren, target]

/-- The deeper members of a region on unsigned levels. -/
theorem deeper_shown_iff (deep : r.childrenDepth < d) (inside : d < r.levels.length)
    (unsigned : r.levelSign d = none) :
    (a.deeper = .included ∨ addsDeeper r a = true) ∧ ¬ dropsDeeper r a = true ↔
      (r.signAt d).isIncluded = true := by
  have some : (unsignedDepths r).isEmpty = false := by
    rw [List.isEmpty_eq_false_iff_exists_mem]
    exact ⟨d, mem_unsignedDepths.mpr ⟨deep, inside, unsigned⟩⟩
  have sign : r.signAt d = r.site.descendantsDefault.sign := by
    rw [Region.signAt, if_neg (Nat.ne_of_gt deep), unsigned]
    cases r.site.descendantsDefault with
    | mk sign source => cases source <;> rfl
  have start : r.childrenDepth < r.levels.length := Nat.lt_trans deep inside
  simp only [addsDeeper, dropsDeeper, differsDeeper, start, some, sign]
  cases r.site.descendantsDefault.sign <;> cases a.deeper <;> simp [Sign.isIncluded]

end

end CubeAxis.Expanded
