import CubeAxis.Proofs.Resolution.Expanded.Nodes

namespace CubeAxis.Expanded

variable {hs : List Hierarchy} {h : Hierarchy} {t : SelectionTree} {positions : List Member}
  {p q : Progress} {a : Ambient}

/-- Whether the member is not shown as it should be, where no level-wide set will see to it. -/
def differsSelf (h : Hierarchy) (t : SelectionTree) (a : Ambient) (m : Member) : Bool :=
  !((t.levelSignAt h.levels m.depth).isSome && !t.isSpecial m) &&
    t.isIncluded m != a.member.isIncluded

/-- The members a node cuts out of level-wide sets, with the depths of these. -/
def cuts (r : Region) (m : Member) : List (Nat × Member) :=
  (if (r.levelSign m.depth).isSome && r.site.state.member.isSome then [(m.depth, m)] else []) ++
    if r.hasExplicitChildren && (r.levelSign (m.depth + 1)).isSome then [(m.depth + 1, m)] else []

theorem cutOutNode_adds (r : Region) (m : Member) (p : Progress) :
    Adds hs h p (cutOutNode r m p) ∅ ∅ ∅ (cuts r m) := by
  have own : Adds hs h p (p.when ((r.levelSign m.depth).isSome && r.site.state.member.isSome)
      (·.cutOut m.depth m)) _ _ _ _ := .when _ _ (.cutOut m.depth)
  have children (p : Progress) : Adds hs h p (p.when (r.hasExplicitChildren &&
      (r.levelSign (m.depth + 1)).isSome) (·.cutOut (m.depth + 1) m)) _ _ _ _ :=
    .when _ _ (.cutOut (m.depth + 1))
  exact (own.trans (children _)).congr (by simp) (by simp) (by simp) rfl

/-- What a node's own member asks for, before the pool is looked at. -/
def markNode (h : Hierarchy) (t : SelectionTree) (r : Region) (a : Ambient) (m : Member) (p : Progress) :
    Progress :=
  (cutOutNode r m p).when (differsSelf h t a m && !t.isIncluded m)
    fun p => { p with axis := p.axis.excludeMember m }

theorem Edit.markNode (h : Hierarchy) (t : SelectionTree) (r : Region) (a : Ambient) (m : Member) :
    Edit (markNode h t r a m) :=
  .comp (.when _ (.excludeMember m)) (.cutOutNode r m)

/-- What a node adds that is closed. -/
def closeNode (h : Hierarchy) (t : SelectionTree) (a : Ambient) (m : Member) (p : Progress) : Progress :=
  (p.when (differsSelf h t a m && t.isIncluded m) (·.addMember m)).undrill m

theorem Blind.closeNode (h : Hierarchy) (t : SelectionTree) (a : Ambient) (m : Member) :
    Blind (closeNode h t a m) :=
  .comp (g := (·.undrill m)) (fun _ _ => rfl) (Edit.when _ (.addMember m)).blind

theorem mem_cuts_iff {r : Region} {m x : Member} (above : m ∈ x.upward) :
    (∃ c, (x.depth, c) ∈ cuts r m ∧ c ∈ x.upward) ↔
      (x.depth = m.depth ∧ (r.levelSign m.depth).isSome = true ∧
        r.site.state.member.isSome = true) ∨
      (x.depth = m.depth + 1 ∧ r.hasExplicitChildren = true ∧
        (r.levelSign (m.depth + 1)).isSome = true) := by
  have mem : ∀ c, (x.depth, c) ∈ cuts r m ↔ c = m ∧
      ((x.depth = m.depth ∧ (r.levelSign m.depth).isSome = true ∧
        r.site.state.member.isSome = true) ∨
      (x.depth = m.depth + 1 ∧ r.hasExplicitChildren = true ∧
        (r.levelSign (m.depth + 1)).isSome = true)) := by
    intro c
    have one : ∀ (condition : Bool) (d : Nat),
        (x.depth, c) ∈ (if condition then [(d, m)] else []) ↔
          c = m ∧ x.depth = d ∧ condition = true := by
      intro condition d
      cases condition <;> simp [and_comm]
    rw [cuts, List.mem_append, one, one, Bool.and_eq_true, Bool.and_eq_true]
    tauto
  simp only [mem]
  constructor
  · intro given
    obtain ⟨c, ⟨_, state⟩, _⟩ := given
    exact state
  · exact fun state => ⟨m, ⟨rfl, state⟩, above⟩

section

variable {parent : Option Member} {i : Inherited} {m : Member} {o : Override}
  {below beside : Forest Override} (stands : t.Stands h parent i (.cons m o below beside))
  (regular : h.Regular)

include stands regular

theorem enter_eq (a : Ambient) (p : Progress) {r : Region}
    (shape : r = ⟨t, h.levels, ⟨some (m, i), o.state, o.sequence, below⟩⟩) :
    enter t h.levels i a m o below p =
      let marked := markNode h t r a m p
      if t.isIncluded m && marked.pool.contains m then
        (none, closeNode h t a m { marked with pool := marked.pool.erase m })
      else
        (some (ambientBelow r a),
          (showRegion r m a (differsSelf h t a m && t.isIncluded m) marked).2) := by
  have compare : ∀ s u : Sign, (s != u) = (s.isIncluded != u.isIncluded) := by
    intro s u
    cases s <;> cases u <;> rfl
  have sign := stands.isIncluded_node regular.toSound
  have differs : differsSelf h t a m = (!((t.levelSignAt h.levels m.depth).isSome &&
      o.state.member.isNone && i.children.isNone) &&
        ((i.memberSign o.state).withLevel (t.levelSignAt h.levels m.depth)) != a.member) := by
    rw [differsSelf, stands.isSpecial_node, compare, ← sign]
    cases o.state.member <;> cases i.children <;> simp
  subst shape
  unfold markNode closeNode
  rw [differs, sign]
  rfl

variable {r : Region} (shape : r = ⟨t, h.levels, ⟨some (m, i), o.state, o.sequence, below⟩⟩)
  {R U X : Set Member} (ready : Ready hs h t i a m p) (adds : Adds hs h p q R U X (cuts r m))

include shape ready adds

omit regular in
/-- After its own step a node's member is dealt with. -/
theorem node_right
    (roots : m ∈ R ↔ (differsSelf h t a m && t.isIncluded m) = true)
    (excluded : m ∈ X ↔ (differsSelf h t a m && !t.isIncluded m) = true) : Right hs h t q m := by
  have self : m ∈ h.subtree m := ⟨stands.node_mem, Member.mem_upward_self m⟩
  have before : m ∈ p.axis.roots.shown hs ↔ a.member = .included := by
    have := ready.roots m self
    rwa [Nat.sub_self] at this
  have free := ready.excluded m self
  have rootsQ : m ∈ q.axis.roots.shown hs ↔
      a.member = .included ∨ (differsSelf h t a m && t.isIncluded m) = true := by
    rw [adds.mem_roots, before, roots]
  have excludedQ : m ∈ q.axis.excluded.shown hs ↔
      (differsSelf h t a m && !t.isIncluded m) = true := by
    rw [adds.mem_excluded, or_iff_right free, excluded]
  refine ⟨fun signed => ?_, fun reached => ?_, fun sign plain => ?_⟩
  · rw [adds.cut_iff, ready.cutSelf signed, mem_cuts_iff (Member.mem_upward_self m),
      stands.isSpecial_node, Bool.or_eq_true]
    subst shape
    simp only [true_and, Nat.left_eq_add, Nat.one_ne_zero, false_and, or_false]
    exact ⟨fun state => state.symm.imp_left And.right, fun state => state.symm.imp_right
      fun own => ⟨signed, own⟩⟩
  · have differs : differsSelf h t a m = (t.isIncluded m != a.member.isIncluded) := by
      rw [differsSelf]
      rcases reached with unsigned | special
      · simp [unsigned]
      · simp [special]
    rw [Shown, rootsQ, excludedQ, differs]
    cases t.isIncluded m <;> cases a.member <;> simp [Sign.isIncluded]
  · rw [excludedQ, differsSelf, sign, plain]
    simp

omit stands regular in
/-- The state of the members below a node after the step of its node. -/
theorem region_state {self : Bool} (roots : R = parts h m self (addsChildren r a) (addsDeeper r a))
    (excluded : ∀ x, m ∈ x.ancestors → (x ∈ X ↔ x ∈ dropped h r a)) {x : Member}
    (inside : x ∈ h.members) (above : m ∈ x.ancestors) :
    (x ∈ q.axis.roots.shown hs ↔ a.at (x.depth - m.depth) = .included ∨
        x ∈ parts h m self (addsChildren r a) (addsDeeper r a)) ∧
      (x ∈ q.axis.excluded.shown hs ↔ x ∈ dropped h r a) ∧
      (Cut q x ↔ x.depth = m.depth + 1 ∧ r.hasExplicitChildren = true ∧
        (t.levelSignAt h.levels x.depth).isSome = true) := by
  have upward := Member.mem_upward_of_ancestors above
  have low := Member.depth_lt_of_mem_ancestors above
  have within : x ∈ h.subtree m := ⟨inside, upward⟩
  refine ⟨?_, ?_, ?_⟩
  · rw [adds.mem_roots, ready.roots x within, roots]
  · rw [adds.mem_excluded, or_iff_right (ready.excluded x within), excluded x above]
  · have level : r.levelSign = t.levelSignAt h.levels := by rw [shape]; rfl
    rw [adds.cut_iff, or_iff_right (ready.cutBelow x within low), mem_cuts_iff upward,
      or_iff_right (fun same => Nat.ne_of_gt low same.1), level]
    exact and_congr_right fun same => by rw [same]

/-- After the step of a node the members of its region are dealt with. -/
theorem region_right {self : Bool} (roots : R = parts h m self (addsChildren r a) (addsDeeper r a))
    (excluded : ∀ x, m ∈ x.ancestors → (x ∈ X ↔ x ∈ dropped h r a)) {x : Member}
    (owned : x ∈ r.area h) : Right hs h t q x := by
  have sits := stands.region
  rw [← shape] at sits
  have tree : r.tree = t := by rw [shape]
  have site : r.site.member? = some m := by rw [shape]; rfl
  have start : r.childrenDepth = m.depth + 1 := by rw [Region.childrenDepth, site]; rfl
  have level : t.levelSignAt h.levels = r.levelSign := by rw [shape]; rfl
  have above := owned.2.1 m site
  have upward := Member.mem_upward_of_ancestors above
  have bound := sits.depth_lt_levels regular.toSound owned.1
  have sign := sits.isIncluded_iff regular owned
  have special := sits.isSpecial_of_mem_area regular owned
  rw [tree] at sign special
  obtain ⟨rootsQ, excludedQ, cutQ⟩ :=
    region_state shape ready adds roots excluded owned.1 above
  rw [level, ← start] at cutQ
  rcases Nat.eq_or_lt_of_le (Region.childrenDepth_le_of_mem_area owned) with top | deep
  · rw [show x.depth - m.depth = 1 by omega, child_mem_parts owned.1 upward (by omega)] at rootsQ
    have drop : x ∈ dropped h r a ↔ dropsChildren r a = true := by simp [dropped, owned, top]
    rw [drop] at excludedQ
    refine ⟨fun signed => ?_, fun reached => ?_, fun included plain => ?_⟩
    · rw [cutQ, special, ← level]
      exact and_congr_right fun _ => and_iff_left signed
    · rw [Shown, rootsQ, excludedQ, sign, ← top]
      refine children_shown_iff (top ▸ bound) ?_
      rw [level, ← top] at reached
      exact reached.imp_right fun yes => (special.mp yes).2
    · rw [excludedQ]
      rw [← Bool.not_eq_true, special, not_and] at plain
      refine not_dropsChildren ?_ (Bool.eq_false_iff.mpr (plain top.symm))
      rw [top, ← level, included]
      rfl
  · rw [a.at_of_le (by omega), deeper_mem_parts owned.1 upward (by omega)] at rootsQ
    have drop : x ∈ dropped h r a ↔ r.levelSign x.depth = none ∧ dropsDeeper r a = true := by
      have other : x.depth ≠ r.childrenDepth := Nat.ne_of_gt deep
      simp [dropped, owned, deep, other]
    rw [drop] at excludedQ
    have plain : ¬ t.isSpecial x = true := fun yes => Nat.ne_of_gt deep (special.mp yes).1
    refine ⟨fun signed => ?_, fun reached => ?_, fun included _ => ?_⟩
    · exact iff_of_false (fun cut => Nat.ne_of_gt deep (cutQ.mp cut).1) plain
    · have unsigned := reached.resolve_right plain
      rw [level] at unsigned
      rw [Shown, rootsQ, excludedQ, sign, and_iff_right unsigned]
      exact deeper_shown_iff deep bound unsigned
    · rw [excludedQ, ← level, included]
      simp

omit regular in
/-- After the step of a node its children are ready to be entered. -/
theorem ready_below {self : Bool} (roots : R = parts h m self (addsChildren r a) (addsDeeper r a))
    (excluded : ∀ x, m ∈ x.ancestors → (x ∈ X ↔ x ∈ dropped h r a)) :
    ∀ l ∈ below.labels, Ready hs h t (i.handDown o.state) (ambientBelow r a) l q := by
  intro l label
  obtain ⟨insideL, link⟩ := stands.hung.2.2.2.1.allows l label
  have levelL : l.depth = m.depth + 1 := Member.depth_of_parent? link
  have state : ∀ x ∈ h.subtree l, _ := fun x within =>
    region_state shape ready adds roots excluded within.1
      (Member.mem_ancestors_of_upward (Member.parent_mem_ancestors link) within.2)
  have self := state l ⟨insideL, Member.mem_upward_self l⟩
  refine ⟨fun x within => ?_, fun x within => ?_, fun signed => ?_, fun x within deep => ?_⟩
  · have low := Member.depth_le_of_mem_upward within.2
    have upward := Member.mem_upward_of_ancestors
      (Member.mem_ancestors_of_upward (Member.parent_mem_ancestors link) within.2)
    rw [(state x within).1]
    rcases Nat.eq_or_lt_of_le low with same | deep
    · rw [show x.depth - m.depth = 1 by omega, show x.depth - l.depth = 0 by omega,
        child_mem_parts within.1 upward (by omega)]
      simp only [Ambient.at, ambientBelow]
      cases addsChildren r a <;> simp
    · rw [a.at_of_le (by omega), deeper_mem_parts within.1 upward (by omega)]
      have below : (ambientBelow r a).at (x.depth - l.depth) = (ambientBelow r a).deeper := by
        rcases Nat.eq_or_lt_of_le deep with same | deeper
        · rw [show x.depth - l.depth = 1 by omega]
          rfl
        · exact Ambient.at_of_le _ (by omega)
      rw [below]
      simp only [ambientBelow]
      cases addsDeeper r a <;> simp
  · rw [(state x within).2.1]
    intro given
    obtain ⟨owned, _⟩ := given
    exact owned.2.2 l (by rw [shape]; exact label) within.2
  · rw [self.2.2, shape]
    exact ⟨fun cut => cut.2.1, fun explicit => ⟨levelL, explicit, signed⟩⟩
  · rw [(state x within).2.2]
    exact fun cut => by omega

end

/-- The member of a node, where it has to go. -/
def droppedSelf (h : Hierarchy) (t : SelectionTree) (a : Ambient) (m : Member) : Set Member :=
  {x | x ∈ ({m} : Set Member) ∧ (differsSelf h t a m && !t.isIncluded m) = true}

theorem eq_of_mem_cuts {r : Region} {m c : Member} {d : Nat} (mem : (d, c) ∈ cuts r m) : c = m := by
  rw [cuts, List.mem_append] at mem
  rcases mem with mem | mem <;> split at mem
  all_goals first
    | exact congrArg Prod.snd (List.mem_singleton.mp mem)
    | exact absurd mem List.not_mem_nil

/-- One node with everything below it. -/
def visitNode (tree : SelectionTree) (levels : List Level) (i : Inherited) (a : Ambient)
    (m : Member) (o : Override) (below : Forest Override) (p : Progress) : Progress :=
  match enter tree levels i a m o below p with
  | (none, p) => p
  | (some a, p) => visit tree levels (i.handDown o.state) a below p

theorem visit_cons (tree : SelectionTree) (levels : List Level) (i : Inherited) (a : Ambient)
    (m : Member) (o : Override) (below beside : Forest Override) (p : Progress) :
    visit tree levels i a (.cons m o below beside) p =
      visit tree levels i a beside (visitNode tree levels i a m o below p) := by
  rw [visit, visitNode]
  rcases enter tree levels i a m o below p with ⟨_ | a, p⟩ <;> rfl

section

variable {parent : Option Member} {i : Inherited} {m : Member} {o : Override}
  {below beside : Forest Override} (stands : t.Stands h parent i (.cons m o below beside))
  (regular : h.Regular) (recorded : ∀ x ∈ positions, x ∈ h.members) {r : Region}
  (shape : r = ⟨t, h.levels, ⟨some (m, i), o.state, o.sequence, below⟩⟩)
  (fine : Fine hs h t positions p) (ready : Ready hs h t i a m p)

include stands regular recorded shape fine ready

/-- A node that is closed: nothing below it matters. -/
theorem closed_grows (included : t.isIncluded m = true) (drilled : m ∈ positions)
    (marked : Adds hs h p q ∅ ∅ (droppedSelf h t a m) (cuts r m))
    (pool : q.pool = p.pool) :
    Grows hs h t positions (h.subtree m) (h.subtree m) p
      (closeNode h t a m { q with pool := q.pool.erase m }) := by
  have inside := stands.node_mem
  have self : ({m} : Set Member) ⊆ h.subtree m := by
    rintro x rfl
    exact ⟨inside, Member.mem_upward_self x⟩
  have shown (p : Progress) : Adds hs h p
      (p.when (differsSelf h t a m && t.isIncluded m) (·.addMember m)) _ _ _ _ :=
    .when (differsSelf h t a m && t.isIncluded m) (·.addMember m) (.addMember inside)
  have adds := marked.trans ((Adds.pool (q.pool.erase m)).trans
    ((shown _).trans (Adds.undrill inside)))
  have poolQ : (closeNode h t a m { q with pool := q.pool.erase m }).pool = p.pool.erase m := by
    rw [← pool]
    exact (Blind.closeNode h t a m).pool _
  change Adds hs h p (closeNode h t a m { q with pool := q.pool.erase m }) _ _ _ _ at adds
  generalize closeNode h t a m { q with pool := q.pool.erase m } = final at adds poolQ ⊢
  have adds : Adds hs h p final {x | x ∈ ({m} : Set Member) ∧
      (differsSelf h t a m && t.isIncluded m) = true} {m} (droppedSelf h t a m) (cuts r m) :=
    adds.congr (by simp) (by simp) (by simp) (by simp)
  have closed : m ∈ final.axis.undrills.shown hs := adds.mem_undrills.mpr (Or.inr rfl)
  refine adds.grows (adds.fine fine (fun x mem => ?_) (fun c mem => ?_) fun u same => ?_)
    (fun x mem => self mem.1) (fun x mem => self mem.1) (fun d c mem x member above => ?_)
    (fun x outside mem => ?_) (fun x within => ⟨within.1, ?_⟩) fun x within _ _ => ?_
  · rw [poolQ] at mem
    exact List.mem_of_mem_erase mem
  · rw [eq_of_mem_cuts mem]
    exact inside
  · rw [Set.mem_singleton_iff.mp same]
    exact ⟨included, drilled⟩
  · rw [eq_of_mem_cuts mem] at above
    exact ⟨member, above⟩
  · rw [poolQ]
    refine regular.mem_erase_of_ne (recorded x (fine.pool x mem)) inside ?_ mem
    rintro rfl
    exact outside (self rfl)
  · rcases Member.mem_upward_iff.mp within.2 with rfl | above
    · exact Or.inr (node_right stands shape ready adds (by simp) (and_iff_right rfl))
    · exact Or.inl ⟨m, closed, above⟩
  · rcases Member.mem_upward_iff.mp within.2 with rfl | above
    · exact Or.inl closed
    · exact Or.inr ⟨m, closed, above⟩

/-- A node that stays open: it and its region are dealt with, and its children are
ready to be entered. -/
theorem open_grows (found : Expr.findHierarchy hs h.name = .ok h)
    (undrilled : t.isIncluded m = true → m ∉ positions) (free : Unclaimed positions (r.area h) p)
    (marked : Adds hs h p q ∅ ∅ (droppedSelf h t a m) (cuts r m))
    (pool : q.pool = p.pool) :
    Grows hs h t positions (h.subtree m) ({m} ∪ r.area h) p
        (showRegion r m a (differsSelf h t a m && t.isIncluded m) q).2 ∧
      ∀ l ∈ below.labels, Ready hs h t (i.handDown o.state) (ambientBelow r a) l
        (showRegion r m a (differsSelf h t a m && t.isIncluded m) q).2 := by
  have inside := stands.node_mem
  have sits := stands.region
  rw [← shape] at sits
  have tree : r.tree = t := by rw [shape]
  have site : r.site.member? = some m := by rw [shape]; rfl
  have irreflexive : m ∉ m.ancestors := fun above =>
    Nat.lt_irrefl _ (Member.depth_lt_of_mem_ancestors above)
  obtain ⟨U, shown, closed⟩ := showRegion_adds (p := q) regular sits found site a
    (differsSelf h t a m && t.isIncluded m)
    fun x mem => recorded x (fine.pool x (pool ▸ mem))
  rw [pool] at closed
  have adds := (marked.trans shown).congr (Set.empty_union _).symm (Set.empty_union _).symm rfl
    (List.append_nil _).symm
  generalize (showRegion r m a (differsSelf h t a m && t.isIncluded m) q).2 = final
    at adds closed ⊢
  have excluded : ∀ x, m ∈ x.ancestors →
      (x ∈ droppedSelf h t a m ∪ dropped h r a ↔ x ∈ dropped h r a) :=
    fun x above => or_iff_right fun own => irreflexive (own.1 ▸ above)
  have excludedSelf : m ∈ droppedSelf h t a m ∪ dropped h r a ↔
      (differsSelf h t a m && !t.isIncluded m) = true := by
    have apart : m ∉ dropped h r a := fun mem => irreflexive (mem.1.2.1 m site)
    rw [Set.mem_union, or_iff_left apart]
    exact and_iff_right rfl
  refine ⟨adds.grows (adds.fine fine closed.fewer (fun c mem => ?_) fun u mem => ?_)
    (fun x mem => ⟨mem.1, mem.2.1⟩) (fun x mem => ?_) (fun d c mem x member above => ?_)
    (fun x outside mem => ?_) (fun x within => ?_) (fun x within sign known => ?_), ?_⟩
  · rw [eq_of_mem_cuts mem]
    exact inside
  · obtain ⟨_, sign, mem⟩ := closed.owned u mem
    exact ⟨tree ▸ sign, fine.pool u mem⟩
  · rcases mem with ⟨same, _⟩ | ⟨owned, _⟩
    · rw [Set.mem_singleton_iff.mp same]
      exact ⟨inside, Member.mem_upward_self m⟩
    · exact ⟨owned.1, Member.mem_upward_of_ancestors (owned.2.1 m site)⟩
  · rw [eq_of_mem_cuts mem] at above
    exact ⟨member, above⟩
  · exact closed.kept x (fun owned => outside (Or.inr owned)) mem
  · rcases within with rfl | owned
    · exact ⟨inside, Or.inr (node_right stands shape ready adds (self_mem_parts inside)
        excludedSelf)⟩
    · exact ⟨owned.1, Or.inr (region_right stands regular shape ready adds rfl excluded owned)⟩
  · rcases within with rfl | owned
    · exact absurd known (undrilled sign)
    · rcases closed.covers x owned (tree ▸ sign) (free x owned known) with mem | ⟨u, mem, above⟩
      · exact Or.inl (adds.mem_undrills.mpr (Or.inr mem))
      · exact Or.inr ⟨u, adds.mem_undrills.mpr (Or.inr mem), above⟩
  · exact ready_below stands shape ready adds rfl excluded

end

section

variable (regular : h.Regular) (recorded : ∀ x ∈ positions, x ∈ h.members)
  (found : Expr.findHierarchy hs h.name = .ok h) {parent : Option Member} {i : Inherited}

include regular recorded found

/-- Entering a node deals with all below it where the node is closed. Otherwise it deals with
the node and its region, and its children are ready to be entered. -/
theorem enter_grows {m : Member} {o : Override} {below beside : Forest Override}
    (stands : t.Stands h parent i (.cons m o below beside)) (fine : Fine hs h t positions p)
    (ready : Ready hs h t i a m p) (free : Unclaimed positions (h.subtree m) p) :
    (∃ q, enter t h.levels i a m o below p = (none, q) ∧
      Grows hs h t positions (h.subtree m) (h.subtree m) p q) ∨
    ∃ b q, enter t h.levels i a m o below p = (some b, q) ∧
      Grows hs h t positions (h.subtree m)
        ({m} ∪ Region.area h ⟨t, h.levels, ⟨some (m, i), o.state, o.sequence, below⟩⟩) p q ∧
      ∀ l ∈ below.labels, Ready hs h t (i.handDown o.state) b l q := by
  have inside := stands.node_mem
  have self : m ∈ h.subtree m := ⟨inside, Member.mem_upward_self m⟩
  have area := stands.subtree_eq
  generalize shape : (⟨t, h.levels, ⟨some (m, i), o.state, o.sequence, below⟩⟩ : Region) = r at area ⊢
  have excludes (p : Progress) : Adds hs h p (p.when (differsSelf h t a m && !t.isIncluded m)
      fun p => { p with axis := p.axis.excludeMember m }) _ _ _ _ :=
    .when (differsSelf h t a m && !t.isIncluded m) _ (.excludeMember inside)
  have cutOuts : Adds hs h p (cutOutNode r m p) ∅ ∅ ∅ (cuts r m) := cutOutNode_adds r m p
  have adds := cutOuts.trans (excludes _)
  have pool := (Edit.markNode h t r a m).blind.pool p
  rw [enter_eq stands regular a p shape.symm]
  dsimp only
  change Adds hs h p (markNode h t r a m p) _ _ _ _ at adds
  generalize markNode h t r a m p = marked at adds pool ⊢
  have adds : Adds hs h p marked ∅ ∅ (droppedSelf h t a m) (cuts r m) :=
    adds.congr (by simp) (by simp) (Set.empty_union _).symm (by simp)
  have inPool : marked.pool.contains m = true ↔ m ∈ positions := by
    rw [pool]
    exact regular.contains_iff_of_within recorded fine.pool inside (free m self)
  by_cases closes : (t.isIncluded m && marked.pool.contains m) = true
  · rw [if_pos closes]
    obtain ⟨included, drilled⟩ := Bool.and_eq_true_iff.mp closes
    exact Or.inl ⟨_, rfl, closed_grows stands regular recorded shape.symm fine ready included
      (inPool.mp drilled) adds pool⟩
  · rw [if_neg closes]
    exact Or.inr ⟨_, _, rfl, open_grows stands regular recorded shape.symm fine ready found
      (fun included drilled => closes (by simp [included, inPool.mpr drilled]))
      (fun x owned => free x (by rw [area]; exact Or.inr (Or.inl owned))) adds pool⟩

theorem visitNode_grows {m : Member} {o : Override} {below beside : Forest Override}
    (stands : t.Stands h parent i (.cons m o below beside)) (fine : Fine hs h t positions p)
    (ready : Ready hs h t i a m p) (free : Unclaimed positions (h.subtree m) p)
    (visits : ∀ a q, Fine hs h t positions q → Unclaimed positions (below.area h) q →
      (∀ l ∈ below.labels, Ready hs h t (i.handDown o.state) a l q) →
      Grows hs h t positions (below.area h) (below.area h) q
        (visit t h.levels (i.handDown o.state) a below q)) :
    Grows hs h t positions (h.subtree m) (h.subtree m) p
      (visitNode t h.levels i a m o below p) := by
  have area := stands.subtree_eq
  have apart : ∀ x ∈ below.area h, _ := fun x => stands.not_mem_node_of_below
  rw [visitNode]
  rcases enter_grows regular recorded found stands fine ready free with
    ⟨q, entered, node⟩ | ⟨b, q, entered, node, readyBelow⟩
  · rw [entered]
    exact node
  · rw [entered]
    have lower : below.area h ⊆ h.subtree m := fun x mem => area ▸ Or.inr (Or.inr mem)
    have rest := visits b q node.fine
      (node.unclaimed (fun x mem => free x (lower mem)) apart) readyBelow
    have whole := node.trans rest fun x mem inside => apart x inside mem
    rwa [Set.union_assoc, ← area, Set.union_eq_left.mpr lower] at whole

/-- The walk over the nodes of a forest deals with all members at or below them. -/
theorem visit_grows {f : Forest Override} (stands : t.Stands h parent i f)
    (fine : Fine hs h t positions p) (ready : ∀ l ∈ f.labels, Ready hs h t i a l p)
    (free : Unclaimed positions (f.area h) p) :
    Grows hs h t positions (f.area h) (f.area h) p (visit t h.levels i a f p) := by
  induction f generalizing parent i a p with
  | nil =>
    have nothing : (Forest.nil : Forest Override).area h = ∅ := by simp [Forest.area, Forest.labels]
    rw [nothing]
    exact .refl fine
  | cons m o below beside ihBelow ihBeside =>
    rw [SelectionTree.Stands.area_cons] at free ⊢
    have node := visitNode_grows regular recorded found stands fine (ready m List.mem_cons_self)
      (fun x mem => free x (Or.inl mem)) fun a q fine free ready =>
        ihBelow stands.region.stands fine ready free
    have apart : ∀ x ∈ beside.area h, x ∉ h.subtree m := fun x => stands.apart
    have readyBeside : ∀ l ∈ beside.labels,
        Ready hs h t i a l (visitNode t h.levels i a m o below p) := fun l label =>
      (ready l (List.mem_cons_of_mem _ label)).transfer
        (stands.hung.2.2.2.2.allows l label).1 node
        fun x within => apart x ⟨within.1, l, label, within.2⟩
    rw [visit_cons]
    exact node.trans (ihBeside (stands.siblings regular) node.fine readyBeside
      (node.unclaimed (fun x mem => free x (Or.inr mem)) apart)) fun x mem other => apart x other mem

end

end CubeAxis.Expanded
