import CubeAxis.Proofs.Resolution.Collapsed.Frontiers

namespace CubeAxis.Collapsed

variable {hs : List Hierarchy} {h : Hierarchy} {t : SelectionTree} {positions : List Member}
  {p q : Progress} {A B : Set Member}

/-- What showing the member of a node itself does. -/
def marked (included inBase : Bool) (m : Member) (p : Progress) : Progress where
  pool := if included then p.pool.erase m else p.pool
  axis :=
    match included, inBase with
    | true, false => p.axis.addMember m
    | false, true => p.axis.excludeMember m
    | _, _ => p.axis

theorem enter_eq (tree : SelectionTree) (levels : List Level) (i : Inherited) (inBase : Bool)
    (m : Member) (o : Override) (children : Forest Override) (p : Progress) :
    enter tree levels i true inBase m o children p =
      let included := ((i.memberSign o.state).withLevel (tree.levelSignAt levels m.depth)).isIncluded
      let marked := marked included inBase m p
      if !included || p.pool.contains m then
        let shown := showRegion ⟨tree, levels, ⟨some (m, i), o.state, o.sequence, children⟩⟩ m
          (included && p.pool.contains m) marked
        (some shown.1, shown.2)
      else (none, marked) := by
  simp only [enter, marked, Pool.take, Bool.true_and]
  cases ((i.memberSign o.state).withLevel (tree.levelSignAt levels m.depth)).isIncluded <;>
    cases inBase <;> simp

section

variable (regular : h.Regular) (recorded : ∀ m ∈ positions, m ∈ h.members)

theorem visible_of_open {m : Member} (inside : m ∈ h.members) (included : t.isIncluded m = true)
    (opened : ∀ k, m.parent? = some k → Open t positions k) : Visible h t positions m := by
  refine ⟨inside, included, fun a above sign => ?_⟩
  obtain ⟨k, link, atop⟩ := Member.exists_parent_of_mem_ancestors above
  exact opened k link a atop sign

include regular recorded

theorem marked_grows (honest : Honest hs h t positions p) {m : Member} (inside : m ∈ h.members)
    (opened : ∀ k, m.parent? = some k → Open t positions k) {inBase : Bool}
    (base : inBase = true → ∃ d, m.parent? = some d ∧ d ∈ p.axis.drills.shown hs) :
    Grows hs h t positions {m} p (marked (t.isIncluded m) inBase m p) ∧
      (inBase = true → t.isIncluded m = true ∨
        m ∈ (marked (t.isIncluded m) inBase m p).axis.excluded.shown hs) := by
  have kept : ∀ k ∉ ({m} : Set Member), k ∈ p.pool → k ∈ p.pool.erase m := fun k other mem =>
    regular.mem_erase_of_ne (recorded k (honest.pool k mem)) inside other mem
  have fewer : ∀ k ∈ p.pool.erase m, k ∈ p.pool := fun k => List.mem_of_mem_erase
  cases sign : t.isIncluded m with
  | true =>
    refine ⟨?_, fun _ => Or.inl rfl⟩
    have visible := visible_of_open inside sign opened
    cases inBase with
    | true =>
      obtain ⟨d, link, drilled⟩ := base rfl
      refine honest.claim fewer kept fun k same _ => Or.inr ⟨d, drilled, ?_⟩
      rw [Set.mem_singleton_iff.mp same, link]
    | false =>
      have added := honest.add (A := {m}) regular (UnionTerms.term_member inside)
        (fun k same => Set.mem_singleton_iff.mp same ▸ visible) fun k same _ => same
      have claimed := added.honest.claim fewer kept added.covers
      have both := added.trans claimed
      rwa [Set.union_self] at both
  | false =>
    have hidden : ∀ k ∈ ({m} : Set Member), t.isIncluded k = false :=
      fun k same => Set.mem_singleton_iff.mp same ▸ sign
    have empty : ∀ k ∈ ({m} : Set Member), ¬ Visible h t positions k := by
      intro k same visible
      have included := visible.2.1
      rw [hidden k same] at included
      cases included
    cases inBase with
    | false => exact ⟨.refl honest empty, fun none => by cases none⟩
    | true =>
      obtain ⟨grows, listed⟩ :=
        honest.exclude regular (UnionTerms.term_member inside) hidden empty
      exact ⟨grows, fun _ => Or.inr (listed rfl)⟩

end

/-- One node with everything below it. -/
def visitNode (tree : SelectionTree) (levels : List Level) (i : Inherited) (inBase : Bool)
    (m : Member) (o : Override) (below : Forest Override) (p : Progress) : Progress :=
  match enter tree levels i true inBase m o below p with
  | (none, p) => p
  | (some inBase, p) => visit tree levels (i.handDown o.state) true inBase below p

theorem visit_cons (tree : SelectionTree) (levels : List Level) (i : Inherited) (inBase : Bool)
    (m : Member) (o : Override) (below beside : Forest Override) (p : Progress) :
    visit tree levels i true inBase (.cons m o below beside) p =
      visit tree levels i true inBase beside (visitNode tree levels i inBase m o below p) := by
  rw [visit, visitNode]
  rcases enter tree levels i true inBase m o below p with ⟨_ | inBase, p⟩ <;> rfl

section

variable (regular : h.Regular) (recorded : ∀ m ∈ positions, m ∈ h.members)

include regular

/-- A drill whose children are all accounted for may be left out of the account. -/
theorem Grows.of_drill {m : Member} (inside : m ∈ h.members)
    (grows : Grows hs h t positions A { p with axis := p.axis.drill (.member m) } q)
    (tidy : Tidy hs h t q m) : Grows hs h t positions A p q := by
  have drills : (p.axis.drill (.member m)).drills.shown hs = p.axis.drills.shown hs ∪ {m} :=
    UnionTerms.shown_add regular (UnionTerms.term_member inside)
  refine { grows with drills := fun d old => grows.drills ?_, tidy := fun d new => ?_ }
  · change d ∈ (p.axis.drill (.member m)).drills.shown hs
    rw [drills]
    exact Or.inl old
  · rcases grows.tidy d new with old | done
    · change d ∈ (p.axis.drill (.member m)).drills.shown hs at old
      rw [drills] at old
      exact old.imp_right fun same => by rwa [Set.mem_singleton_iff.mp same]
    · exact Or.inr done

variable (found : Expr.findHierarchy hs h.name = .ok h) {parent : Option Member} {i : Inherited}
  {m : Member} {o : Override} {below beside : Forest Override}

include recorded found

/-- The region of an open node and everything below its children, once the member
of the node is shown. -/
theorem openNode_grows (stands : t.Stands h parent i (.cons m o below beside))
    (honest : Honest hs h t positions p) (opened : Open t positions m) {drilled : Bool}
    (shown : drilled = true → Visible h t positions m ∧ m ∈ positions) {r : Region}
    (shape : r = ⟨t, h.levels, ⟨some (m, i), o.state, o.sequence, below⟩⟩)
    (free : Unclaimed positions (r.area h ∪ below.area h) p)
    (visits : ∀ inBase q, (inBase = true → m ∈ q.axis.drills.shown hs) →
      Honest hs h t positions q → Unclaimed positions (below.area h) q →
      Grows hs h t positions (below.area h) q
          (visit t h.levels (i.handDown o.state) true inBase below q) ∧
        (inBase = true → ∀ l ∈ below.labels, t.isIncluded l = true ∨
          l ∈ (visit t h.levels (i.handDown o.state) true inBase below q).axis.excluded.shown hs)) :
    Grows hs h t positions (r.area h ∪ below.area h) p
      (visit t h.levels (i.handDown o.state) true (showRegion r m drilled p).1 below
        (showRegion r m drilled p).2) := by
  have sits := stands.region
  rw [← shape] at sits
  have tree : r.tree = t := by rw [shape]
  subst tree
  have site : r.site.member? = some m := by rw [shape]; rfl
  have labels : r.overridden = below.labels := by rw [shape]; rfl
  have separate : ∀ x ∈ below.area h, x ∉ r.area h := fun x lower =>
    r.not_mem_area_of_below (by rw [shape]; exact lower)
  have freeRegion : Unclaimed positions (r.area h) p := fun x owned => free x (Or.inl owned)
  rcases showRegion_grows regular sits found recorded site honest opened shown freeRegion with
    ⟨answer, grows⟩ | ⟨answer, yes, included, grows⟩
  · have freeBelow := grows.unclaimed (fun x lower => free x (Or.inr lower)) separate
    obtain ⟨lower, _⟩ := visits (showRegion r m drilled p).1 _
      (fun base => by rw [answer] at base; cases base) grows.honest freeBelow
    exact grows.trans lower
  · have inside := (shown yes).1.1
    have freeBelow := grows.unclaimed (fun x lower => free x (Or.inr lower)) separate
    have drills : m ∈ (showRegion r m drilled p).2.axis.drills.shown hs := by
      refine grows.drills ?_
      rw [AxisSet.drill, UnionTerms.shown_add regular (UnionTerms.term_member inside)]
      exact Or.inr rfl
    obtain ⟨lower, tidy⟩ := visits (showRegion r m drilled p).1 _ (fun _ => drills) grows.honest
      freeBelow
    refine (grows.trans lower).of_drill regular inside fun c member link => ?_
    by_cases label : c ∈ below.labels
    · exact tidy answer c label
    · have top := (sits.mem_area_top_iff regular.toSound member).mpr
        ⟨link.trans site.symm, labels ▸ label⟩
      exact Or.inl (included c top.1 link)

theorem visitNode_grows (stands : t.Stands h parent i (.cons m o below beside))
    (opened : ∀ k, parent = some k → Open t positions k) {inBase : Bool}
    (base : inBase = true → ∃ d, parent = some d ∧ d ∈ p.axis.drills.shown hs)
    (honest : Honest hs h t positions p) (free : Unclaimed positions (h.subtree m) p)
    (visits : Open t positions m → ∀ inBase q, (inBase = true → m ∈ q.axis.drills.shown hs) →
      Honest hs h t positions q → Unclaimed positions (below.area h) q →
      Grows hs h t positions (below.area h) q
          (visit t h.levels (i.handDown o.state) true inBase below q) ∧
        (inBase = true → ∀ l ∈ below.labels, t.isIncluded l = true ∨
          l ∈ (visit t h.levels (i.handDown o.state) true inBase below q).axis.excluded.shown hs)) :
    Grows hs h t positions (h.subtree m) p (visitNode t h.levels i inBase m o below p) ∧
      (inBase = true → t.isIncluded m = true ∨
        m ∈ (visitNode t h.levels i inBase m o below p).axis.excluded.shown hs) := by
  have inside := stands.node_mem
  have openedAbove : ∀ k, m.parent? = some k → Open t positions k :=
    fun k link => opened k (stands.node_parent.symm.trans link)
  obtain ⟨mark, apart⟩ := marked_grows regular recorded honest inside openedAbove
    fun yes => (base yes).imp fun d ⟨link, drilled⟩ => ⟨stands.node_parent.trans link, drilled⟩
  have inPool : p.pool.contains m = true ↔ m ∈ positions :=
    regular.contains_iff_of_within recorded honest.pool inside
      (free m ⟨inside, Member.mem_upward_self m⟩)
  rw [visitNode, enter_eq, ← stands.isIncluded_node regular.toSound]
  dsimp only
  by_cases onward : (!t.isIncluded m || p.pool.contains m) = true
  · rw [if_pos onward]
    have drilledOf : t.isIncluded m = true → m ∈ positions := by
      intro sign
      rw [sign] at onward
      exact inPool.mp onward
    have openM := open_of_parent openedAbove drilledOf
    have shown : (t.isIncluded m && p.pool.contains m) = true →
        Visible h t positions m ∧ m ∈ positions := by
      intro both
      obtain ⟨sign, _⟩ := Bool.and_eq_true_iff.mp both
      exact ⟨visible_of_open inside sign openedAbove, drilledOf sign⟩
    rw [stands.subtree_eq] at free ⊢
    have lower := openNode_grows regular recorded found stands mark.honest openM shown rfl
      (mark.unclaimed (fun x mem => free x (Or.inr mem))
        fun x => stands.not_mem_singleton_of_below) (visits openM)
    exact ⟨mark.trans lower, fun yes => (apart yes).imp_right (lower.excluded ·)⟩
  · rw [if_neg onward]
    rw [Bool.or_eq_true, not_or, Bool.not_eq_true', Bool.not_eq_false] at onward
    refine ⟨mark.mono ?_ fun x lower visible other => ?_, apart⟩
    · rintro x rfl
      exact ⟨inside, Member.mem_upward_self x⟩
    · rcases Member.mem_upward_iff.mp lower.2 with rfl | higher
      · exact absurd rfl other
      · exact absurd (inPool.mpr (visible.2.2 m higher onward.1)) onward.2

/-- The walk over the nodes of a forest shows what is visible there. -/
theorem visit_grows {f : Forest Override} (stands : t.Stands h parent i f)
    (opened : ∀ k, parent = some k → Open t positions k) (inBase : Bool)
    (base : inBase = true → ∃ d, parent = some d ∧ d ∈ p.axis.drills.shown hs)
    (honest : Honest hs h t positions p) (free : Unclaimed positions (f.area h) p) :
    Grows hs h t positions (f.area h) p (visit t h.levels i true inBase f p) ∧
      (inBase = true → ∀ l ∈ f.labels, t.isIncluded l = true ∨
        l ∈ (visit t h.levels i true inBase f p).axis.excluded.shown hs) := by
  induction f generalizing parent i inBase p with
  | nil =>
    refine ⟨.refl honest fun x inside => ?_, fun _ l label => absurd label List.not_mem_nil⟩
    obtain ⟨_, l, label, _⟩ := inside
    exact absurd label List.not_mem_nil
  | cons m o below beside ihBelow ihBeside =>
    rw [SelectionTree.Stands.area_cons] at free ⊢
    obtain ⟨node, first⟩ := visitNode_grows regular recorded found stands opened base honest
      (fun x mem => free x (Or.inl mem)) fun openM inBase q base honest free =>
        ihBelow stands.region.stands (fun k same => by cases same; exact openM) inBase
          (fun yes => ⟨m, rfl, base yes⟩) honest free
    have base' : inBase = true → ∃ d, parent = some d ∧
        d ∈ (visitNode t h.levels i inBase m o below p).axis.drills.shown hs :=
      fun yes => (base yes).imp fun d ⟨link, drilled⟩ => ⟨link, node.drills drilled⟩
    obtain ⟨siblings, rest⟩ := ihBeside (stands.siblings regular) opened inBase base' node.honest
      (node.unclaimed (fun x mem => free x (Or.inr mem)) fun x mem => stands.apart mem)
    rw [visit_cons]
    refine ⟨node.trans siblings, fun yes l label => ?_⟩
    rcases List.mem_cons.mp label with rfl | other
    · exact (first yes).imp_right (siblings.excluded ·)
    · exact rest yes l other

end

theorem Honest.start (t : SelectionTree) (positions : List Member) :
    Honest hs h t positions { pool := positions } where
  evaluable := .empty
  closes := rfl
  pool _ := id
  roots m mem := by
    rw [UnionTerms.shown_empty] at mem
    exact absurd mem (Set.notMem_empty m)
  drills m mem := by
    rw [UnionTerms.shown_empty] at mem
    exact absurd mem (Set.notMem_empty m)
  excluded m mem := by
    rw [UnionTerms.shown_empty] at mem
    exact absurd mem (Set.notMem_empty m)

namespace Grows

variable (grows : Grows hs h t positions A p q) (start : p.axis.drills.shown hs = ∅)

include grows start

theorem visible_of_opened {m : Member}
    (opened : h.Opened (q.axis.roots.shown hs) (q.axis.drills.shown hs) m)
    (kept : m ∉ q.axis.excluded.shown hs) : Visible h t positions m := by
  cases opened with
  | root mem => exact grows.honest.roots m mem
  | @child d _ _ drilled inside link =>
    have tidy := (grows.tidy d drilled).resolve_left (by rw [start]; exact Set.notMem_empty d)
    have included := (tidy m inside link).resolve_right kept
    exact grows.honest.covers_visible (Or.inr ⟨d, drilled, link⟩) inside included

omit start in
theorem opened_of_visible (whole : ∀ m, Visible h t positions m → m ∈ A) {m : Member}
    (visible : Visible h t positions m) :
    h.Opened (q.axis.roots.shown hs) (q.axis.drills.shown hs) m := by
  induction m with
  | root =>
    rcases grows.covers _ (whole _ visible) visible with root | ⟨d, _, link⟩
    · exact .root root
    · cases link
  | child p n l ih =>
    rcases grows.covers _ (whole _ visible) visible with root | ⟨d, drilled, link⟩
    · exact .root root
    · cases link
      exact .child (ih (grows.honest.drills p drilled).1) drilled visible.1 rfl

/-- Once the area covers the hierarchy, what is shown is what is visible. -/
theorem mem_shown_iff (whole : ∀ m, Visible h t positions m → m ∈ A) {m : Member} :
    m ∈ q.axis.shown hs h ↔ Visible h t positions m := by
  have open_ : q.axis.hidden hs = ∅ := by
    simp [AxisSet.hidden, grows.honest.closes, UnionTerms.shown_empty]
  rw [AxisSet.shown, open_, Set.empty_union]
  constructor
  · intro given
    obtain ⟨opened, kept⟩ := given
    exact grows.visible_of_opened start opened kept
  · intro visible
    refine ⟨grows.opened_of_visible whole visible, fun excluded => ?_⟩
    have sign := grows.honest.excluded m excluded
    rw [visible.2.1] at sign
    cases sign

end Grows

/-- A collapsed hierarchy shows the included members whose included ancestors are
all drilled. -/
theorem resolve_shown (regular : h.Regular) (layered : h.Layered)
    (found : Expr.findHierarchy hs h.name = .ok h) (hung : t.overrides.Hung h none)
    (recorded : ∀ m ∈ positions, m ∈ h.members) :
    (resolve t h.levels positions).axis.Evaluable hs h ∧
      ∀ m, m ∈ (resolve t h.levels positions).axis.shown hs h ↔ Visible h t positions m := by
  have start : Honest hs h t positions { pool := positions } := .start t positions
  have roots := showRoots_grows regular layered found recorded hung start fun m _ => id
  have nodes := (visit_grows regular recorded found
    (SelectionTree.sits_root hung).stands (fun k none => by cases none) false
    (fun none => by cases none) roots.honest
    (roots.unclaimed (fun m _ => id) fun m => Region.not_mem_area_of_below _)).1
  have grows := roots.trans nodes
  exact ⟨grows.honest.evaluable, fun m => grows.mem_shown_iff UnionTerms.shown_empty
    fun x visible => SelectionTree.mem_area_root visible.1⟩

end CubeAxis.Collapsed
