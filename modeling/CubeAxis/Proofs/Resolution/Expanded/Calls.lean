import CubeAxis.Proofs.Resolution.Exact
import CubeAxis.Proofs.Resolution.Expanded.Claims

namespace CubeAxis.Expanded

/-- A call of the walk: the member of the node, what the walk is told of it and below, and the
sets built so far. -/
structure Call where
  member : Member
  ambient : Ambient
  before : Progress

/-- The walk over the nodes of a forest, with the calls it makes. -/
def visitLogged (tree : SelectionTree) (levels : List Level) (i : Inherited) (a : Ambient) :
    Forest Override → Progress → List Call × Progress
  | .nil, p => ([], p)
  | .cons m o children siblings, p =>
    let (below, q) := enter tree levels i a m o children p
    let (inner, q) := match below with
      | none => ([], q)
      | some b => visitLogged tree levels (i.handDown o.state) b children q
    let (later, q) := visitLogged tree levels i a siblings q
    (⟨m, a, p⟩ :: (inner ++ later), q)

/-- All of an expanded hierarchy, with the calls that the walk makes. -/
def resolveLogged (tree : SelectionTree) (levels : List Level) (pool : Pool) :
    List Call × Progress :=
  let p := closeRegion ⟨tree, levels, tree.rootSite⟩ { pool := pool }
  let (calls, q) := visitLogged tree levels .top .nothing tree.overrides p
  (calls, showLevels tree levels q)

/-- Keeping the calls changes nothing about the walk. -/
theorem visitLogged_snd (tree : SelectionTree) (levels : List Level) (i : Inherited) (a : Ambient)
    (f : Forest Override) (p : Progress) :
    (visitLogged tree levels i a f p).2 = visit tree levels i a f p := by
  induction f generalizing i a p with
  | nil => rfl
  | cons m o children siblings ihBelow ihBeside =>
    rw [visitLogged, visit]
    rcases enter tree levels i a m o children p with ⟨_ | b, q⟩
    · exact ihBeside i a q
    · dsimp only
      rw [ihBeside, ihBelow]

theorem resolveLogged_snd (tree : SelectionTree) (levels : List Level) (pool : Pool) :
    (resolveLogged tree levels pool).2 = resolve tree levels pool :=
  congrArg (showLevels tree levels) (visitLogged_snd tree levels _ _ _ _)

/-- The calls are that for the first node, those below it if it stays open, and those for the
rest of the forest. -/
theorem mem_visitLogged_cons {tree : SelectionTree} {levels : List Level} {i : Inherited}
    {a : Ambient} {m : Member} {o : Override} {children siblings : Forest Override} {p : Progress}
    {c : Call} (mem : c ∈ (visitLogged tree levels i a (.cons m o children siblings) p).1) :
    c = ⟨m, a, p⟩ ∨
      (∃ b q, enter tree levels i a m o children p = (some b, q) ∧
        c ∈ (visitLogged tree levels (i.handDown o.state) b children q).1) ∨
      c ∈ (visitLogged tree levels i a siblings
        (visitNode tree levels i a m o children p)).1 := by
  rw [visitLogged] at mem
  rw [visitNode]
  generalize enter tree levels i a m o children p = entered at mem ⊢
  obtain ⟨_ | b, q⟩ := entered
  · exact (List.mem_cons.mp mem).imp_right Or.inr
  · rcases List.mem_cons.mp mem with here | rest
    · exact Or.inl here
    · refine Or.inr ((List.mem_append.mp rest).imp (fun below => ⟨b, q, rfl, below⟩) fun beside => ?_)
      rwa [visitLogged_snd] at beside

variable {hs : List Hierarchy} {h : Hierarchy} {t : SelectionTree} {positions : List Member}
  {p q : Progress} {A B : Set Member}

/-- No closed member lies at or above a member of the area. -/
def Unhidden (A : Set Member) (p : Progress) : Prop :=
  ∀ x ∈ A, ∀ u ∈ p.axis.undrilled, u ∉ x.upward

/-- What is told in a call is what the sets built so far show: of the member of the node, of its
children and further down. Nothing there is excluded, and no closed member lies at or above. -/
structure Call.Accurate (hs : List Hierarchy) (h : Hierarchy) (c : Call) : Prop where
  included : ∃ ms : List Member, c.before.axis.roots.expr.evaluate hs = .ok (ms.map ([·])) ∧
    (c.member ∈ ms ↔ c.ambient.member = .included) ∧
    (∀ x ∈ h.members, x.parent? = some c.member →
      (x ∈ ms ↔ c.ambient.children = .included)) ∧
    ∀ x ∈ h.members, c.member ∈ x.ancestors → x.parent? ≠ some c.member →
      (x ∈ ms ↔ c.ambient.deeper = .included)
  excluded : ∃ ms : List Member, c.before.axis.excluded.expr.evaluate hs = .ok (ms.map ([·])) ∧
    ∀ x ∈ ms, c.member ∉ x.upward
  undrilled : ∀ u ∈ c.before.axis.undrilled, u ∉ c.member.upward

section

variable (regular : h.Regular)

include regular

theorem evaluate_terms {u : UnionTerms} (fine : u.Evaluable hs (lone h.all)) :
    ∃ ms : List Member, u.expr.evaluate hs = .ok (ms.map ([·])) ∧
      ∀ x, x ∈ ms ↔ x ∈ u.shown hs := by
  have value := (fine.term_expr regular.discrete_lone).denotes
  rw [fine.value_eq] at value
  exact value.members

/-- A node that is ready to be entered is told the truth. -/
theorem Ready.accurate {i : Inherited} {a : Ambient} {m : Member} (ready : Ready hs h t i a m p)
    (inside : m ∈ h.members) (fine : Fine hs h t positions p)
    (unhidden : ∀ u ∈ p.axis.undrilled, u ∉ m.upward) : Call.Accurate hs h ⟨m, a, p⟩ := by
  obtain ⟨ms, runM, memM⟩ := evaluate_terms regular fine.evaluable.roots
  obtain ⟨ks, runK, memK⟩ := evaluate_terms regular fine.evaluable.excluded
  refine ⟨⟨ms, runM, ?_, fun x member parent => ?_, fun x member above other => ?_⟩,
    ⟨ks, runK, fun x mem above => ?_⟩, unhidden⟩
  · have self := ready.roots m ⟨inside, m.mem_upward_self⟩
    rw [Nat.sub_self] at self
    exact (memM m).trans self
  · have above := Member.mem_upward_of_ancestors (Member.parent_mem_ancestors parent)
    have child := ready.roots x ⟨member, above⟩
    rw [Member.depth_of_parent? parent, Nat.add_sub_cancel_left] at child
    exact (memM x).trans child
  · have deeper := ready.roots x ⟨member, Member.mem_upward_of_ancestors above⟩
    have low : m.depth < x.depth := Member.depth_lt_of_mem_ancestors above
    have apart : x.depth ≠ m.depth + 1 := fun level =>
      other (Member.parent?_eq_some_iff.mpr ⟨Member.mem_upward_of_ancestors above, level⟩)
    rw [a.at_of_le (by omega)] at deeper
    exact (memM x).trans deeper
  · have member := fine.evaluable.excluded.shown_subset ((memK x).mp mem)
    exact ready.excluded x ⟨member, above⟩ ((memK x).mp mem)

end

/-- From `p` to `q` members are closed in `A` only, and the pool does not grow. -/
structure ClosesIn (A : Set Member) (p q : Progress) : Prop where
  pool : ∀ m ∈ q.pool, m ∈ p.pool
  undrilled : ∀ u ∈ q.axis.undrilled, u ∈ p.axis.undrilled ∨ u ∈ A

namespace ClosesIn

theorem trans {r : Progress} (first : ClosesIn A p q) (second : ClosesIn B q r) :
    ClosesIn (A ∪ B) p r where
  pool m mem := first.pool m (second.pool m mem)
  undrilled u mem := by
    rcases second.undrilled u mem with old | new
    · exact (first.undrilled u old).imp_right Or.inl
    · exact Or.inr (Or.inr new)

theorem mono (closes : ClosesIn A p q) (within : A ⊆ B) : ClosesIn B p q :=
  ⟨closes.pool, fun u mem => (closes.undrilled u mem).imp_right fun new => within new⟩

/-- What no closed member hides stays so where none is closed at or above it. -/
theorem unhidden (closes : ClosesIn A p q) (before : Unhidden B p)
    (apart : ∀ u ∈ A, ∀ x ∈ B, u ∉ x.upward) : Unhidden B q := by
  intro x inside u mem
  rcases closes.undrilled u mem with old | new
  · exact before x inside u old
  · exact apart u new x inside

end ClosesIn

theorem Edit.closesIn {f : Progress → Progress} (edit : Edit f) (p : Progress) :
    ClosesIn ∅ p (f p) where
  pool _ mem := edit.blind.pool p ▸ mem
  undrilled _ mem := Or.inl (edit.undrilled p ▸ mem)

theorem closeNode_closesIn (h : Hierarchy) (t : SelectionTree) (a : Ambient) (m : Member)
    (p : Progress) : ClosesIn {m} p (closeNode h t a m { p with pool := p.pool.erase m }) where
  pool k mem := by
    rw [(Blind.closeNode h t a m).pool] at mem
    exact List.mem_of_mem_erase mem
  undrilled u mem := by
    rw [undrilled_closeNode] at mem
    exact (List.mem_append.mp mem).imp_right List.mem_singleton.mp

section

variable (regular : h.Regular)

include regular

theorem closeRegion_closesIn {r : Region} (sits : r.Sits h) (inside : ∀ m ∈ p.pool, m ∈ h.members) :
    ClosesIn (r.area h) p (closeRegion r p) where
  pool m mem := by
    rw [pool_closeRegion] at mem
    exact List.mem_of_mem_filter mem
  undrilled u mem := by
    have known : ∀ m ∈ p.pool.filter (closes r), m ∈ h.members :=
      fun m mem => inside m (List.mem_of_mem_filter mem)
    rw [closeRegion_eq, undrilled_foldl] at mem
    refine (List.mem_append.mp mem).imp id fun new => ?_
    have closed := mem_of_mem_outermost regular known new
    exact ((mem_filter_closes regular sits inside).mp closed).2.1

variable {parent : Option Member} {i : Inherited} {a : Ambient}

section

variable {m : Member} {o : Override} {below beside : Forest Override}
  (stands : t.Stands h parent i (.cons m o below beside)) (inside : ∀ k ∈ p.pool, k ∈ h.members)

include stands inside

theorem enter_closesIn :
    (∀ q, enter t h.levels i a m o below p = (none, q) → ClosesIn {m} p q) ∧
      ∀ b q, enter t h.levels i a m o below p = (some b, q) →
        ClosesIn (Region.area h ⟨t, h.levels, ⟨some (m, i), o.state, o.sequence, below⟩⟩) p q := by
  have sits := stands.region
  generalize shape : (⟨t, h.levels, ⟨some (m, i), o.state, o.sequence, below⟩⟩ : Region) = r at sits ⊢
  have marks := (Edit.markNode h t r a m).closesIn p
  rw [enter_eq stands regular a p shape.symm]
  dsimp only
  generalize markNode h t r a m p = marked at marks ⊢
  split
  · refine ⟨fun q same => ?_, nofun⟩
    obtain rfl := (Prod.mk.inj same).2
    exact (marks.trans (closeNode_closesIn h t a m marked)).mono (by simp)
  · refine ⟨nofun, fun b q same => ?_⟩
    obtain rfl := (Prod.mk.inj same).2
    have adjusts := marks.trans
      ((Edit.adjust r m a (differsSelf h t a m && t.isIncluded m)).closesIn marked)
    have region := closeRegion_closesIn regular sits
      fun k mem => inside k (adjusts.pool k mem)
    exact (adjusts.trans region).mono (by simp)

theorem visitNode_closesIn (visits : ∀ a (q : Progress), (∀ k ∈ q.pool, k ∈ h.members) →
      ClosesIn (below.area h) q (visit t h.levels (i.handDown o.state) a below q)) :
    ClosesIn (h.subtree m) p (visitNode t h.levels i a m o below p) := by
  have area := stands.subtree_eq
  obtain ⟨closed, opened⟩ := enter_closesIn (a := a) regular stands inside
  rw [visitNode]
  generalize enter t h.levels i a m o below p = entered at closed opened ⊢
  obtain ⟨_ | b, q⟩ := entered
  · exact (closed q rfl).mono (area ▸ Set.subset_union_left)
  · have node := opened b q rfl
    have rest := visits b q fun k mem => inside k (node.pool k mem)
    exact (node.trans rest).mono (area ▸ Set.subset_union_right)

end

theorem visit_closesIn {f : Forest Override} (stands : t.Stands h parent i f)
    (inside : ∀ k ∈ p.pool, k ∈ h.members) :
    ClosesIn (f.area h) p (visit t h.levels i a f p) := by
  induction f generalizing parent i a p with
  | nil => exact (Edit.none.closesIn p).mono (Set.empty_subset _)
  | cons m o below beside ihBelow ihBeside =>
    rw [SelectionTree.Stands.area_cons, visit_cons]
    have node := visitNode_closesIn (a := a) regular stands inside
      fun a q inside => ihBelow stands.region.stands inside
    exact node.trans (ihBeside (stands.siblings regular) fun k mem => inside k (node.pool k mem))

variable (recorded : ∀ x ∈ positions, x ∈ h.members)
  (found : Expr.findHierarchy hs h.name = .ok h)

include recorded found

/-- Every call of the walk is told the truth, if those for the top nodes would be. -/
theorem visitLogged_accurate {f : Forest Override} (stands : t.Stands h parent i f)
    (fine : Fine hs h t positions p) (ready : ∀ l ∈ f.labels, Ready hs h t i a l p)
    (free : Unclaimed positions (f.area h) p) (unhidden : Unhidden (f.area h) p) :
    ∀ c ∈ (visitLogged t h.levels i a f p).1, c.Accurate hs h := by
  induction f generalizing parent i a p with
  | nil => exact fun c none => absurd none List.not_mem_nil
  | cons m o below beside ihBelow ihBeside =>
    intro c called
    rw [SelectionTree.Stands.area_cons] at free unhidden
    have inPool : ∀ k ∈ p.pool, k ∈ h.members := fun k mem => recorded k (fine.pool k mem)
    have readyM := ready m List.mem_cons_self
    have freeM : Unclaimed positions (h.subtree m) p := fun x mem => free x (Or.inl mem)
    have area := stands.subtree_eq
    rcases mem_visitLogged_cons called with rfl | ⟨b, q, entered, lower⟩ | later
    · exact readyM.accurate regular stands.node_mem fine
        (unhidden m (Or.inl ⟨stands.node_mem, m.mem_upward_self⟩))
    · have within : below.area h ⊆ h.subtree m := fun x mem => area ▸ Or.inr (Or.inr mem)
      obtain ⟨_, same, -⟩ | ⟨_, _, same, node, readyBelow⟩ :=
        enter_grows regular recorded found stands fine readyM freeM
      · cases entered.symm.trans same
      · cases entered.symm.trans same
        have closes := (enter_closesIn regular stands inPool).2 b q entered
        exact ihBelow stands.region.stands node.fine readyBelow
          (node.unclaimed (fun x mem => freeM x (within mem)) fun x => stands.not_mem_node_of_below)
          (closes.unhidden (fun x mem => unhidden x (Or.inl (within mem)))
            fun u owned x => stands.region.not_mem_upward_of_below owned) c lower
    · have apart : ∀ x ∈ beside.area h, x ∉ h.subtree m := fun x => stands.apart
      have node := visitNode_grows regular recorded found stands fine readyM freeM
        fun a q fine free ready =>
          visit_grows regular recorded found stands.region.stands fine ready free
      have closes := visitNode_closesIn (a := a) regular stands inPool
        fun a q inside => visit_closesIn regular stands.region.stands inside
      refine ihBeside (stands.siblings regular) node.fine (fun l label => ?_)
        (node.unclaimed (fun x mem => free x (Or.inr mem)) apart)
        (closes.unhidden (fun x mem => unhidden x (Or.inr mem)) ?_) c later
      · exact (ready l (List.mem_cons_of_mem _ label)).transfer
          (stands.hung.2.2.2.2.allows l label).1 node
          fun x within => apart x ⟨within.1, l, label, within.2⟩
      -- nothing beside the node hangs from what is closed at or below it
      · exact fun u lower x mem above =>
          apart x mem ⟨mem.1, Member.mem_upward_trans lower.2 above⟩

end

/-- At every call of the walk the ambient tells what the sets built so far show, and keeping the
calls changes nothing about the walk. -/
theorem resolve_calls_accurate (sound : h.Sound) (names : (h.members.map Member.uniqueName).Nodup)
    (reached : t.Reached h) (recorded : ∀ m ∈ positions, m ∈ h.members) :
    (resolveLogged t h.levels positions).2 = resolve t h.levels positions ∧
      ∀ c ∈ (resolveLogged t h.levels positions).1, c.Accurate [h] h := by
  have regular : h.Regular := ⟨sound, Hierarchy.eq_of_nodup_uniqueNames names⟩
  have hung := reached.hung regular
  have found := Expr.findHierarchy_singleton h
  have sits := SelectionTree.sits_root hung
  obtain ⟨roots, ready⟩ : Grows [h] h t positions _ _ _ _ ∧ _ :=
    closeRoots_grows regular recorded hung
  have closes := closeRegion_closesIn (p := { pool := positions }) regular sits recorded
  exact ⟨resolveLogged_snd t h.levels positions,
    visitLogged_accurate regular recorded found sits.stands roots.fine ready
      (roots.unclaimed (fun m _ => id) fun m =>
        Region.not_mem_area_of_below ⟨t, h.levels, t.rootSite⟩)
      (closes.unhidden (fun x _ u none => absurd none List.not_mem_nil)
        fun u owned x => sits.not_mem_upward_of_below owned)⟩

theorem resolve_calls_accurate_calendar :
    let t := SelectionTree.yearly.apply (.onMember .included .member .january)
    let calls := (resolveLogged t Hierarchy.calendar.levels [.january]).1
    calls.map Call.member = [.year, .january] ∧ ∀ c ∈ calls, c.Accurate [.calendar] .calendar := by
  have reached := SelectionTree.yearly_reached.apply (.onMember .included .member .january)
    Hierarchy.january_mem_calendar
  exact ⟨rfl, (resolve_calls_accurate Hierarchy.calendar_built.sound (by decide) reached
    fun m mem => List.mem_singleton.mp mem ▸ Hierarchy.january_mem_calendar).2⟩

end CubeAxis.Expanded
