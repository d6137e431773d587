import CubeAxis.Drill.Axis
import CubeAxis.Proofs.Drill.Split

namespace CubeAxis
namespace UnionTerms

/-- The union `v` has come from `u` by terms for the tuples of `T`. -/
structure Gains (hs : List Hierarchy) (Ω : Set Tuple) (u : UnionTerms) (T : Set Tuple)
    (v : UnionTerms) : Prop where
  evaluable : v.Evaluable hs Ω
  value : v.value hs = u.value hs ∪ T

variable {hs : List Hierarchy} {Ω T : Set Tuple} {u : UnionTerms}

theorem Evaluable.gains_nothing (fine : u.Evaluable hs Ω) (empty : T = ∅) : u.Gains hs Ω T u :=
  ⟨fine, by rw [empty, Set.union_empty]⟩

theorem Gains.trans {v w : UnionTerms} {S : Set Tuple} (first : u.Gains hs Ω S v)
    (second : v.Gains hs Ω T w) : u.Gains hs Ω (S ∪ T) w :=
  ⟨second.evaluable, by rw [second.value, first.value, Set.union_assoc]⟩

/-- Terms for the nodes of a list, one node after the other. -/
theorem Evaluable.gains_foldl {ν : Type} {step : UnionTerms → ν → UnionTerms} {S : ν → Set Tuple}
    {nodes : List ν} (fine : u.Evaluable hs Ω)
    (each : ∀ node ∈ nodes, ∀ v : UnionTerms, v.Evaluable hs Ω → v.Gains hs Ω (S node) (step v node)) :
    u.Gains hs Ω {t | ∃ node ∈ nodes, t ∈ S node} (nodes.foldl step u) := by
  induction nodes generalizing u with
  | nil => exact fine.gains_nothing (by simp)
  | cons node nodes ih =>
    have first := each node List.mem_cons_self u fine
    have later := ih first.evaluable fun k mem => each k (List.mem_cons_of_mem _ mem)
    have same : {t | ∃ k ∈ node :: nodes, t ∈ S k} = S node ∪ {t | ∃ k ∈ nodes, t ∈ S k} := by
      ext t
      simp
    rw [same]
    exact first.trans later

end UnionTerms

namespace CrossJoin

variable {hs : List Hierarchy} {Ω T : Set Tuple} {c : CrossJoin}

/-- Joining what the dimensions show without positions, `S` for short. -/
theorem Spans.joinAll {S : Dimension → Set Member} {ds : List Dimension}
    (discrete : Discrete (· ∈ Ω))
    (terms : ∀ d ∈ ds, d.onAxis.fullExpr.Term hs (lone d.hierarchy.all) (lone (S d)))
    (spans : c.Spans hs Ω T) (inside : Expr.product T (tuplesAlong (ds.map (·.hierarchy))) ⊆ Ω) :
    (c.joinAll (ds.map fun d => d.onAxis.fullExpr)).Spans hs Ω (Expr.product T (tuplesOf S ds)) := by
  induction ds generalizing c T with
  | nil =>
    rw [tuplesOf_nil, Expr.product_nil_singleton]
    exact spans
  | cons d ds ih =>
    have term := terms d List.mem_cons_self
    have one : Expr.product T (lone d.hierarchy.all) ⊆ Ω :=
      (Expr.product_mono (lone_subset_tuplesAlong d.hierarchy _)).trans inside
    have rest : Expr.product (Expr.product T (lone (S d))) (tuplesAlong (ds.map (·.hierarchy))) ⊆
        Ω := by
      rw [Expr.product_assoc]
      exact (Expr.product_mono (product_subset_tuplesAlong term.within)).trans inside
    rw [tuplesOf_cons, ← Expr.product_assoc]
    exact ih (fun e mem => terms e (List.mem_cons_of_mem _ mem)) (spans.join discrete term one) rest

end CrossJoin

namespace AxisSet

variable {hs : List Hierarchy} {h : Hierarchy} {a : AxisSet}

/-- Leaving out the members of some nodes. -/
theorem Evaluable.excludeAll {nodes : List (Member × List Member × Forest (List Member))}
    (fine : a.Evaluable hs h) (inside : ∀ node ∈ nodes, node.1 ∈ h.members) :
    (nodes.foldl (fun s (m, _, _) => s.excludeMember m) a).Evaluable hs h ∧
      (nodes.foldl (fun s (m, _, _) => s.excludeMember m) a).shown hs h =
        a.shown hs h \ {m | ∃ node ∈ nodes, node.1 = m} := by
  induction nodes generalizing a with
  | nil => exact ⟨fine, by simp⟩
  | cons node nodes ih =>
    have next := fine.excludeMember (inside node List.mem_cons_self)
    obtain ⟨fine', shown⟩ := ih next fun k mem => inside k (List.mem_cons_of_mem _ mem)
    refine ⟨fine', shown.trans ?_⟩
    rw [shown_excludeMember, Set.sdiff_sdiff]
    congr 1
    ext m
    simp [eq_comm]

end AxisSet

namespace DrillTree

open CubeAxis.Expr

variable {hs : List Hierarchy} {Ω T : Set Tuple} {c : CrossJoin} {u : UnionTerms} {path : Tuple}
  {d : Dimension} {ds : List Dimension} {t : DrillTree}

theorem nil_notMem_product_lone (A : Set Tuple) (s : Set Member) : [] ∉ product A (lone s) := by
  intro given
  obtain ⟨x, _, y, second, same⟩ := given
  obtain ⟨m, _, rfl⟩ := mem_lone.mp second
  exact List.append_ne_nil_of_right_ne_nil x (List.cons_ne_nil m []) same.symm

theorem product_nodes {ν : Type} (nodes : List ν) (label : ν → Member) (S : ν → Set Tuple) :
    product {path} {tuple | ∃ node ∈ nodes, tuple ∈ product {[label node]} (S node)} =
      {tuple | ∃ node ∈ nodes, tuple ∈ product {path ++ [label node]} (S node)} := by
  ext tuple
  simp only [← product_singletons, product_assoc]
  constructor
  · intro given
    obtain ⟨x, inPath, y, ⟨node, mem, inside⟩, rfl⟩ := given
    exact ⟨node, mem, x, inPath, y, inside, rfl⟩
  · intro given
    obtain ⟨node, mem, x, inPath, y, inside, rfl⟩ := given
    exact ⟨x, inPath, y, ⟨node, mem, inside⟩, rfl⟩

theorem addTerm_gains (discrete : Discrete (· ∈ Ω)) (spans : c.Spans hs Ω T) (joined : [] ∉ T)
    (fine : u.Evaluable hs Ω) : u.Gains hs Ω T (addTerms.addTerm c u) := by
  unfold addTerms.addTerm
  cases shape : c.expr? with
  | none =>
    rw [spans.start shape] at joined
    exact absurd rfl joined
  | some e =>
    have term := spans.term e shape
    exact ⟨fine.add term, UnionTerms.value_add discrete term⟩

/-- One more member on the way to a node. -/
theorem spans_member (discrete : Discrete (· ∈ Ω)) {h : Hierarchy} (regular : h.Regular)
    {m : Member} (known : m ∈ h.members) (spans : c.Spans hs Ω {path})
    (inside : product {path} (lone h.all) ⊆ Ω) :
    (c.join (Expr.members [m])).Spans hs Ω {path ++ [m]} := by
  have term : (Expr.members [m]).Term hs (lone h.all) (lone {k | k ∈ [m]}) :=
    UnionTerms.term_members_of_regular regular fun k mem => List.mem_singleton.mp mem ▸ known
  have one : lone {k | k ∈ [m]} = {[m]} := by
    simp [lone]
  rw [one] at term
  rw [← product_singletons]
  exact spans.join discrete term inside

theorem beyond_member_subset {h : Hierarchy} {beyond : List Hierarchy} {m : Member} (known : m ∈ h.members)
    (inside : product {path} (tuplesAlong (h :: beyond)) ⊆ Ω) :
    product {path ++ [m]} (tuplesAlong beyond) ⊆ Ω := by
  have first : ({[m]} : Set Tuple) ⊆ lone h.all :=
    Set.singleton_subset_iff.mpr (singleton_mem_lone.mpr known)
  rw [← product_singletons, product_assoc]
  exact (product_mono (product_subset_tuplesAlong first)).trans inside

/-- The term of the members without positions below them. A dimension that shows
nothing by itself leaves no tuples for it. -/
theorem shared_gains (discrete : Discrete (· ∈ Ω)) {S : Dimension → Set Member} {h : Hierarchy}
    {e : Expr} {A : Set Member} (term : e.Term hs (lone h.all) (lone A))
    (terms : ∀ d ∈ ds, d.onAxis.fullExpr.Term hs (lone d.hierarchy.all) (lone (S d)))
    (spans : c.Spans hs Ω {path})
    (inside : product {path} (tuplesAlong (h :: ds.map (·.hierarchy))) ⊆ Ω)
    (fine : u.Evaluable hs Ω) :
    u.Gains hs Ω (product {path} (product (lone A) (tuplesOf S ds)))
      (if (ds.map fun d => d.onAxis.fullExpr).any Expr.isEmptySet then u
        else addTerms.addTerm ((c.join e).joinAll (ds.map fun d => d.onAxis.fullExpr)) u) := by
  split
  · rename_i void
    obtain ⟨_, listed, literal⟩ := List.any_eq_true.mp void
    obtain ⟨d, mem, rfl⟩ := List.mem_map.mp listed
    have nothing := (terms d mem).denotes.empty_of_isEmptySet literal
    rw [← lone_empty] at nothing
    refine fine.gains_nothing ?_
    rw [tuplesOf_of_void ⟨d, mem, lone_injective nothing⟩, product_empty, product_empty]
  · have one := (product_mono (lone_subset_tuplesAlong h _)).trans inside
    have joined := spans.join discrete term one
    have rest : product (product {path} (lone A)) (tuplesAlong (ds.map (·.hierarchy))) ⊆ Ω := by
      rw [product_assoc]
      exact (product_mono (product_subset_tuplesAlong term.within)).trans inside
    rw [← product_assoc]
    refine addTerm_gains discrete (joined.joinAll discrete terms rest) ?_ fine
    intro nil
    obtain ⟨x, first, y, _, same⟩ := nil
    exact nil_notMem_product_lone _ _ ((List.append_eq_nil_iff.mp same.symm).1 ▸ first)

/-- With the positions of the node its dimension resolves to what it shows. -/
theorem Aligned.evaluable {beyond : List Hierarchy} (aligned : t.Aligned (d.hierarchy :: beyond))
    (resolved : d.Resolves hs) :
    (d.onAxis.resolve t.drilled).Evaluable hs d.hierarchy ∧
      (d.onAxis.resolve t.drilled).shown hs d.hierarchy = d.shown t.drilled :=
  resolved.evaluable fun m mem => aligned.drilled m mem d.hierarchy rfl

/-- A dimension that shows nothing brings no terms. -/
theorem void_gains (void : d.shown t.drilled = ∅) (fine : u.Evaluable hs Ω) :
    u.Gains hs Ω (product {path} (t.visibleTuples (d :: ds))) u := by
  refine fine.gains_nothing ?_
  rw [visibleTuples_of_shown_eq_empty void, product_empty]

/-- The terms of a node are for the tuples that go on from it visibly. -/
theorem addTerms_gains (discrete : Discrete (· ∈ Ω)) (resolves : ∀ e ∈ d :: ds, e.Resolves hs)
    (aligned : t.Aligned ((d :: ds).map (·.hierarchy))) (spans : c.Spans hs Ω {path})
    (inside : product {path} (tuplesAlong ((d :: ds).map (·.hierarchy))) ⊆ Ω)
    (fine : u.Evaluable hs Ω) :
    u.Gains hs Ω (product {path} (t.visibleTuples (d :: ds)))
      (addTerms c d.onAxis (ds.map fun e => (e.onAxis, e.onAxis.fullExpr)) t.drilled t.below u) := by
  induction ds generalizing d t c path u with
  | nil =>
    have resolved := resolves d List.mem_cons_self
    obtain ⟨shownFine, shownEq⟩ := aligned.evaluable resolved
    have one := (product_mono (lone_subset_tuplesAlong d.hierarchy _)).trans inside
    simp only [List.map_nil, addTerms]
    split
    · rename_i empty
      rw [AxisSet.shown_of_isEmpty empty] at shownEq
      exact void_gains shownEq.symm fine
    · rw [visibleTuples_singleton, ← shownEq]
      have term := shownFine.term_expr resolved.regular resolved.found
      exact addTerm_gains discrete (spans.join discrete term one) (nil_notMem_product_lone _ _) fine
  | cons next rest ih =>
    have resolved := resolves d List.mem_cons_self
    have beyond : ∀ e ∈ next :: rest, e.Resolves hs :=
      fun e mem => resolves e (List.mem_cons_of_mem _ mem)
    obtain ⟨shownFine, shownEq⟩ := aligned.evaluable resolved
    have one := (product_mono (lone_subset_tuplesAlong d.hierarchy _)).trans inside
    simp only [List.map_cons, List.map_map, addTerms]
    split
    · rename_i empty
      rw [AxisSet.shown_of_isEmpty empty] at shownEq
      exact void_gains shownEq.symm fine
    · have known : ∀ node ∈ t.below.trees.filter (opensBelow d t.drilled),
          node.1 ∈ d.hierarchy.members :=
        fun node mem => aligned.mem_of_mem_trees (List.mem_of_mem_filter mem)
      obtain ⟨sharedFine, sharedEq⟩ := shownFine.excludeAll known
      have shared := shared_gains discrete (sharedFine.term_expr resolved.regular resolved.found)
        (fun e mem => (beyond e mem).term_fullExpr) spans inside fine
      have apart : ∀ node ∈ t.below.trees.filter (opensBelow d t.drilled), ∀ v : UnionTerms,
          v.Evaluable hs Ω → v.Gains hs Ω
            (product {path ++ [node.1]} (visibleTuples ⟨node.2.1, node.2.2⟩ (next :: rest)))
            (addTerms (c.join (Expr.members [node.1])) next.onAxis
              (rest.map fun e => (e.onAxis, e.onAxis.fullExpr)) node.2.1 node.2.2 v) := by
        intro given mem v fine
        obtain ⟨m, ms, children⟩ := given
        obtain ⟨_, listed, below⟩ := aligned.below.of_mem_trees (List.mem_of_mem_filter mem)
        have way := spans_member discrete resolved.regular (known _ mem) spans one
        exact ih (t := ⟨ms, children⟩) beyond ⟨listed, below⟩ way (beyond_member_subset (known _ mem) inside)
          fine
      rw [aligned.visibleTuples_cons resolved.regular, visibleTuples_empty, product_union, ← shownEq,
        ← sharedEq, product_nodes]
      exact shared.trans (shared.evaluable.gains_foldl apart)

/-- A single tuple is put into a set. -/
theorem wrapped_denotes {e : Expr} (discrete : Discrete (· ∈ Ω)) (term : e.Term hs Ω T) :
    (if e.form? = some .tuple then Expr.brace [e] else e).Denotes hs T := by
  split
  · exact term.denotes.brace discrete term.within
  · exact term.denotes

theorem discrete_tuplesAlong (regular : ∀ d ∈ ds, d.hierarchy.Regular) :
    Discrete (· ∈ tuplesAlong (ds.map (·.hierarchy))) := by
  refine Tuple.along_discrete fun h mem => ?_
  obtain ⟨d, inside, rfl⟩ := List.mem_map.mp mem
  exact regular d inside

theorem resolves_of_reached (names : (ds.map (·.hierarchy.name)).Nodup)
    (built : ∀ d ∈ ds, d.hierarchy.Built)
    (members : ∀ d ∈ ds, (d.hierarchy.members.map Member.uniqueName).Nodup)
    (levels : ∀ d ∈ ds, (d.hierarchy.levels.map Level.name).Nodup)
    (selected : ∀ d ∈ ds, d.selection.Reached d.hierarchy) :
    ∀ d ∈ ds, d.Resolves (ds.map (·.hierarchy)) := by
  intro d mem
  have regular := (built d mem).regular (members d mem)
  refine ⟨regular, regular.tells (levels d mem) d.mode, ?_, (selected d mem).hung regular⟩
  refine Expr.findHierarchy_of_nodup ?_ (List.mem_map_of_mem mem)
  rwa [List.map_map]

/-- The expression of an axis evaluates, to the tuples that are visible throughout. -/
theorem axisExpr_denotes (any : ds ≠ [])
    (resolves : ∀ d ∈ ds, d.Resolves (ds.map (·.hierarchy)))
    (aligned : t.Aligned (ds.map (·.hierarchy))) :
    (t.axisExpr (ds.map (·.onAxis))).Denotes (ds.map (·.hierarchy)) (t.visibleTuples ds) := by
  have discrete := discrete_tuplesAlong fun d mem => (resolves d mem).regular
  cases ds with
  | nil => exact absurd rfl any
  | cons d rest =>
    have gains := addTerms_gains discrete resolves aligned CrossJoin.Spans.empty
      (product_singleton_nil _).subset UnionTerms.Evaluable.empty
    have term := gains.evaluable.term_expr discrete
    rw [gains.value, UnionTerms.value_empty, Set.empty_union, product_singleton_nil] at term
    simp only [List.map_cons, axisExpr, List.map_map]
    exact wrapped_denotes discrete term

/-- An axis denotes the tuples whose every member is visible given the members
recorded after those before it. -/
theorem axisExpr_exact (any : ds ≠ []) (names : (ds.map (·.hierarchy.name)).Nodup)
    (built : ∀ d ∈ ds, d.hierarchy.Built)
    (members : ∀ d ∈ ds, (d.hierarchy.members.map Member.uniqueName).Nodup)
    (levels : ∀ d ∈ ds, (d.hierarchy.levels.map Level.name).Nodup)
    (selected : ∀ d ∈ ds, d.selection.Reached d.hierarchy)
    (recorded : t.Reached (ds.map (·.hierarchy))) :
    ∃ ts : List Tuple,
      (t.axisExpr (ds.map (·.onAxis))).evaluate (ds.map (·.hierarchy)) = .ok ts ∧
        ∀ tuple, tuple ∈ ts ↔ t.Visible ds tuple := by
  exact axisExpr_denotes any (resolves_of_reached names built members levels selected)
    recorded.aligned

/-- One region with one shop. -/
def shops : Hierarchy :=
  ((Hierarchy.new "Shop" ["Region", "Shop"]).addPath "North/Harbour").2

def north : Member :=
  .root "Shop" "North" "Region"

def harbour : Member :=
  .child north "Harbour" "Shop"

/-- The first year and all below it, collapsed, beside the region and all below it, expanded. -/
def calendarByShop : List Dimension :=
  [⟨.calendar, .collapsed, SelectionTree.empty.apply (.onMember .included .descendants .year)⟩,
    ⟨shops, .expanded, SelectionTree.empty.apply (.onMember .included .descendants north)⟩]

theorem forall_mem_calendarByShop {p : Dimension → Prop} (first : p calendarByShop[0])
    (second : p calendarByShop[1]) : ∀ d ∈ calendarByShop, p d := by
  intro d given
  rcases given with _ | ⟨_, _ | ⟨_, none⟩⟩
  · exact first
  · exact second
  · cases none

theorem members_shops : shops.members = [north, harbour] :=
  rfl

theorem north_mem_shops : north ∈ shops.members := by
  rw [members_shops]
  exact List.mem_cons_self

theorem harbour_mem_shops : harbour ∈ shops.members := by
  rw [members_shops]
  exact List.mem_cons_of_mem _ (List.mem_singleton_self _)

theorem calendarByShop_built : ∀ d ∈ calendarByShop, d.hierarchy.Built :=
  forall_mem_calendarByShop Hierarchy.calendar_built (.addPath _ (.new _ _))

theorem calendarByShop_selected : ∀ d ∈ calendarByShop, d.selection.Reached d.hierarchy :=
  forall_mem_calendarByShop
    (.apply (.onMember .included .descendants .year) .empty Hierarchy.year_mem_calendar)
    (.apply (.onMember .included .descendants north) .empty north_mem_shops)

/-- The region below the year. -/
theorem within_calendarByShop :
    Position.Within (calendarByShop.map (·.hierarchy)) [.year, north] :=
  Position.within_cons.mpr ⟨Hierarchy.year_mem_calendar,
    Position.within_cons.mpr ⟨north_mem_shops, Position.within_nil _⟩⟩

theorem visible_calendarByShop {m k : Member} (inside : m ∈ Hierarchy.calendar.members)
    (beside : k ∈ shops.members) : t.Visible calendarByShop [m, k] ↔
      calendarByShop[0].onAxis.isVisible t.drilled m = true ∧
        calendarByShop[1].onAxis.isVisible (t.after m).drilled k = true := by
  have first : m ∈ calendarByShop[0].hierarchy.members := inside
  have second : k ∈ calendarByShop[1].hierarchy.members := beside
  change t.Visible [calendarByShop[0], calendarByShop[1]] [m, k] ↔ _
  simp only [visible_cons, visible_nil, first, second, true_and, and_true]

/-- With the year opened and the region closed below it, the shop is shown beside the month
but not beside the year. -/
theorem axisExpr_exact_calendarByShop :
    let recorded := (empty.add [.year]).add [.year, north]
    ∃ ts : List Tuple,
      (recorded.axisExpr (calendarByShop.map (·.onAxis))).evaluate
          (calendarByShop.map (·.hierarchy)) = .ok ts ∧
        (∀ tuple, tuple ∈ ts ↔ recorded.Visible calendarByShop tuple) ∧
        [.year, north] ∈ ts ∧ [.january, harbour] ∈ ts ∧ [.year, harbour] ∉ ts := by
  intro recorded
  obtain ⟨ts, run, shown⟩ := axisExpr_exact (t := recorded) (by decide) (by decide)
    calendarByShop_built (forall_mem_calendarByShop (by decide) (by decide))
    (forall_mem_calendarByShop (by decide) (by decide)) calendarByShop_selected
    (.add _ (.add _ .empty (within_calendarByShop.take 1)) within_calendarByShop)
  refine ⟨ts, run, shown, ?_, ?_, ?_⟩
  · rw [shown, visible_calendarByShop Hierarchy.year_mem_calendar north_mem_shops]
    decide
  · rw [shown, visible_calendarByShop Hierarchy.january_mem_calendar harbour_mem_shops]
    decide
  · rw [shown, visible_calendarByShop Hierarchy.year_mem_calendar harbour_mem_shops]
    decide

end DrillTree
end CubeAxis
