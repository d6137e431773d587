import CubeAxis.Proofs.Drill.Bare
import CubeAxis.Proofs.Resolution.Ambiguous
import CubeAxis.Proofs.Session.Exact

namespace CubeAxis

namespace Dimension

/-- The dimension with nothing but some actions on its selection. -/
def selecting (d : Dimension) (as : List Selection) : Dimension :=
  { d with selection := as.foldl SelectionTree.apply d.selection.clear }

/-- Some actions on the hierarchy lead from one dimension to the other. -/
def SelectsTo (d e : Dimension) : Prop :=
  ∃ as : List Selection, (∀ a ∈ as, a.target.Within d.hierarchy) ∧ d.selecting as = e

/-- The first root member. -/
def lead (d : Dimension) : Member :=
  d.hierarchy.roots.headD (.root "" "" "")

/-- The dimension with nothing but some members included. -/
def including (d : Dimension) (ms : List Member) : Dimension :=
  d.selecting (ms.map (.onMember .included .member))

/-- The dimension with nothing but its first root member included. -/
def atLead (d : Dimension) : Dimension :=
  d.including [d.lead]

variable {d : Dimension}

theorem lead_spec (sound : d.hierarchy.Sound) (inhabited : d.hierarchy.members ≠ []) :
    d.lead ∈ d.hierarchy.members ∧ d.lead.parent? = none := by
  obtain ⟨m, inside⟩ := List.exists_mem_of_ne_nil _ inhabited
  obtain ⟨top, above, start⟩ := Member.exists_mem_upward_of_depth (Nat.zero_le m.depth)
  have rooted : top ∈ d.hierarchy.roots := by
    refine List.mem_filter.mpr ⟨sound.upward_mem inside above, ?_⟩
    rw [Member.parent?_eq_none_iff.mpr start]
    rfl
  unfold lead
  cases roots : d.hierarchy.roots with
  | nil =>
    rw [roots] at rooted
    exact absurd rooted List.not_mem_nil
  | cons r rs =>
    have first : r ∈ d.hierarchy.roots := by
      rw [roots]
      exact List.mem_cons_self
    obtain ⟨known, parent⟩ := List.mem_filter.mp first
    exact ⟨known, Option.isNone_iff_eq_none.mp parent⟩

/-- What the dimension denotes without recorded positions. -/
def denoted (hs : List Hierarchy) (d : Dimension) : Set Member :=
  {m | ∃ ts, d.onAxis.fullExpr.evaluate hs = .ok ts ∧ [m] ∈ ts}

theorem denoted_eq {hs : List Hierarchy} {A : Set Member}
    (value : d.onAxis.fullExpr.Denotes hs (lone A)) : d.denoted hs = A := by
  obtain ⟨ts, run, mem⟩ := value
  refine Set.ext fun m => ⟨fun shown => ?_, fun inside => ?_⟩
  · obtain ⟨us, again, listed⟩ := shown
    cases run.symm.trans again
    exact singleton_mem_lone.mp ((mem [m]).mp listed)
  · exact ⟨ts, run, (mem [m]).mpr (singleton_mem_lone.mpr inside)⟩

/-- An included member without included ancestors is shown in either mode. -/
theorem mem_shown_nil {m : Member} (inside : m ∈ d.hierarchy.members)
    (included : d.selection.isIncluded m = true)
    (free : d.mode = .collapsed → ∀ a ∈ m.ancestors, d.selection.isIncluded a = false) :
    m ∈ d.shown [] := by
  refine ⟨inside, ?_⟩
  change d.mode.isVisible d.selection [] m = true
  rw [Mode.isVisible, included, Bool.true_and]
  cases mode : d.mode with
  | collapsed =>
    have none : m.ancestors.filter d.selection.isIncluded = [] := by
      refine List.filter_eq_nil_iff.mpr fun a above => ?_
      rw [free mode a above]
      exact Bool.false_ne_true
    rw [none]
    rfl
  | expanded => simp [Mode.opens]

theorem including_selection (d : Dimension) (ms : List Member) : (d.including ms).selection =
    ms.foldl SelectionTree.includeMember d.selection.clear :=
  List.foldl_map

theorem including_spec (sound : d.hierarchy.Sound) {ms : List Member}
    (inside : ∀ m ∈ ms, m ∈ d.hierarchy.members) :
    (d.including ms).selection.Plain d.hierarchy ∧ ∀ k,
      (d.including ms).selection.isIncluded k = true ↔
        ∃ m ∈ ms, (k.pathFromRoot == m.pathFromRoot) = true := by
  have bare := SelectionTree.clear_plain d.hierarchy d.selection
  obtain ⟨plain, included⟩ := bare.foldl_includeMember sound inside
  rw [including_selection]
  refine ⟨plain, fun k => (included k).trans ?_⟩
  rw [SelectionTree.isIncluded_clear]
  simp

/-- Members that are included alone are shown. -/
theorem mem_shown_including (sound : d.hierarchy.Sound) {ms : List Member}
    (inside : ∀ m ∈ ms, m ∈ d.hierarchy.members) {m : Member} (mem : m ∈ ms)
    (free : ∀ a ∈ m.ancestors, ∀ k ∈ ms, (a.pathFromRoot == k.pathFromRoot) = false) :
    m ∈ (d.including ms).shown [] := by
  obtain ⟨_, included⟩ := including_spec sound inside
  refine mem_shown_nil (inside m mem) ((included m).mpr ⟨m, mem, BEq.rfl⟩) fun _ a above => ?_
  refine Bool.eq_false_iff.mpr fun sign => ?_
  obtain ⟨k, listed, same⟩ := (included a).mp sign
  rw [free a above k listed] at same
  cases same

theorem fullExpr_including (sound : d.hierarchy.Sound) {ms : List Member}
    (inside : ∀ m ∈ ms, m ∈ d.hierarchy.members) : ∃ ks,
      (d.including ms).onAxis.fullExpr = Expr.members ks ∧ (∀ k ∈ ks, k ∈ d.hierarchy.members) ∧
      ∀ node ∈ (d.including ms).selection.overrides.trees,
        node.2.1.state.member = some .included → node.1 ∈ ks := by
  obtain ⟨plain, _⟩ := including_spec sound inside
  have bare : (d.including ms).selection.levels = [] := by
    rw [including_selection, SelectionTree.foldl_includeMember_levels]
    rfl
  refine AxisDimension.fullExpr_plain (d := (d.including ms).onAxis) plain fun l => ?_
  change ((d.including ms).selection.levels.find? _).map _ = none
  rw [bare]
  rfl

/-- The first root member, included alone, is all that counts. -/
theorem atLead_spec (sound : d.hierarchy.Sound) (inhabited : d.hierarchy.members ≠ []) :
    d.lead ∈ d.atLead.shown [] ∧ ∃ ms, d.atLead.onAxis.fullExpr = Expr.members ms ∧
      (∀ m ∈ ms, m ∈ d.hierarchy.members) ∧ d.lead ∈ ms := by
  obtain ⟨inside, root⟩ := lead_spec sound inhabited
  have known : ∀ m ∈ [d.lead], m ∈ d.hierarchy.members := List.forall_mem_singleton.mpr inside
  refine ⟨mem_shown_including sound known (List.mem_singleton_self _) fun a above => ?_, ?_⟩
  · rw [Member.ancestors_of_no_parent root] at above
    exact absurd above List.not_mem_nil
  · obtain ⟨ms, shape, listed, all⟩ := fullExpr_including sound known
    refine ⟨ms, shape, listed, ?_⟩
    have nodes : (d.including [d.lead]).selection.overrides =
        .cons d.lead (Override.fresh d.selection.clear.nextSequence).withInclusion .nil .nil := by
      change (d.selection.clear.includeMember d.lead).overrides = _
      rw [SelectionTree.includeMember_overrides (SelectionTree.clear_plain d.hierarchy _),
        Member.pathFromRoot_of_no_parent root]
      rfl
    rw [nodes] at all
    refine all _ List.mem_cons_self ?_
    rw [(Override.fresh_plain _).withInclusion_state]

theorem atLead_denoted (regular : d.hierarchy.Regular) (inhabited : d.hierarchy.members ≠ [])
    (hs : List Hierarchy) : d.lead ∈ d.atLead.denoted hs ∧
      d.atLead.onAxis.fullExpr.Term hs (lone d.hierarchy.all) (lone (d.atLead.denoted hs)) := by
  obtain ⟨_, ms, shape, listed, lead⟩ := atLead_spec regular.toSound inhabited
  have term : d.atLead.onAxis.fullExpr.Term hs (lone d.hierarchy.all) (lone {m | m ∈ ms}) := by
    rw [shape]
    exact UnionTerms.term_members_of_regular regular listed
  rw [denoted_eq term.denotes]
  exact ⟨lead, term⟩

end Dimension

namespace Session

variable {pre post ds es : List Dimension} {d : Dimension} {drills : DrillTree}

theorem modifySelection_focus (change : SelectionTree → SelectionTree) :
    (⟨pre ++ d :: post, drills⟩ : Session).modifySelection pre.length change =
      ⟨pre ++ { d with selection := change d.selection } :: post, drills⟩ := by
  have focus : ∀ f : Dimension → Dimension,
      (pre ++ d :: post).modify pre.length f = pre ++ f d :: post := by
    intro f
    induction pre with
    | nil => rfl
    | cons e pre ih => simp [ih]
  rw [modifySelection, focus]

theorem leads_applying {as : List Selection} (within : ∀ a ∈ as, a.target.Within d.hierarchy) :
    (⟨pre ++ d :: post, drills⟩ : Session).Leads
      ⟨pre ++ { d with selection := as.foldl SelectionTree.apply d.selection } :: post, drills⟩ := by
  induction as generalizing d with
  | nil => exact .start
  | cons a as ih =>
    have first : (⟨pre ++ d :: post, drills⟩ : Session).Leads
        ⟨pre ++ { d with selection := d.selection.apply a } :: post, drills⟩ := by
      rw [← modifySelection_focus (·.apply a)]
      exact .select pre.length a .start (by simp) (within a List.mem_cons_self)
    exact first.trans (ih (d := { d with selection := d.selection.apply a })
      fun b mem => within b (List.mem_cons_of_mem _ mem))

theorem leads_selecting {as : List Selection} (within : ∀ a ∈ as, a.target.Within d.hierarchy) :
    (⟨pre ++ d :: post, drills⟩ : Session).Leads ⟨pre ++ d.selecting as :: post, drills⟩ := by
  have bare : (⟨pre ++ d :: post, drills⟩ : Session).Leads
      ⟨pre ++ { d with selection := d.selection.clear } :: post, drills⟩ := by
    rw [← modifySelection_focus (·.clear)]
    exact .deselect pre.length .start
  exact bare.trans (leads_applying (d := { d with selection := d.selection.clear }) within)

/-- The selections can be made one after the other. -/
theorem leads_of_forall₂ (pre : List Dimension) (drills : DrillTree)
    (each : List.Forall₂ Dimension.SelectsTo ds es) :
    (⟨pre ++ ds, drills⟩ : Session).Leads ⟨pre ++ es, drills⟩ := by
  induction each generalizing pre with
  | nil => exact .start
  | @cons d e ds es first _ ih =>
    obtain ⟨as, within, rfl⟩ := first
    have rest := ih (pre ++ [d.selecting as])
    rw [List.append_assoc, List.append_assoc] at rest
    exact (leads_selecting within).trans rest

/-- One dimension with the actions, every other one with its first root member. -/
def focus (pre : List Dimension) (d : Dimension) (as : List Selection) (post : List Dimension) :
    List Dimension :=
  pre.map Dimension.atLead ++ d.selecting as :: post.map Dimension.atLead

variable {as : List Selection}

theorem leads_focus (others : ∀ e ∈ pre ++ post, e.lead ∈ e.hierarchy.members)
    (within : ∀ a ∈ as, a.target.Within d.hierarchy) :
    (⟨pre ++ d :: post, drills⟩ : Session).Leads ⟨focus pre d as post, .empty⟩ := by
  have at_lead : ∀ ds : List Dimension, (∀ e ∈ ds, e ∈ pre ++ post) →
      List.Forall₂ Dimension.SelectsTo ds (ds.map Dimension.atLead) := by
    intro ds mem
    refine List.forall₂_map_right_iff.mpr (List.forall₂_same.mpr fun e listed => ⟨_, ?_, rfl⟩)
    exact List.forall_mem_singleton.mpr (others e (mem e listed))
  have before := at_lead pre fun e mem => List.mem_append_left _ mem
  have behind := at_lead post fun e mem => List.mem_append_right _ mem
  have selected := leads_of_forall₂ [] drills
    (List.rel_append before (.cons ⟨as, within, rfl⟩ behind))
  exact .clear selected

/-- The tuple with one member in focus and the first root member of every other dimension. -/
def focusTuple (pre : List Dimension) (m : Member) (post : List Dimension) : Tuple :=
  pre.map Dimension.lead ++ m :: post.map Dimension.lead

/-- Beside first root members that are shown, all depends on the member in focus. -/
theorem mem_tuplesOf_focus {S : Dimension → Set Member}
    (others : ∀ e ∈ pre ++ post, e.lead ∈ S e.atLead) {m : Member} :
    focusTuple pre m post ∈ tuplesOf S (focus pre d as post) ↔ m ∈ S (d.selecting as) := by
  have behind : List.Forall₂ (fun d m => m ∈ S d) (post.map Dimension.atLead)
      (post.map Dimension.lead) := by
    refine List.forall₂_map_left_iff.mpr (List.forall₂_map_right_iff.mpr ?_)
    exact List.forall₂_same.mpr fun e mem => others e (List.mem_append_right _ mem)
  change List.Forall₂ (fun d m => m ∈ S d) (focus pre d as post) _ ↔ _
  unfold focus focusTuple
  induction pre with
  | nil => exact List.forall₂_cons.trans (and_iff_left behind)
  | cons e pre ih =>
    have first := others e List.mem_cons_self
    rw [List.map_cons, List.map_cons, List.cons_append, List.cons_append, List.forall₂_cons]
    exact (and_iff_right first).trans (ih fun k mem => others k (List.mem_cons_of_mem _ mem))

theorem mem_visibleTuples_focus
    (others : ∀ e ∈ pre ++ post, e.hierarchy.Sound ∧ e.hierarchy.members ≠ []) {m : Member} :
    focusTuple pre m post ∈ DrillTree.empty.visibleTuples (focus pre d as post) ↔
      m ∈ (d.selecting as).shown [] := by
  rw [DrillTree.visibleTuples_empty]
  refine mem_tuplesOf_focus (S := (·.shown [])) fun e mem => ?_
  obtain ⟨sound, inhabited⟩ := others e mem
  exact (Dimension.atLead_spec sound inhabited).1

theorem hierarchies_focus (pre : List Dimension) (d : Dimension) (as : List Selection)
    (post : List Dimension) (drills : DrillTree) :
    (⟨focus pre d as post, drills⟩ : Session).hierarchies =
      (pre ++ d :: post).map (·.hierarchy) := by
  simp only [hierarchies, focus, List.map_append, List.map_cons, List.map_map]
  rfl

theorem mem_focus {e : Dimension} : e ∈ focus pre d as post ↔
    e = d.selecting as ∨ ∃ k ∈ pre ++ post, k.atLead = e := by
  simp only [focus, List.mem_append, List.mem_cons, List.mem_map]
  grind

theorem mem_of_mem_others {e : Dimension} (mem : e ∈ pre ++ post) : e ∈ pre ++ d :: post := by
  rcases List.mem_append.mp mem with before | behind
  · exact List.mem_append_left _ before
  · exact List.mem_append_right _ (List.mem_cons_of_mem _ behind)

/-- An exact session denotes, in the dimension in focus, the members that are shown. -/
theorem Exact.denotes_shown {hs : List Hierarchy}
    (hierarchies : (pre ++ d :: post).map (·.hierarchy) = hs)
    (regular : ∀ e ∈ pre ++ d :: post, e.hierarchy.Regular)
    (inhabited : ∀ e ∈ pre ++ d :: post, e.hierarchy.members ≠ [])
    (exact : (⟨focus pre d as post, .empty⟩ : Session).Exact) {A : Set Member}
    (term : (d.selecting as).onAxis.fullExpr.Term hs (lone d.hierarchy.all) (lone A)) :
    A = (d.selecting as).shown [] := by
  have others : ∀ e ∈ pre ++ post, e.hierarchy.Regular ∧ e.hierarchy.members ≠ [] :=
    fun e mem => ⟨regular e (mem_of_mem_others mem), inhabited e (mem_of_mem_others mem)⟩
  have value := Dimension.denoted_eq term.denotes
  have own : ∀ e ∈ focus pre d as post, e.hierarchy.Regular ∧
      e.onAxis.fullExpr.Term hs (lone e.hierarchy.all) (lone (e.denoted hs)) := by
    intro e mem
    rcases mem_focus.mp mem with rfl | ⟨k, other, rfl⟩
    · rw [value]
      exact ⟨regular d (by simp), term⟩
    · obtain ⟨known, any⟩ := others k other
      exact ⟨known, (Dimension.atLead_denoted known any hs).2⟩
  have evaluated : (⟨focus pre d as post, .empty⟩ : Session).expr.Denotes hs
      (tuplesOf (·.denoted hs) (focus pre d as post)) :=
    DrillTree.axisExpr_empty_denotes (by simp [focus]) (fun e mem => (own e mem).1)
      fun e mem => (own e mem).2
  rw [exact_iff, hierarchies_focus, hierarchies] at exact
  have same := evaluated.unique exact
  refine Set.ext fun m => ?_
  rw [← mem_visibleTuples_focus fun e mem => ⟨(others e mem).1.toSound, (others e mem).2⟩, ← value]
  refine Iff.trans ?_ (Set.ext_iff.mp same (focusTuple pre m post))
  refine (mem_tuplesOf_focus (S := (·.denoted hs)) fun e mem => ?_).symm
  exact (Dimension.atLead_denoted (others e mem).1 (others e mem).2 hs).1

/-- Members listed by themselves leave no two tuples of one name. -/
theorem focus_tidy {hs : List Hierarchy} (sound : ∀ e ∈ pre ++ d :: post, e.hierarchy.Sound)
    (inhabited : ∀ e ∈ pre ++ d :: post, e.hierarchy.members ≠ []) {ms : List Member}
    (inside : ∀ m ∈ ms, m ∈ d.hierarchy.members) :
    (⟨focus pre d (ms.map (.onMember .included .member)) post, .empty⟩ : Session).expr.Tidy hs := by
  refine DrillTree.axisExpr_empty_tidy fun e mem => ?_
  obtain ⟨ks, shape⟩ : ∃ ks, e.onAxis.fullExpr = Expr.members ks := by
    rcases mem_focus.mp mem with rfl | ⟨k, other, rfl⟩
    · obtain ⟨ks, shape, _⟩ := Dimension.fullExpr_including (sound d (by simp)) inside
      exact ⟨ks, shape⟩
    · have known := mem_of_mem_others (d := d) other
      obtain ⟨_, ks, shape, _⟩ := Dimension.atLead_spec (sound k known) (inhabited k known)
      exact ⟨ks, shape⟩
  rw [shape]
  exact Expr.tidy_brace _

end Session
end CubeAxis
