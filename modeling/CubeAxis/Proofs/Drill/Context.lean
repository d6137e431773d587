import CubeAxis.Proofs.Drill.Axis
import CubeAxis.Proofs.Drill.Record

namespace CubeAxis

variable {hs : List Hierarchy} {p q : Position}

/-- Positions of regular hierarchies are one where their names are. -/
theorem Position.eq_of_beq (regular : ∀ h ∈ hs, h.Regular) (left : p.Within hs)
    (right : q.Within hs) (short : p.length ≤ hs.length) (same : (p == q) = true) : p = q := by
  induction hs generalizing p q with
  | nil =>
    obtain rfl := List.eq_nil_of_length_eq_zero (Nat.le_zero.mp short)
    cases q with
    | nil => rfl
    | cons => cases same
  | cons h hs ih =>
    cases p with
    | nil =>
      cases q with
      | nil => rfl
      | cons => cases same
    | cons m p =>
      cases q with
      | nil => cases same
      | cons k q =>
        obtain ⟨insideM, restP⟩ := within_cons.mp left
        obtain ⟨insideK, restQ⟩ := within_cons.mp right
        rw [List.cons_beq_cons, Bool.and_eq_true,
          (regular h List.mem_cons_self).beq_iff insideM insideK] at same
        obtain ⟨rfl, rest⟩ := same
        rw [ih (fun g mem => regular g (List.mem_cons_of_mem _ mem)) restP restQ
          (Nat.le_of_succ_le_succ short) rest]

namespace DrillTree

variable {t u : DrillTree} {ds : List Dimension} {path : List Member} {m : Member} {tuple : Tuple}

theorem Visible.within (visible : t.Visible ds tuple) :
    Position.Within (ds.map (·.hierarchy)) tuple := by
  have along := visible.1
  clear visible
  induction along with
  | nil => exact Position.within_nil _
  | cons inside _ ih => exact Position.within_cons.mpr ⟨inside, ih⟩

/-- A trie that lists the same off a path leaves visible what is visible there. -/
theorem Visible.off_path (visible : t.Visible ds tuple)
    (regular : ∀ d ∈ ds, d.hierarchy.Regular) (within : Position.Within (ds.map (·.hierarchy)) path)
    (same : ∀ q, (q == path) = false → u.drilledAt q = t.drilledAt q)
    (off : tuple.take path.length ≠ path) : u.Visible ds tuple := by
  refine ⟨visible.1, fun i d k atI there => ?_⟩
  have elsewhere : (tuple.take i == path) = false := by
    refine Bool.eq_false_iff.mpr fun here => off ?_
    have bound : i < ds.length := (List.getElem?_eq_some_iff.mp atI).1
    have one : tuple.take i = path := by
      refine Position.eq_of_beq (List.forall_mem_map.mpr regular) (visible.within.take i) within ?_
        here
      rw [List.length_take, List.length_map]
      omega
    rw [← one, List.length_take, ← List.take_eq_take_min]
  rw [same _ elsewhere]
  exact visible.2 i d k atI there

theorem visible_off_path (regular : ∀ d ∈ ds, d.hierarchy.Regular)
    (within : Position.Within (ds.map (·.hierarchy)) path)
    (same : ∀ q, (q == path) = false → u.drilledAt q = t.drilledAt q)
    (off : tuple.take path.length ≠ path) : t.Visible ds tuple ↔ u.Visible ds tuple :=
  ⟨fun visible => visible.off_path regular within same off,
    fun visible => visible.off_path regular within (fun q other => (same q other).symm) off⟩

/-- Forgetting a position that was not recorded before leaves what was. -/
theorem drilledAt_remove_add (fresh : t.isDrilled (path ++ [m]) = false) (q : List Member) :
    ((t.add (path ++ [m])).remove (path ++ [m])).drilledAt q = t.drilledAt q := by
  rw [isDrilled, List.getLast?_concat, List.dropLast_concat] at fresh
  rw [drilledAt_remove, drilledAt_add]
  by_cases here : (q == path) = true
  · rw [if_pos here, if_pos here]
    rw [← t.drilledAt_congr here] at fresh
    have others : ∀ k ∈ t.drilledAt q, (!(k == m)) = true := by
      intro k mem
      rw [Bool.not_eq_true', Bool.eq_false_iff]
      exact fun same => Bool.eq_false_iff.mp fresh
        (List.contains_iff_exists_mem_beq.mpr ⟨k, mem, BEq.symm same⟩)
    rw [insertNew, if_neg (Bool.eq_false_iff.mp fresh), List.filter_append,
      List.filter_eq_self.mpr others]
    simp
  · rw [if_neg here, if_neg here]

/-- Recording a position makes the nodes that lead to it, and forgetting it keeps them. -/
theorem isSome_value?_remove_add (t : DrillTree) (path : List Member) (m : Member)
    (q : List Member) :
    (((t.add (path ++ [m])).remove (path ++ [m])).below.value? q).isSome =
      (!q.isEmpty && q.isPrefixOf path || (t.below.value? q).isSome) := by
  simp only [remove, add, List.getLast?_concat, List.dropLast_concat, adjustAt, upsertAt]
  cases path with
  | nil => cases q <;> rfl
  | cons a path =>
    simp only [List.isEmpty_cons, Bool.false_eq_true, if_false]
    rw [Forest.value?_adjust (List.cons_ne_nil a path)]
    have kept : ∀ f : Forest (List Member), ∀ change : List Member → List Member,
        (if q == a :: path then (f.value? q).map change else f.value? q).isSome =
          (f.value? q).isSome := by
      intro f change
      split
      · exact Option.isSome_map
      · rfl
    rw [kept]
    cases on : q.isPrefixOf (a :: path) with
    | false => rw [Forest.value?_upsert_of_not_prefix on, Bool.and_false, Bool.false_or]
    | true =>
      cases q with
      | nil => rw [Forest.value?_nil, Forest.value?_nil]; rfl
      | cons b q =>
        rw [Forest.value?_upsert_of_prefix (List.cons_ne_nil b q) on]
        rfl

/-- What the expression of an axis evaluates to. -/
def evaluate (t : DrillTree) (ds : List Dimension) : Except EvalError (List Tuple) :=
  (t.axisExpr (ds.map (·.onAxis))).evaluate (ds.map (·.hierarchy))

/-- Both tries evaluate on an axis, and to the same tuples of a set. -/
def Agree (ds : List Dimension) (A : Set Tuple) (t u : DrillTree) : Prop :=
  ∃ ts us, t.evaluate ds = .ok ts ∧ u.evaluate ds = .ok us ∧ ∀ tuple ∈ A, tuple ∈ ts ↔ tuple ∈ us

theorem agree_of_visible_iff {A : Set Tuple} (any : ds ≠ [])
    (resolves : ∀ d ∈ ds, d.Resolves (ds.map (·.hierarchy)))
    (left : t.Aligned (ds.map (·.hierarchy))) (right : u.Aligned (ds.map (·.hierarchy)))
    (same : ∀ tuple ∈ A, t.Visible ds tuple ↔ u.Visible ds tuple) : Agree ds A t u := by
  obtain ⟨ts, run, mem⟩ := axisExpr_denotes any resolves left
  obtain ⟨us, again, mem'⟩ := axisExpr_denotes any resolves right
  refine ⟨ts, us, run, again, fun tuple inside => ?_⟩
  rw [mem, mem']
  exact same tuple inside

/-- Recording a position, or forgetting it, changes the axis only where its members but
the last are. Forgetting what was not recorded before undoes the recording, though
the nodes stay. -/
theorem drill_stays_in_context (any : ds ≠ []) (names : (ds.map (·.hierarchy.name)).Nodup)
    (built : ∀ d ∈ ds, d.hierarchy.Built)
    (members : ∀ d ∈ ds, (d.hierarchy.members.map Member.uniqueName).Nodup)
    (levels : ∀ d ∈ ds, (d.hierarchy.levels.map Level.name).Nodup)
    (selected : ∀ d ∈ ds, d.selection.Reached d.hierarchy)
    (recorded : t.Reached (ds.map (·.hierarchy))) {path : List Member} {m : Member}
    (within : Position.Within (ds.map (·.hierarchy)) (path ++ [m])) :
    Agree ds {tuple | tuple.take path.length ≠ path} t (t.add (path ++ [m])) ∧
      Agree ds {tuple | tuple.take path.length ≠ path} t (t.remove (path ++ [m])) ∧
      (t.isDrilled (path ++ [m]) = false →
        Agree ds Set.univ t ((t.add (path ++ [m])).remove (path ++ [m]))) ∧
      ∀ q, (((t.add (path ++ [m])).remove (path ++ [m])).below.value? q).isSome =
        (!q.isEmpty && q.isPrefixOf path || (t.below.value? q).isSome) := by
  have resolves := resolves_of_reached names built members levels selected
  have regular : ∀ d ∈ ds, d.hierarchy.Regular := fun d mem => (resolves d mem).regular
  have before := recorded.aligned
  have added := before.add within
  have context : Position.Within (ds.map (·.hierarchy)) path := by
    have whole := within.take path.length
    rwa [List.take_left] at whole
  refine ⟨agree_of_visible_iff any resolves before added fun tuple off => ?_,
    agree_of_visible_iff any resolves before (before.remove within) fun tuple off => ?_,
    fun fresh => agree_of_visible_iff any resolves before (added.remove within) fun tuple _ => ?_,
    isSome_value?_remove_add t path m⟩
  · refine visible_off_path regular context (fun q other => ?_) off
    rw [drilledAt_add, if_neg (Bool.eq_false_iff.mp other)]
  · refine visible_off_path regular context (fun q other => ?_) off
    rw [drilledAt_remove, if_neg (Bool.eq_false_iff.mp other)]
  · exact visible_congr fun q => (drilledAt_remove_add fresh q).symm

/-- Closing the region below the year takes the shop from the year and leaves it at the month. -/
theorem drill_stays_in_context_calendarByShop :
    let opened := empty.add [.year]
    let closed := opened.add [.year, north]
    Agree calendarByShop {tuple | tuple.take 1 ≠ [.year]} opened closed ∧
      Agree calendarByShop Set.univ opened (closed.remove [.year, north]) ∧
      opened.Visible calendarByShop [.year, harbour] ∧
      ¬ closed.Visible calendarByShop [.year, harbour] ∧
      closed.Visible calendarByShop [.january, harbour] := by
  intro opened closed
  have within : Position.Within (calendarByShop.map (·.hierarchy)) ([.year] ++ [north]) :=
    within_calendarByShop
  obtain ⟨add, _, undo, _⟩ := drill_stays_in_context (t := opened) (by decide)
    (by decide) calendarByShop_built (forall_mem_calendarByShop (by decide) (by decide))
    (forall_mem_calendarByShop (by decide) (by decide)) calendarByShop_selected
    (.add _ .empty (within.take 1)) within
  refine ⟨add, undo rfl, ?_, ?_, ?_⟩
  · rw [visible_calendarByShop Hierarchy.year_mem_calendar harbour_mem_shops]
    decide
  · rw [visible_calendarByShop Hierarchy.year_mem_calendar harbour_mem_shops]
    decide
  · rw [visible_calendarByShop Hierarchy.january_mem_calendar harbour_mem_shops]
    decide

end DrillTree
end CubeAxis
