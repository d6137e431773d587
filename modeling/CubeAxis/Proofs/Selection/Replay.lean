import CubeAxis.Proofs.Selection.Run
import Mathlib.Tactic.MkIffOfInductiveProp

namespace CubeAxis

theorem getD_filter_bne {α : Type} [BEq α] [LawfulBEq α] (o : Option α) (d : α) :
    (o.filter (· != d)).getD d = o.getD d := by
  cases o with
  | none => rfl
  | some a => by_cases same : a = d <;> simp [Option.filter_some, same]

/-- No sign is recorded that the subtree sign of the same node gives anyway. -/
def SelectionState.Settled (st : SelectionState) : Prop :=
  ∀ s, st.descendants = some s → st.member ≠ some s ∧ st.children ≠ some s

namespace Inherited

variable {i : Inherited} {st : SelectionState}

theorem settled_record (settled : st.Settled) (s : Sign) (op : Operator) :
    (i.record st s op).Settled := by
  have apart {o : Option Sign} {d : Sign} (given : st.descendants = some d) :
      st.recorded s o ≠ some d := by
    rw [SelectionState.recorded, given, Option.some_or]
    split
    · exact nofun
    · rename_i different
      exact fun same => different same.symm
  intro d given
  cases op with
  | member => exact ⟨apart given, (settled d given).2⟩
  | children => exact ⟨(settled d given).1, apart given⟩
  | memberAndChildren => exact ⟨apart given, apart given⟩
  | descendants => exact ⟨nofun, nofun⟩
  | ancestors => exact settled d given
  | siblings => exact settled d given

/-- The same without a sign for the children that is the subtree's anyway. -/
def lean (i : Inherited) : Inherited :=
  ⟨i.children.filter (· != i.default.sign), i.default⟩

/-- The state without the signs that hold anyway. -/
def reduce (i : Inherited) (st : SelectionState) : SelectionState where
  member := st.member.filter (· != st.descendants.getD i.childrenSign.sign)
  children := st.children.filter (· != st.descendants.getD i.default.sign)
  descendants := st.descendants

theorem childrenSign_lean (i : Inherited) : i.lean.childrenSign.sign = i.childrenSign.sign := by
  rw [sign_childrenSign, sign_childrenSign]
  exact getD_filter_bne _ _

theorem reduce_lean (i : Inherited) (st : SelectionState) : i.lean.reduce st = i.reduce st := by
  rw [reduce, childrenSign_lean]
  rfl

theorem handDown_lean (i : Inherited) (st : SelectionState) :
    i.lean.handDown (i.reduce st) = (i.handDown st).lean := by
  obtain ⟨member, children, _ | s⟩ := st <;> rfl

theorem sign_memberSign_lean (i : Inherited) (st : SelectionState) :
    (i.lean.memberSign (i.reduce st)).sign = (i.memberSign st).sign := by
  rw [sign_memberSign, sign_memberSign, childrenSign_lean]
  exact getD_filter_bne _ _

theorem reduce_reduce (i : Inherited) (st : SelectionState) :
    i.reduce (i.reduce st) = i.reduce st := by
  simp [reduce, Option.filter_filter]

theorem ne_of_reduce (i : Inherited) (st : SelectionState) :
    (∀ s, (i.reduce st).member = some s →
        s ≠ (i.reduce st).descendants.getD i.childrenSign.sign) ∧
      ∀ s, (i.reduce st).children = some s →
        s ≠ (i.reduce st).descendants.getD i.default.sign := by
  simp [reduce, Option.filter_eq_some_iff]

theorem recorded_eq (st : SelectionState) (s d : Sign) :
    st.recorded s (some d) = (some s).filter (· != st.descendants.getD d) := by
  rw [SelectionState.recorded, Option.or_some, Option.filter_some]
  by_cases same : st.descendants.getD d = s
  · simp [same]
  · simp [same, Ne.symm same]

/-- The actions listed for a state, on a node without signs, record the state but for
the signs that hold anyway. -/
theorem foldl_record_selections (i : Inherited) (st : SelectionState) (m : Member) :
    (st.selections m).foldl (fun st a => i.record st a.sign a.operator) {} = i.reduce st := by
  obtain ⟨member, children, descendants⟩ := st
  cases member <;> cases children <;> cases descendants <;>
    simp only [SelectionState.selections, Selection.onMember] <;> split <;>
    simp_all [record, SelectionState.apply, recorded_eq, SelectionState.withDescendants, reduce]

end Inherited

namespace SelectionTree

variable {h : Hierarchy} {t u : SelectionTree} {states : Member → SelectionState} {m : Member}

/-- A tree that records `states` but for the signs that hold anyway hands down the same
but for the signs that hold anyway. -/
theorem inheritedBy_of_reduced
    (reduced : ∀ k, u.stateOf k = (u.inheritedBy k).reduce (states k)) (m : Member) :
    u.inheritedBy m = (handed states m).lean := by
  induction m with
  | root => rw [inheritedBy_root]; rfl
  | child p n l ih =>
    rw [inheritedBy_child, reduced p, ih, Inherited.reduce_lean, Inherited.handDown_lean, handed]

theorem sign_resolve_of_reduced
    (reduced : ∀ k, u.stateOf k = (u.inheritedBy k).reduce (states k)) (m : Member) :
    (u.resolve m).sign = ((handed states m).memberSign (states m)).sign := by
  rw [resolve, reduced m, inheritedBy_of_reduced reduced, Inherited.reduce_lean,
    Inherited.sign_memberSign_lean]

theorem grown_replay (t : SelectionTree) : t.replay.Grown :=
  grown_ofSelections _

/-- What replay leaves of the recorded signs: those that do not hold anyway. -/
theorem Grown.reduced_replay (grown : t.Grown) (m : Member) :
    t.replay.stateOf m = (t.replay.inheritedBy m).reduce (t.stateOf m) := by
  obtain ⟨k, -, listed⟩ := grown.filter_selections m
  rw [← Inherited.foldl_record_selections _ _ k, ← listed]
  exact stateOf_ofSelections grown.orderly_selections m

theorem Grown.inheritedBy_replay (grown : t.Grown) (m : Member) :
    t.replay.inheritedBy m = (t.inheritedBy m).lean := by
  rw [inheritedBy_of_reduced grown.reduced_replay, inheritedBy_eq]

theorem Grown.stateOf_replay (grown : t.Grown) (m : Member) :
    t.replay.stateOf m = (t.inheritedBy m).reduce (t.stateOf m) := by
  rw [grown.reduced_replay, grown.inheritedBy_replay, Inherited.reduce_lean]

theorem Grown.exists_level_replay_iff (grown : t.Grown) {l : Level} {s : Sign} :
    (∃ o ∈ t.replay.levels, o.level = l ∧ o.sign = s) ↔
      ∃ o ∈ t.levels, o.level = l ∧ o.sign = s :=
  (exists_level_ofSelections_iff grown.orderly_selections).trans exists_level_selections_iff

theorem Grown.sign_resolve_replay (grown : t.Grown) (m : Member) :
    (t.replay.resolve m).sign = (t.resolve m).sign := by
  rw [sign_resolve_of_reduced grown.reduced_replay, resolve, inheritedBy_eq]

theorem Grown.levelSign_replay (grown : t.Grown) (l : Level) :
    t.replay.levelSign l = t.levelSign l :=
  levelSign_eq_of_levels t.grown_replay.numbered grown.numbered
    (fun _ _ => grown.exists_level_replay_iff) l

/-- Replay keeps the sign of every member, apart from level-wide signs, and the sign of
every level. -/
theorem replay_signs (reached : t.Reached h) :
    (∀ m ∈ h.members, (t.replay.resolve m).sign = (t.resolve m).sign) ∧
      ∀ l ∈ h.levels, t.replay.levelSign l = t.levelSign l :=
  ⟨fun m _ => reached.grown.sign_resolve_replay m, fun l _ => reached.grown.levelSign_replay l⟩

/-- A month is included before all of its year is, and stays recorded. The level of
months is excluded in the end. -/
def overtaken : SelectionTree :=
  ((SelectionTree.empty.apply (.onMember .included .member .january)).apply
    (.onMember .included .descendants .year)).apply (.onLevel .excluded ⟨"Time", "Month", 1⟩)

theorem overtaken_reached : overtaken.Reached Hierarchy.calendar :=
  .apply _ (.apply _ (.apply _ .empty Hierarchy.january_mem_calendar)
    Hierarchy.year_mem_calendar) (List.mem_cons_of_mem _ List.mem_cons_self)

theorem replay_signs_overtaken :
    (∀ m ∈ Hierarchy.calendar.members,
        (overtaken.replay.resolve m).sign = (overtaken.resolve m).sign) ∧
      ∀ l ∈ Hierarchy.calendar.levels, overtaken.replay.levelSign l = overtaken.levelSign l :=
  replay_signs overtaken_reached

theorem Grown.settled (grown : t.Grown) (m : Member) : (t.stateOf m).Settled := by
  induction grown with
  | empty => exact nofun
  | @apply t a _ ih =>
    rw [stateOf_apply]
    split
    · exact Inherited.settled_record ih a.sign a.operator
    · exact ih
  | clear _ _ => exact nofun

/-- The member has an explicit sign, but without any explicit sign, its own or that of
its parent's children, it would have the same. -/
@[mk_iff]
structure Overstated (t : SelectionTree) (m : Member) : Prop where
  explicit : (t.resolve m).source = .explicit
  unsigned : (t.stateOf m).descendants = none
  beside : (t.inheritedBy m).childrenSign.sign = (t.inheritedBy m).default.sign
  own : (t.resolve m).sign = (t.inheritedBy m).default.sign

/-- Replay leaves a sign explicit unless it holds anyway. -/
theorem Grown.source_resolve_replay (grown : t.Grown) (m : Member) :
    (t.replay.resolve m).source = .explicit ↔
      (t.resolve m).source = .explicit ∧ ¬ t.Overstated m := by
  have settled := grown.settled m
  have plain := t.default_source_inheritedBy m
  rw [overstated_iff, resolve, resolve, grown.stateOf_replay, grown.inheritedBy_replay]
  generalize t.inheritedBy m = i at *
  generalize t.stateOf m = st at *
  have leanPlain : i.lean.default.source ≠ .explicit := plain
  rw [Inherited.source_memberSign plain, Inherited.source_memberSign leanPlain,
    Inherited.sign_memberSign, Inherited.sign_childrenSign]
  obtain ⟨member, children, _ | d⟩ := st
  · obtain ⟨_ | c, default⟩ := i
    · cases member <;>
        simp [Inherited.reduce, Inherited.lean, Inherited.sign_childrenSign, Option.filter_some]
    · by_cases same : c = default.sign <;> cases member <;>
        simp [Inherited.reduce, Inherited.lean, Inherited.sign_childrenSign, Option.filter_some,
          same]
  · -- a sign of the member itself is not the subtree sign, and so it stays
    cases member with
    | none => simp [Inherited.reduce]
    | some s =>
      have apart : s ≠ d := fun same => (settled d rfl).1 (congrArg some same)
      simp [Inherited.reduce, Option.filter_some, apart]

theorem Grown.isIncluded_replay_iff (grown : t.Grown) (m : Member) :
    t.replay.isIncluded m = t.isIncluded m ↔
      (t.Overstated m → ∀ s, t.levelSign m.level = some s → s = (t.resolve m).sign) := by
  have sign := grown.sign_resolve_replay m
  have source := grown.source_resolve_replay m
  rw [isIncluded, isIncluded, grown.levelSign_replay, Sign.isIncluded_inj]
  by_cases stated : t.Overstated m
  · rw [ResolvedSign.withLevel_of_explicit stated.explicit,
      ResolvedSign.withLevel_of_not_explicit fun yes => (source.mp yes).2 stated, sign]
    cases t.levelSign m.level <;> simp [stated]
  · rw [and_iff_left stated] at source
    refine iff_of_true ?_ fun yes => absurd yes stated
    by_cases explicit : (t.resolve m).source = .explicit
    · rw [ResolvedSign.withLevel_of_explicit explicit,
        ResolvedSign.withLevel_of_explicit (source.mpr explicit), sign]
    · rw [ResolvedSign.withLevel_of_not_explicit explicit,
        ResolvedSign.withLevel_of_not_explicit fun yes => explicit (source.mp yes), sign]

/-- Replay keeps what is included exactly if level-wide signs agree with the explicit
signs that hold anyway. -/
theorem replay_included_iff (reached : t.Reached h) :
    (∀ m ∈ h.members, t.replay.isIncluded m = t.isIncluded m) ↔ ∀ m ∈ h.members,
      t.Overstated m → ∀ s, t.levelSign m.level = some s → s = (t.resolve m).sign :=
  forall₂_congr fun m _ => reached.grown.isIncluded_replay_iff m

theorem replay_included_iff_overtaken :
    (∀ m ∈ Hierarchy.calendar.members, overtaken.replay.isIncluded m = overtaken.isIncluded m) ↔
      ∀ m ∈ Hierarchy.calendar.members, overtaken.Overstated m →
        ∀ s, overtaken.levelSign m.level = some s → s = (overtaken.resolve m).sign :=
  replay_included_iff overtaken_reached

/-- The month is no longer included after replay: its sign is not recorded again, and
so the excluded level prevails. -/
theorem not_replay_included_overtaken :
    Hierarchy.calendar.Built ∧ (Hierarchy.calendar.members.map Member.uniqueName).Nodup ∧
      (Hierarchy.calendar.levels.map Level.uniqueName).Nodup ∧
      overtaken.Reached Hierarchy.calendar ∧
      ¬ ∀ m ∈ Hierarchy.calendar.members, overtaken.replay.isIncluded m = overtaken.isIncluded m := by
  refine ⟨Hierarchy.calendar_built, by decide, by decide, overtaken_reached, fun same => ?_⟩
  exact absurd (same _ Hierarchy.january_mem_calendar) (by decide)

end SelectionTree
end CubeAxis
