import CubeAxis.Selection.Drawing
import CubeAxis.Selection.SignSets
import Mathlib.Tactic.Tauto

namespace CubeAxis

namespace SelectionState

variable {st : SelectionState} {s : Sign} {op : Operator}

/-- The operators that have the sign. -/
def having (st : SelectionState) (s : Sign) : Std.ExtTreeSet Operator :=
  .ofList (Operator.all.filter fun op => st.sign op = some s)

/-- The state with its signs as two sets. -/
def toSets (st : SelectionState) : SignSets :=
  ⟨st.having .included, st.having .excluded⟩

@[simp]
theorem mem_having : op ∈ st.having s ↔ st.sign op = some s := by
  have listed : op ∈ Operator.all := by cases op <;> decide
  simp [having, Std.ExtTreeSet.mem_ofList, listed]

end SelectionState

namespace SignSets

variable {a b : SignSets} {st : SelectionState} {s : Sign} {op : Operator}

theorem ext_mem (included : ∀ op, op ∈ a.included ↔ op ∈ b.included)
    (excluded : ∀ op, op ∈ a.excluded ↔ op ∈ b.excluded) : a = b := by
  obtain ⟨i, e⟩ := a
  obtain ⟨j, f⟩ := b
  obtain rfl : i = j := Std.ExtTreeSet.ext_mem included
  obtain rfl : e = f := Std.ExtTreeSet.ext_mem excluded
  rfl

theorem sign_toSets (st : SelectionState) (op : Operator) : st.toSets.sign op = st.sign op := by
  have included : st.toSets.included.contains op = decide (st.sign op = some .included) := by
    rw [Bool.eq_iff_iff, Std.ExtTreeSet.contains_iff_mem, decide_eq_true_iff]
    exact SelectionState.mem_having
  have excluded : st.toSets.excluded.contains op = decide (st.sign op = some .excluded) := by
    rw [Bool.eq_iff_iff, Std.ExtTreeSet.contains_iff_mem, decide_eq_true_iff]
    exact SelectionState.mem_having
  rw [sign, included, excluded]
  rcases st.sign op with _ | _ | _ <;> rfl

theorem toSets_empty : ({} : SelectionState).toSets = {} := by
  refine ext_mem (fun op => ?_) (fun op => ?_) <;>
    cases op <;> simp [SelectionState.toSets, SelectionState.sign]

theorem mem_included_record {k : Operator} {inherited : Option Sign} :
    k ∈ (a.record s op inherited).included ↔ op ≠ k ∧ k ∈ a.included ∨
      op = k ∧ (a.sign .descendants).or inherited ≠ some s ∧ s = .included := by
  rw [record]
  split <;> cases s <;>
    simp_all [insert, Std.ExtTreeSet.mem_insert, Std.ExtTreeSet.mem_erase]
  tauto

theorem mem_excluded_record {k : Operator} {inherited : Option Sign} :
    k ∈ (a.record s op inherited).excluded ↔ op ≠ k ∧ k ∈ a.excluded ∨
      op = k ∧ (a.sign .descendants).or inherited ≠ some s ∧ s = .excluded := by
  rw [record]
  split <;> cases s <;>
    simp_all [insert, Std.ExtTreeSet.mem_insert, Std.ExtTreeSet.mem_erase]
  tauto

theorem record_member_toSets (st : SelectionState) (s : Sign) (inherited : Option Sign) :
    st.toSets.record s .member inherited =
      { st with member := st.recorded s inherited }.toSets := by
  refine ext_mem (fun k => ?_) (fun k => ?_)
  · rw [mem_included_record, sign_toSets]
    cases k <;> simp [SelectionState.toSets, SelectionState.sign, SelectionState.recorded]
  · rw [mem_excluded_record, sign_toSets]
    cases k <;> simp [SelectionState.toSets, SelectionState.sign, SelectionState.recorded]

theorem record_children_toSets (st : SelectionState) (s : Sign) (inherited : Option Sign) :
    st.toSets.record s .children inherited =
      { st with children := st.recorded s inherited }.toSets := by
  refine ext_mem (fun k => ?_) (fun k => ?_)
  · rw [mem_included_record, sign_toSets]
    cases k <;> simp [SelectionState.toSets, SelectionState.sign, SelectionState.recorded]
  · rw [mem_excluded_record, sign_toSets]
    cases k <;> simp [SelectionState.toSets, SelectionState.sign, SelectionState.recorded]

/-- What is recorded in two sets is what is recorded for each operator that has a sign. -/
theorem apply_toSets (st : SelectionState) (s : Sign) (op : Operator) (inherited : Option Sign) :
    st.toSets.apply s op inherited = (st.apply s op inherited).toSets := by
  cases op with
  | member => exact record_member_toSets st s inherited
  | children => exact record_children_toSets st s inherited
  | memberAndChildren =>
    rw [apply, record_member_toSets, record_children_toSets]
    rfl
  | descendants =>
    refine ext_mem (fun k => ?_) (fun k => ?_) <;> cases s <;> cases k <;>
      simp [apply, insert, SelectionState.toSets, SelectionState.sign, SelectionState.apply,
        SelectionState.withDescendants, Std.ExtTreeSet.mem_insert]
  | ancestors => rfl
  | siblings => rfl

theorem withDescendants_eq (s : Sign) :
    withDescendants s = (SelectionState.withDescendants s).toSets := by
  rw [withDescendants, ← toSets_empty, apply_toSets]
  rfl

theorem selections_toSets (st : SelectionState) (m : Member) :
    st.toSets.selections m = st.selections m := by
  simp only [selections, sign_toSets]
  rfl

theorem caption_toSets (st : SelectionState) (name : String) :
    st.toSets.caption name = st.caption name := by
  simp only [caption, sign_toSets]
  rfl

end SignSets
end CubeAxis
