import CubeAxis.Proofs.Selection.Scope

namespace CubeAxis
namespace Forest

variable {α : Type} {make : Nat → α} {first second : α → α} {n k : Nat}

theorem upsert_branch (path : List Member) :
    (branch make first path n).upsert make second k path = branch make (second ∘ first) path n := by
  induction path generalizing n with
  | nil => rfl
  | cons m path ih =>
    rcases path with _ | ⟨a, path⟩
    · rw [branch, upsert, if_pos BEq.rfl]
      rfl
    · rw [branch, upsert, if_pos BEq.rfl, ih]
      · rfl
      all_goals exact List.cons_ne_nil a path

/-- The second of two updates of a path finds all nodes there. -/
theorem upsert_upsert (f : Forest α) (path : List Member) :
    (f.upsert make first n path).upsert make second k path =
      f.upsert make (second ∘ first) n path := by
  induction f generalizing path with
  | nil => exact upsert_branch path
  | cons l v children siblings ihBelow ihBeside =>
    rcases path with _ | ⟨m, path⟩
    · rfl
    · rw [upsert, upsert]
      split
      · rename_i here
        split
        · rename_i last
          rw [upsert, if_pos here, if_pos last]
          rfl
        · rename_i further
          rw [upsert, if_pos here, if_neg further, ihBelow]
      · rename_i other
        rw [upsert, if_neg other, ihBeside]

theorem missing_branch (update : α → α) (path : List Member) :
    (branch make update path n).missing path = 0 := by
  induction path generalizing n with
  | nil => rfl
  | cons m path ih =>
    rcases path with _ | ⟨a, path⟩
    · rw [branch, missing, if_pos BEq.rfl]
      rfl
    · rw [branch, missing, if_pos BEq.rfl, ih]
      exact List.cons_ne_nil a path

theorem missing_upsert (f : Forest α) (update : α → α) (path : List Member) :
    (f.upsert make update n path).missing path = 0 := by
  induction f generalizing path with
  | nil => exact missing_branch update path
  | cons l v children siblings ihBelow ihBeside =>
    rcases path with _ | ⟨m, path⟩
    · rfl
    · rw [upsert]
      split
      · rename_i here
        split
        · rename_i last
          obtain rfl := List.isEmpty_iff.mp last
          rw [missing, if_pos here]
          cases children <;> rfl
        · rw [missing, if_pos here, ihBelow]
      · rename_i other
        rw [missing, if_neg other, ihBeside]

end Forest

/-- On the same member an action with this operator leaves nothing of one with the other. -/
def Operator.Absorbs (later earlier : Operator) : Prop :=
  later = earlier ∨ later = .descendants ∨
    later = .memberAndChildren ∧ (earlier = .member ∨ earlier = .children)

/-- The action is on the same level as the other, or on the same member and goes as far. -/
def Selection.Absorbs (later earlier : Selection) : Prop :=
  match earlier.target, later.target with
  | .member k, .member m => k = m ∧ later.operator.Absorbs earlier.operator
  | .level k, .level l => k = l
  | .member _, .level _ | .level _, .member _ => False

/-- What is recorded last replaces what was recorded for it before, or is left out just as if
nothing had been. -/
theorem Inherited.record_record {later earlier : Operator} (absorbs : later.Absorbs earlier)
    (i : Inherited) (st : SelectionState) (s r : Sign) :
    i.record (i.record st r earlier) s later = i.record st s later := by
  rcases absorbs with rfl | rfl | ⟨rfl, rfl | rfl⟩
  · cases later <;> rfl
  · rfl
  · rfl
  · rfl

namespace SelectionTree

variable {t u : SelectionTree} {a b : Selection} {m : Member}

/-- Two trees have the same nodes, with the same numbers and states, the same signs of levels
and the same list of actions. -/
structure SameRecords (t u : SelectionTree) : Prop where
  preorder : t.preorder = u.preorder
  site : ∀ id, t.site? id = u.site? id
  levelSign : ∀ l, t.levelSign l = u.levelSign l
  selections : t.selections = u.selections

theorem SameRecords.refl (t : SelectionTree) : t.SameRecords t :=
  ⟨rfl, fun _ => rfl, fun _ => rfl, rfl⟩

theorem applyMember_applyMember {later earlier : Operator} (absorbs : later.Absorbs earlier)
    (t : SelectionTree) (s r : Sign) (m : Member) :
    (t.applyMember r earlier m).applyMember s later m = t.applyMember s later m := by
  have handed : (t.applyMember r earlier m).inheritedBy m = t.inheritedBy m :=
    t.inheritedBy_onMember r earlier m
  generalize before : t.applyMember r earlier m = u at handed
  rw [applyMember, applyMember, handed, ← before, applyMember]
  simp only [Forest.upsert_upsert, Forest.missing_upsert, Function.comp_def,
    Inherited.record_record absorbs, Nat.add_zero]

theorem Numbered.lt_of_mem_numberedSelections (numbered : t.Numbered) {n : Nat}
    (listed : (n, a) ∈ t.numberedSelections) : n < t.nextSequence := by
  refine numbered.used n (List.mem_append.mpr ?_)
  rcases mem_numberedSelections.mp listed with ⟨m, o, node, rfl, -⟩ | ⟨o, level, rfl, -⟩
  · exact Or.inl (List.mem_map_of_mem node)
  · exact Or.inr (List.mem_map_of_mem level)

/-- The tree without a sign on a level. -/
def withoutLevel (t : SelectionTree) (l : Level) : SelectionTree :=
  { t with levels := t.levels.filter fun o => !(o.level == l) }

theorem numberedSelections_withoutLevel (t : SelectionTree) (l : Level) :
    (t.withoutLevel l).numberedSelections ⊆ t.numberedSelections :=
  List.append_subset.mpr ⟨List.subset_append_left _ _,
    List.Subset.trans (List.map_subset _ (List.filter_subset_self _))
      (List.subset_append_right _ _)⟩

/-- The action on a level is the last one listed. -/
theorem Numbered.selections_applyLevel (numbered : t.Numbered) (s : Sign) (l : Level) :
    (t.applyLevel s l).selections = (t.withoutLevel l).selections ++ [.onLevel s l] := by
  have parts : (t.applyLevel s l).numberedSelections =
      (t.withoutLevel l).numberedSelections ++ [(t.nextSequence, .onLevel s l)] := by
    rw [numberedSelections, SelectionTree.applyLevel, List.map_append, ← List.append_assoc]
    rfl
  have last : ∀ p ∈ (t.withoutLevel l).numberedSelections, p.1 ≤ t.nextSequence := by
    intro p listed
    have before := t.numberedSelections_withoutLevel l listed
    exact Nat.le_of_lt (numbered.lt_of_mem_numberedSelections before)
  rw [selections, parts, sortBy_concat last, List.map_append]
  rfl

/-- A new sign on a level is gone with the level. -/
theorem selections_withoutLevel_applyLevel (t : SelectionTree) (s : Sign) (l : Level) :
    ((t.applyLevel s l).withoutLevel l).selections = (t.withoutLevel l).selections := by
  have others : ((t.applyLevel s l).withoutLevel l).levels = (t.withoutLevel l).levels := by
    simp [applyLevel, withoutLevel, List.filter_append]
  rw [selections, numberedSelections, others]
  rfl

theorem Numbered.sameRecords_applyLevel (numbered : t.Numbered) (s r : Sign) (l : Level) :
    ((t.applyLevel r l).applyLevel s l).SameRecords (t.applyLevel s l) where
  preorder := rfl
  site _ := rfl
  levelSign k := by
    have sign (u : SelectionTree) (s : Sign) :
        (u.applyLevel s l).levelSign k = if k == l then some s else u.levelSign k :=
      u.levelSign_onLevel s l k
    rw [sign, sign, sign]
    split <;> rfl
  selections := by
    rw [(numbered.applyLevel r l).selections_applyLevel, numbered.selections_applyLevel,
      selections_withoutLevel_applyLevel]

/-- A later action that goes as far leaves no trace of an earlier one. -/
theorem apply_apply_of_absorbs (grown : t.Grown) (absorbs : b.Absorbs a) :
    ((t.apply a).apply b).SameRecords (t.apply b) := by
  obtain ⟨r, earlier, k | k⟩ := a <;> obtain ⟨s, later, m | l⟩ := b
  · obtain ⟨rfl, further⟩ := absorbs
    change ((t.applyMember r earlier k).applyMember s later k).SameRecords (t.applyMember s later k)
    rw [applyMember_applyMember further]
    exact .refl _
  · exact absurd absorbs id
  · exact absurd absorbs id
  · obtain rfl : k = l := absorbs
    exact grown.numbered.sameRecords_applyLevel s r k

theorem apply_apply_of_absorbs_overtaken :
    ((overtaken.apply (.onMember .excluded .member .january)).apply
        (.onMember .included .memberAndChildren .january)).SameRecords
      (overtaken.apply (.onMember .included .memberAndChildren .january)) ∧
    ((overtaken.apply (.onLevel .included ⟨"Time", "Year", 0⟩)).apply
        (.onLevel .excluded ⟨"Time", "Year", 0⟩)).SameRecords
      (overtaken.apply (.onLevel .excluded ⟨"Time", "Year", 0⟩)) :=
  ⟨apply_apply_of_absorbs overtaken_reached.grown ⟨rfl, Or.inr (Or.inr ⟨rfl, Or.inl rfl⟩)⟩,
    apply_apply_of_absorbs overtaken_reached.grown rfl⟩

end SelectionTree
end CubeAxis
