import CubeAxis.Proofs.Drill.Trie

namespace CubeAxis
namespace Forest

variable {f : Forest (List Member)} {p path : List Member} {change : List Member → List Member}

theorem getD_value?_upsert (any : p ≠ []) (n : Nat) :
    ((f.upsert (fun _ => []) change n path).value? p).getD [] =
      if p == path then change ((f.value? p).getD []) else (f.value? p).getD [] := by
  rw [beq_eq_isPrefixOf_and_length]
  cases on : p.isPrefixOf path with
  | false =>
    rw [Forest.value?_upsert_of_not_prefix on]
    rfl
  | true =>
    rw [Forest.value?_upsert_of_prefix any on, Option.getD_some, Bool.true_and]
    by_cases whole : p.length = path.length <;> simp [whole]

theorem getD_value?_adjust (any : path ≠ []) (bare : change [] = []) :
    ((f.adjust change path).value? p).getD [] =
      if p == path then change ((f.value? p).getD []) else (f.value? p).getD [] := by
  rw [value?_adjust any]
  split
  · cases f.value? p with
    | none => exact bare.symm
    | some ms => rfl
  · rfl

theorem getD_value?_prune (f : Forest (List Member)) (depth : Nat) (p : List Member) :
    ((f.prune depth).value? p).getD [] = if p.length ≤ depth then (f.value? p).getD [] else [] := by
  induction f generalizing depth p with
  | nil => cases depth <;> simp [Forest.prune, value?, find?]
  | cons k v children siblings ihBelow ihBeside =>
    rcases p with _ | ⟨a, p⟩
    · simp [value?_nil]
    · cases depth with
      | zero =>
        have beside := ihBeside 0 (a :: p)
        rw [Forest.prune, value?_cons]
        split
        · split <;> simp [value?, find?]
        · simpa using beside
      | succ depth =>
        rw [Forest.prune, value?_cons, value?_cons]
        split
        · rcases p with _ | ⟨b, p⟩
          · simp
          · simpa using ihBelow depth (b :: p)
        · exact ihBeside (depth + 1) (a :: p)

theorem getD_value?_clearLevel (f : Forest (List Member)) (depth : Nat) (p : List Member) :
    ((f.clearLevel depth).value? p).getD [] =
      if p.length = depth + 1 then [] else (f.value? p).getD [] := by
  induction f generalizing depth p with
  | nil => cases depth <;> simp [Forest.clearLevel, value?, find?]
  | cons k v children siblings ihBelow ihBeside =>
    rcases p with _ | ⟨a, p⟩
    · simp [value?_nil]
    · cases depth with
      | zero =>
        rw [Forest.clearLevel, value?_cons, value?_cons]
        split
        · rcases p with _ | ⟨b, p⟩ <;> simp
        · exact ihBeside 0 (a :: p)
      | succ depth =>
        rw [Forest.clearLevel, value?_cons, value?_cons]
        split
        · rcases p with _ | ⟨b, p⟩
          · simp
          · simpa using ihBelow depth (b :: p)
        · exact ihBeside (depth + 1) (a :: p)

theorem Apart.prune (apart : f.Apart) (depth : Nat) : (f.prune depth).Apart := by
  rw [prune_eq_atDepth]
  refine apart.atDepth (fun _ _ _ => ?_) depth
  trivial

theorem Apart.clearLevel (apart : f.Apart) (depth : Nat) : (f.clearLevel depth).Apart := by
  rw [clearLevel_eq_atDepth]
  exact apart.atDepth (fun _ _ => id) depth

end Forest

namespace DrillTree

variable {t : DrillTree} {path q : List Member} {change : List Member → List Member}

/-- What continues a path depends on the names along it. -/
theorem drilledAt_congr (t : DrillTree) (same : (q == path) = true) :
    t.drilledAt q = t.drilledAt path := by
  have names := Member.list_beq_iff.mp same
  have empty : q.isEmpty = path.isEmpty := by
    rw [← List.isEmpty_map (f := Member.uniqueName), names, List.isEmpty_map]
  rw [drilledAt, drilledAt, empty, Forest.value?_congr names]

theorem drilledAt_upsertAt (t : DrillTree) (path : List Member)
    (change : List Member → List Member) (q : List Member) :
    (t.upsertAt path change).drilledAt q =
      if q == path then change (t.drilledAt q) else t.drilledAt q := by
  unfold upsertAt drilledAt
  rcases path with _ | ⟨a, path⟩ <;> rcases q with _ | ⟨b, q⟩
  · rfl
  · rfl
  · rfl
  · exact Forest.getD_value?_upsert (List.cons_ne_nil b q) 0

/-- A change that leaves the empty list as it is reaches nothing but its path. -/
theorem drilledAt_adjustAt (t : DrillTree) (path : List Member) (bare : change [] = [])
    (q : List Member) : (t.adjustAt path change).drilledAt q =
      if q == path then change (t.drilledAt q) else t.drilledAt q := by
  unfold adjustAt drilledAt
  rcases path with _ | ⟨a, path⟩ <;> rcases q with _ | ⟨b, q⟩
  · rfl
  · rfl
  · rfl
  · exact Forest.getD_value?_adjust (List.cons_ne_nil a path) bare

theorem drilledAt_add (t : DrillTree) (path : List Member) (m : Member) (q : List Member) :
    (t.add (path ++ [m])).drilledAt q =
      if q == path then insertNew (t.drilledAt q) m else t.drilledAt q := by
  rw [add, List.getLast?_concat, List.dropLast_concat]
  exact t.drilledAt_upsertAt path _ q

theorem drilledAt_remove (t : DrillTree) (path : List Member) (m : Member) (q : List Member) :
    (t.remove (path ++ [m])).drilledAt q =
      if q == path then (t.drilledAt q).filter (fun k => !(k == m)) else t.drilledAt q := by
  rw [remove, List.getLast?_concat, List.dropLast_concat]
  exact t.drilledAt_adjustAt path rfl q

theorem drilledAt_prune (t : DrillTree) (depth : Nat) (q : List Member) :
    (t.prune depth).drilledAt q = if q.length < depth then t.drilledAt q else [] := by
  cases depth with
  | zero => cases q <;> rfl
  | succ depth =>
    rcases q with _ | ⟨b, q⟩
    · simp [drilledAt, prune]
    · have below := t.below.getD_value?_prune depth (b :: q)
      simpa [drilledAt, prune, Nat.lt_succ_iff] using below

theorem drilledAt_clearLevel (t : DrillTree) (depth : Nat) (q : List Member) :
    (t.clearLevel depth).drilledAt q = if q.length = depth then [] else t.drilledAt q := by
  cases depth with
  | zero => cases q <;> rfl
  | succ depth =>
    rcases q with _ | ⟨b, q⟩
    · simp [drilledAt, clearLevel]
    · have below := t.below.getD_value?_clearLevel depth (b :: q)
      simpa [drilledAt, clearLevel] using below

theorem apart_upsertAt (apart : t.below.Apart) (path : List Member)
    (change : List Member → List Member) : (t.upsertAt path change).below.Apart := by
  unfold upsertAt
  split
  · exact apart
  · exact apart.upsert

theorem apart_adjustAt (apart : t.below.Apart) (path : List Member)
    (change : List Member → List Member) : (t.adjustAt path change).below.Apart := by
  unfold adjustAt
  split
  · exact apart
  · exact apart.adjust change path

theorem apart_prune (apart : t.below.Apart) (depth : Nat) : (t.prune depth).below.Apart := by
  cases depth with
  | zero => trivial
  | succ depth => exact Forest.Apart.prune apart depth

theorem apart_clearLevel (apart : t.below.Apart) (depth : Nat) :
    (t.clearLevel depth).below.Apart := by
  cases depth with
  | zero => exact apart
  | succ depth => exact Forest.Apart.clearLevel apart depth

end DrillTree
end CubeAxis
