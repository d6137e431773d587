import CubeAxis.Proofs.Drill.Record

namespace CubeAxis

/-- Extensions of a path equal each other as far as what they add does. -/
theorem Member.append_beq_append_iff {path p q : List Member} :
    (path ++ p == path ++ q) = true ↔ (p == q) = true := by
  simp only [list_beq_iff, List.map_append, List.append_cancel_left_eq]

namespace Forest

variable {α : Type} {f : Forest α} {enter : List Member → Member → Bool}
  {path p q : List Member} {m : Member} {v : α}

/-- What is found below a first member hangs from a top node of that name. -/
theorem exists_label_of_value? (found : f.value? (m :: p) = some v) :
    ∃ l ∈ f.labels, (l == m) = true := by
  induction f with
  | nil => cases found
  | cons k w children siblings _ ihBeside =>
    rw [value?_cons] at found
    split at found
    · rename_i here
      exact ⟨k, List.mem_cons_self, here⟩
    · obtain ⟨l, label, same⟩ := ihBeside found
      exact ⟨l, List.mem_cons_of_mem _ label, same⟩

theorem mem_visit_cons {children siblings : Forest α} {node : List Member × α} :
    node ∈ (cons m v children siblings).visit enter path ↔
      (enter path m = true ∧
        (node = (path ++ [m], v) ∨ node ∈ children.visit enter (path ++ [m]))) ∨
      node ∈ siblings.visit enter path := by
  rw [visit, List.mem_append, List.mem_ite_nil_right, List.mem_cons]

/-- Where siblings differ by name, a traversal meets each node with the path that
leads to it. -/
theorem Apart.value?_of_mem_visit (apart : f.Apart) (met : (q, v) ∈ f.visit enter path) :
    ∃ m p, q = path ++ m :: p ∧ f.value? (m :: p) = some v := by
  induction f generalizing path with
  | nil => exact absurd met List.not_mem_nil
  | cons k w children siblings ihBelow ihBeside =>
    obtain ⟨different, below, beside⟩ := apart
    rcases mem_visit_cons.mp met with ⟨_, node | lower⟩ | later
    · cases node
      exact ⟨k, [], rfl, by simp [value?_cons]⟩
    · obtain ⟨m, p, rfl, found⟩ := ihBelow below lower
      exact ⟨k, m :: p, by simp, by simpa [value?_cons] using found⟩
    · obtain ⟨m, p, rfl, found⟩ := ihBeside beside later
      refine ⟨m, p, rfl, ?_⟩
      obtain ⟨l, label, same⟩ := exists_label_of_value? found
      rw [value?_cons, ← BEq.congr_right same, different l label, if_neg Bool.false_ne_true, found]

/-- No path is met twice, not even under another spelling of its members. -/
theorem Apart.pairwise_visit (apart : f.Apart) (enter : List Member → Member → Bool)
    (path : List Member) :
    (f.visit enter path).Pairwise fun a b => (a.1 == b.1) = false := by
  induction f generalizing path with
  | nil => exact .nil
  | cons k w children siblings ihBelow ihBeside =>
    obtain ⟨different, below, beside⟩ := apart
    rw [visit]
    refine List.pairwise_append.mpr ⟨?_, ihBeside beside path, ?_⟩
    · split
      · refine List.pairwise_cons.mpr ⟨?_, ihBelow below _⟩
        rintro ⟨q, v⟩ lower
        obtain ⟨m, p, rfl, _⟩ := below.value?_of_mem_visit lower
        refine Bool.eq_false_iff.mpr fun same => ?_
        have lengths := List.length_eq_of_beq same
        simp at lengths
      · exact .nil
    · -- all that is met first starts with `k`, what is met later with a sibling
      have front : ∀ node ∈ (if enter path k then (path ++ [k], w) ::
          children.visit enter (path ++ [k]) else []), ∃ p, node.1 = path ++ k :: p := by
        intro node first
        rw [List.mem_ite_nil_right, List.mem_cons] at first
        rcases first with ⟨_, rfl | lower⟩
        · exact ⟨[], rfl⟩
        · obtain ⟨m, p, whole, _⟩ := below.value?_of_mem_visit (v := node.2) lower
          exact ⟨m :: p, by rw [whole, List.append_assoc]; rfl⟩
      rintro node first ⟨q, v⟩ later
      obtain ⟨p, start⟩ := front node first
      obtain ⟨m, r, rfl, found⟩ := beside.value?_of_mem_visit later
      obtain ⟨l, label, named⟩ := exists_label_of_value? found
      refine Bool.eq_false_iff.mpr fun same => ?_
      rw [start, Member.append_beq_append_iff, List.cons_beq_cons, Bool.and_eq_true,
        ← BEq.congr_right named, different l label] at same
      exact Bool.false_ne_true same.1

/-- A traversal that enters everything meets every node. -/
theorem exists_mem_visit (found : f.value? p = some v) (path : List Member) :
    ∃ q, (q == p) = true ∧ (path ++ q, v) ∈ f.visit (fun _ _ => true) path := by
  induction f generalizing path p with
  | nil => cases found
  | cons k w children siblings ihBelow ihBeside =>
    rcases p with _ | ⟨m, p⟩
    · cases found
    · rw [value?_cons] at found
      split at found
      · rename_i here
        split at found
        · rename_i empty
          obtain rfl := List.isEmpty_iff.mp empty
          cases found
          refine ⟨[k], by simp [here], ?_⟩
          exact mem_visit_cons.mpr (Or.inl ⟨rfl, Or.inl rfl⟩)
        · obtain ⟨q, same, met⟩ := ihBelow found (path ++ [k])
          refine ⟨k :: q, by simp [here, same], ?_⟩
          rw [List.append_assoc] at met
          exact mem_visit_cons.mpr (Or.inl ⟨rfl, Or.inr met⟩)
      · obtain ⟨q, same, met⟩ := ihBeside found path
        exact ⟨q, same, mem_visit_cons.mpr (Or.inr met)⟩

end Forest

namespace DrillTree

variable {t : DrillTree} {enter : List Member → Member → Bool} {path q : List Member}
  {ms : List Member}

/-- A node is met with the members that continue its path. -/
theorem drilledAt_of_mem_visit (apart : t.below.Apart) (met : (q, ms) ∈ t.visit enter) :
    t.drilledAt q = ms := by
  rcases List.mem_cons.mp met with top | lower
  · cases top
    rfl
  · obtain ⟨m, p, rfl, found⟩ := apart.value?_of_mem_visit lower
    change (t.below.value? (m :: p)).getD [] = ms
    rw [found]
    rfl

theorem pairwise_visit (apart : t.below.Apart) (enter : List Member → Member → Bool) :
    (t.visit enter).Pairwise fun a b => (a.1 == b.1) = false := by
  refine List.pairwise_cons.mpr ⟨?_, apart.pairwise_visit enter []⟩
  rintro ⟨q, v⟩ lower
  obtain ⟨m, p, rfl, _⟩ := apart.value?_of_mem_visit lower
  rfl

/-- A full traversal meets every path that is continued. -/
theorem exists_mem_visit (any : t.drilledAt path ≠ []) :
    ∃ q, (q == path) = true ∧ (q, t.drilledAt path) ∈ t.visit fun _ _ => true := by
  rcases path with _ | ⟨a, path⟩
  · exact ⟨[], rfl, List.mem_cons_self⟩
  · cases found : t.below.value? (a :: path) with
    | none =>
      have bare : t.drilledAt (a :: path) = [] := by
        change (t.below.value? (a :: path)).getD [] = []
        rw [found]
        rfl
      exact absurd bare any
    | some ms =>
      have listed : t.drilledAt (a :: path) = ms := by
        change (t.below.value? (a :: path)).getD [] = ms
        rw [found]
        rfl
      obtain ⟨q, same, met⟩ := Forest.exists_mem_visit found []
      rw [listed]
      exact ⟨q, same, List.mem_cons_of_mem _ met⟩

end DrillTree
end CubeAxis
