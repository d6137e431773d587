import CubeAxis.Proofs.Hierarchy
import CubeAxis.Resolution.Pool

namespace CubeAxis.Pool

variable {h : Hierarchy} {p : Pool} {keep test : Member → Bool} {m : Member}

/-- Members that a sieve lets through are taken out before or after sifting alike. -/
theorem takeWhere_filter (through : ∀ k ∈ p, test k = true → keep k = true) :
    takeWhere (p.filter keep) test =
      ((p.takeWhere test).1, (p.takeWhere test).2.filter keep) := by
  simp only [takeWhere, List.filter_filter, Prod.mk.injEq]
  refine ⟨List.filter_congr fun k mem => ?_, List.filter_congr fun k _ => Bool.and_comm _ _⟩
  cases passed : test k with
  | false => rfl
  | true => rw [through k mem passed, Bool.and_self]

theorem take_filter (regular : h.Regular) (known : ∀ k ∈ p, k ∈ h.members)
    (inside : m ∈ h.members) (through : keep m = true) :
    take (p.filter keep) m = ((p.take m).1, (p.take m).2.filter keep) := by
  simp only [take, Prod.mk.injEq]
  induction p with
  | nil => exact ⟨rfl, rfl⟩
  | cons k p ih =>
    obtain ⟨found, left⟩ := ih fun l mem => known l (List.mem_cons_of_mem _ mem)
    by_cases same : (k == m) = true
    · have kept : keep k = true := by
        rwa [(regular.beq_iff (known k List.mem_cons_self) inside).mp same]
      rw [List.filter_cons_of_pos kept]
      simp [List.contains_cons, List.erase_cons, BEq.symm same, same]
    · have other : (m == k) = false := Bool.eq_false_iff.mpr fun yes => same (BEq.symm yes)
      by_cases kept : keep k = true
      · simp [List.contains_cons, other, same, kept, found, left]
      · simp [List.contains_cons, other, same, kept, found, left]

/-- Where no position is recorded twice, taking a member leaves those with other names. -/
theorem erase_eq_filter (regular : h.Regular) (once : p.Nodup) (known : ∀ k ∈ p, k ∈ h.members)
    (inside : m ∈ h.members) : p.erase m = p.filter fun k => !(k == m) := by
  induction p with
  | nil => rfl
  | cons k p ih =>
    obtain ⟨fresh, later⟩ := List.nodup_cons.mp once
    have knownLater : ∀ l ∈ p, l ∈ h.members := fun l mem => known l (List.mem_cons_of_mem _ mem)
    by_cases same : (k == m) = true
    · rw [List.erase_cons, if_pos same, List.filter_cons_of_neg (by simp [same]), eq_comm,
        List.filter_eq_self]
      intro l mem
      obtain rfl := (regular.beq_iff (known k List.mem_cons_self) inside).mp same
      rw [Bool.not_eq_true', ← Bool.not_eq_true, regular.beq_iff (knownLater l mem) inside]
      rintro rfl
      exact fresh mem
    · rw [List.erase_cons, if_neg same, List.filter_cons_of_pos (by simpa using same),
        ih later knownLater]

end CubeAxis.Pool
