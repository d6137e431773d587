namespace CubeAxis

/-- A store of values under indices that it gives out itself. -/
class Arena (σ : Type) (ι α : outParam Type) where
  empty : σ
  insert : σ → α → ι × σ
  get? : σ → ι → Option α
  modify : σ → ι → (α → α) → σ
  remove : σ → ι → Option α × σ
  /-- Number of values. -/
  size : σ → Nat
  /-- What is taken out is no longer counted. -/
  size_remove (a : σ) (i : ι) : size a = size (remove a i).2 + (remove a i).1.toList.length

namespace Arena

variable {σ ι α : Type} [Arena σ ι α] {a : σ} {i : ι} {v : α}

theorem size_remove_of_none (gone : (remove a i).1 = none) : size (remove a i).2 = size a := by
  have counted := size_remove a i
  rwa [gone, eq_comm] at counted

theorem size_remove_lt (taken : (remove a i).1 = some v) : size (remove a i).2 < size a := by
  have counted := size_remove a i
  rw [taken] at counted
  exact counted ▸ Nat.lt_succ_self _

end Arena
end CubeAxis
