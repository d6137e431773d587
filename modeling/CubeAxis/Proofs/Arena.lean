import CubeAxis.Arena.Slots
import Mathlib.Data.List.Basic

namespace CubeAxis
namespace Arena

variable {σ ι α : Type} [Arena σ ι α] {a b : σ} {i j : ι} {given later : List ι}

/-- The stores that `a` leads to, with the indices that are given out on the way. -/
inductive Leads (a : σ) : List ι → σ → Prop
  | refl : Leads a [] a
  | insert {given : List ι} {b : σ} (v : α) : Leads a given b →
      Leads a ((Arena.insert b v).1 :: given) (Arena.insert b v).2
  | modify {given : List ι} {b : σ} (i : ι) (change : α → α) : Leads a given b →
      Leads a given (Arena.modify b i change)
  | remove {given : List ι} {b : σ} (i : ι) : Leads a given b →
      Leads a given (Arena.remove b i).2

/-- What is relied on: an index that is given out differs from all that were given out before,
and a removal does away with the index that it is asked for and with no other. -/
class Lawful (σ : Type) {ι α : outParam Type} [Arena σ ι α] [DecidableEq ι] : Prop where
  get?_empty (i : ι) : get? (empty : σ) i = none
  insert_fresh {given : List ι} {a : σ} : Leads empty given a → ∀ v, (insert a v).1 ∉ given
  get?_insert {given : List ι} {a : σ} : Leads empty given a → ∀ v i,
    get? (insert a v).2 i = if i = (insert a v).1 then some v else get? a i
  get?_modify (a : σ) (i j : ι) (change : α → α) :
    get? (modify a i change) j = if j = i then (get? a j).map change else get? a j
  remove_fst (a : σ) (i : ι) : (remove a i).1 = get? a i
  get?_remove (a : σ) (i j : ι) : get? (remove a i).2 j = if j = i then none else get? a j
  size_empty : size (empty : σ) = 0
  size_insert {given : List ι} {a : σ} : Leads empty given a → ∀ v,
    size (insert a v).2 = size a + 1
  size_modify (a : σ) (i : ι) (change : α → α) : size (modify a i change) = size a

theorem Leads.trans (first : Leads a given b) {c : σ} (second : Leads b later c) :
    Leads a (later ++ given) c := by
  induction second with
  | refl => exact first
  | insert v _ ih => exact .insert v ih
  | modify i change _ ih => exact .modify i change ih
  | remove i _ ih => exact .remove i ih

variable [DecidableEq ι] [Lawful σ]

/-- Only what was given out is there. -/
theorem Leads.mem_given (run : Leads (empty : σ) given a) (live : (get? a i).isSome) :
    i ∈ given := by
  induction run with
  | refl =>
    rw [Lawful.get?_empty] at live
    cases live
  | insert v run ih =>
    rw [Lawful.get?_insert run] at live
    split at live
    · rename_i new
      exact List.mem_cons.mpr (Or.inl new)
    · exact List.mem_cons_of_mem _ (ih live)
  | modify j change _ ih =>
    rw [Lawful.get?_modify] at live
    split at live
    · exact ih (by rwa [Option.isSome_map] at live)
    · exact ih live
  | remove j _ ih =>
    rw [Lawful.get?_remove] at live
    split at live
    · cases live
    · exact ih live

/-- An index that was given out and is gone stays gone. -/
theorem Leads.get?_eq_none (run : Leads (empty : σ) given a) (known : i ∈ given)
    (gone : get? a i = none) (further : Leads a later b) : get? b i = none := by
  induction further with
  | refl => exact gone
  | insert v before ih =>
    have fresh := Lawful.insert_fresh (run.trans before) v
    rw [Lawful.get?_insert (run.trans before), if_neg, ih]
    rintro rfl
    exact fresh (List.mem_append_right _ known)
  | modify j change _ ih =>
    rw [Lawful.get?_modify, ih]
    split <;> rfl
  | remove j _ ih =>
    rw [Lawful.get?_remove, ih, ite_self]

end Arena
end CubeAxis
