import CubeAxis.Distinct

namespace CubeAxis

variable {α β : Type} [BEq α] [BEq β]

/-- Equality of entries is what equality tells apart. -/
def Discrete (s : α → Prop) : Prop :=
  ∀ a b, s a → s b → (a == b) = true → a = b

theorem Discrete.contains_iff [ReflBEq α] {s : α → Prop} (discrete : Discrete s) {as : List α}
    {a : α} (all : ∀ b ∈ as, s b) (inside : s a) : as.contains a = true ↔ a ∈ as := by
  rw [List.contains_iff_exists_mem_beq]
  constructor
  · intro given
    obtain ⟨b, mem, same⟩ := given
    rwa [discrete a b inside (all b mem) same]
  · exact fun mem => ⟨a, mem, BEq.rfl⟩

theorem mem_of_mem_distinct {as : List α} {a : α} (mem : a ∈ distinct as) : a ∈ as := by
  induction as with
  | nil => exact mem
  | cons b as ih =>
    rcases List.mem_cons.mp mem with rfl | tail
    · exact List.mem_cons_self
    · exact List.mem_cons_of_mem _ (ih (List.mem_filter.mp tail).1)

/-- An entry that stays in the whole stays in the part it is from. -/
theorem mem_of_mem_distinct_append {as bs : List α} {a : α} (mem : a ∈ distinct (as ++ bs)) :
    a ∈ distinct as ∨ a ∈ distinct bs := by
  induction as with
  | nil => exact Or.inr mem
  | cons b as ih =>
    rcases List.mem_cons.mp mem with rfl | later
    · exact Or.inl List.mem_cons_self
    · obtain ⟨kept, apart⟩ := List.mem_filter.mp later
      exact (ih kept).imp_left fun first => List.mem_cons_of_mem _ (List.mem_filter.mpr ⟨first, apart⟩)

theorem exists_of_mem_distinct_flatMap {γ : Type} {f : γ → List α} {cs : List γ} {a : α}
    (mem : a ∈ distinct (cs.flatMap f)) : ∃ c ∈ cs, a ∈ distinct (f c) := by
  induction cs with
  | nil => exact absurd mem List.not_mem_nil
  | cons c cs ih =>
    rcases mem_of_mem_distinct_append mem with first | later
    · exact ⟨c, List.mem_cons_self, first⟩
    · obtain ⟨k, listed, inside⟩ := ih later
      exact ⟨k, List.mem_cons_of_mem _ listed, inside⟩

theorem Discrete.mem_distinct {s : α → Prop} (discrete : Discrete s) {as : List α} {a : α}
    (all : ∀ b ∈ as, s b) : a ∈ distinct as ↔ a ∈ as := by
  refine ⟨mem_of_mem_distinct, fun mem => ?_⟩
  induction as with
  | nil => exact mem
  | cons b as ih =>
    by_cases same : (b == a) = true
    · rw [discrete b a (all b List.mem_cons_self) (all a mem) same]
      exact List.mem_cons_self
    · rcases List.mem_cons.mp mem with rfl | tail
      · exact List.mem_cons_self
      · refine List.mem_cons_of_mem _ (List.mem_filter.mpr ⟨?_, by simpa using same⟩)
        exact ih (fun c inside => all c (List.mem_cons_of_mem _ inside)) tail

theorem discrete_distinct [PartialEquivBEq α] (as : List α) : Discrete (· ∈ distinct as) := by
  induction as with
  | nil => exact fun _ _ absent => absurd absent List.not_mem_nil
  | cons a as ih =>
    have apart : ∀ b ∈ (distinct as).filter (fun b => !(a == b)), (a == b) = false := by
      intro b mem
      simpa using (List.mem_filter.mp mem).2
    intro b c left right same
    rcases List.mem_cons.mp left with rfl | leftLater <;>
      rcases List.mem_cons.mp right with rfl | rightLater
    · rfl
    · rw [apart c rightLater] at same
      cases same
    · have reversed := apart b leftLater
      rw [PartialEquivBEq.symm same] at reversed
      cases reversed
    · exact ih b c (List.mem_filter.mp leftLater).1 (List.mem_filter.mp rightLater).1 same

/-- Freeing a list from repetition loses no entry, told by equality of entries. -/
theorem contains_distinct [PartialEquivBEq α] {as : List α} {a : α} :
    (distinct as).contains a = true ↔ as.contains a = true := by
  induction as with
  | nil => exact Iff.rfl
  | cons b as ih =>
    rw [distinct, List.contains_cons, List.contains_cons, Bool.or_eq_true, Bool.or_eq_true]
    by_cases first : (a == b) = true
    · exact iff_of_true (Or.inl first) (Or.inl first)
    · rw [← ih, List.contains_iff_exists_mem_beq, List.contains_iff_exists_mem_beq]
      refine or_congr Iff.rfl (exists_congr fun c => and_congr_left fun same => ?_)
      -- what equals `a` does not equal `b`, so it is not dropped for its sake
      have kept : (!(b == c)) = true := by
        rw [← BEq.congr_right same, Bool.not_eq_true', ← Bool.not_eq_true]
        exact fun equal => first (BEq.symm equal)
      rw [List.mem_filter, and_iff_left kept]

/-- Freeing a list from repetition goes through a map that keeps entries apart. -/
theorem distinct_map {f : α → β} (faithful : ∀ a b, (f a == f b) = (a == b)) (as : List α) :
    distinct (as.map f) = (distinct as).map f := by
  induction as with
  | nil => rfl
  | cons a as ih =>
    simp only [List.map_cons, distinct, ih, List.filter_map]
    congr 2
    exact List.filter_congr fun b _ => by simp only [Function.comp_apply, faithful]

/-- No two entries are equal. -/
def Unrepeated (as : List α) : Prop :=
  as.Pairwise fun a b => (a == b) = false

theorem Unrepeated.filter {as : List α} (clean : Unrepeated as) (p : α → Bool) :
    Unrepeated (as.filter p) :=
  List.Pairwise.filter p clean

theorem unrepeated_singleton (a : α) : Unrepeated [a] :=
  List.pairwise_singleton _ a

theorem unrepeated_distinct (as : List α) : Unrepeated (distinct as) := by
  induction as with
  | nil => exact .nil
  | cons a as ih =>
    refine List.Pairwise.cons (fun b mem => ?_) (ih.filter _)
    simpa using (List.mem_filter.mp mem).2

theorem unrepeated_map {f : α → β} (faithful : ∀ a b, (f a == f b) = (a == b)) {as : List α} :
    Unrepeated (as.map f) ↔ Unrepeated as := by
  simp only [Unrepeated, List.pairwise_map, faithful]

theorem mem_of_mem_insertNew {as : List α} {a b : α} (mem : b ∈ insertNew as a) :
    b ∈ as ∨ b = a := by
  unfold insertNew at mem
  split at mem
  · exact Or.inl mem
  · exact (List.mem_append.mp mem).imp_right List.mem_singleton.mp

theorem Discrete.mem_insertNew [ReflBEq α] {s : α → Prop} (discrete : Discrete s) {as : List α}
    {a b : α} (all : ∀ c ∈ as, s c) (inside : s a) : b ∈ insertNew as a ↔ b ∈ as ∨ b = a := by
  refine ⟨mem_of_mem_insertNew, ?_⟩
  unfold insertNew
  split
  · rename_i present
    intro given
    rcases given with old | rfl
    · exact old
    · exact (discrete.contains_iff all inside).mp present
  · exact fun given => List.mem_append.mpr (given.imp_right List.mem_singleton.mpr)

end CubeAxis
