import CubeAxis.Sorting

namespace CubeAxis

variable {α : Type} {key : α → Nat} {r : α → α → Prop} {a b : α} {as : List α}

theorem insertBy_perm (key : α → Nat) (a : α) (as : List α) :
    (insertBy key a as).Perm (a :: as) := by
  induction as with
  | nil => exact .refl _
  | cons b as ih =>
    rw [insertBy]
    split
    · exact .refl _
    · exact (ih.cons b).trans (.swap a b as)

theorem sortBy_perm (key : α → Nat) (as : List α) : (sortBy key as).Perm as := by
  induction as with
  | nil => exact .refl _
  | cons a as ih => exact (insertBy_perm key a _).trans (ih.cons a)

theorem mem_sortBy : a ∈ sortBy key as ↔ a ∈ as :=
  (sortBy_perm key as).mem_iff

/-- Sorted by the key, and by `r` among the entries of one key. -/
def Ranked (key : α → Nat) (r : α → α → Prop) (a b : α) : Prop :=
  key a < key b ∨ key a = key b ∧ r a b

theorem pairwise_insertBy (first : ∀ b ∈ as, key a = key b → r a b)
    (ranked : as.Pairwise (Ranked key r)) : (insertBy key a as).Pairwise (Ranked key r) := by
  induction as with
  | nil => exact List.pairwise_singleton _ a
  | cons b as ih =>
    obtain ⟨ahead, rest⟩ := List.pairwise_cons.mp ranked
    rw [insertBy]
    split
    · rename_i bound
      refine List.pairwise_cons.mpr ⟨fun c mem => ?_, ranked⟩
      have later : key b ≤ key c := by
        rcases List.mem_cons.mp mem with rfl | tail
        · exact Nat.le_refl _
        · rcases ahead c tail with less | ⟨same, _⟩
          · exact Nat.le_of_lt less
          · exact Nat.le_of_eq same
      rcases Nat.lt_or_eq_of_le (Nat.le_trans bound later) with less | same
      · exact Or.inl less
      · exact Or.inr ⟨same, first c mem same⟩
    · rename_i less
      refine List.pairwise_cons.mpr ⟨fun c mem => ?_, ?_⟩
      · rcases List.mem_cons.mp ((insertBy_perm key a as).mem_iff.mp mem) with rfl | tail
        · exact Or.inl (Nat.not_le.mp less)
        · exact ahead c tail
      · exact ih (fun c mem => first c (List.mem_cons_of_mem _ mem)) rest

/-- Sorting is stable: what relates the entries of one key in the order given still
relates them in the order sorted. -/
theorem pairwise_sortBy (given : as.Pairwise fun a b => key a = key b → r a b) :
    (sortBy key as).Pairwise (Ranked key r) := by
  induction as with
  | nil => exact .nil
  | cons a as ih =>
    obtain ⟨first, rest⟩ := List.pairwise_cons.mp given
    exact pairwise_insertBy (fun b mem => first b (mem_sortBy.mp mem)) (ih rest)

theorem sorted_sortBy (key : α → Nat) (as : List α) :
    (sortBy key as).Pairwise fun a b => key a ≤ key b := by
  have ranked : (sortBy key as).Pairwise (Ranked key fun _ _ => True) :=
    pairwise_sortBy (List.pairwise_of_forall fun _ _ _ => trivial)
  exact ranked.imp fun before => before.elim Nat.le_of_lt fun same => Nat.le_of_eq same.1

theorem insertBy_of_le (least : ∀ b ∈ as, key a ≤ key b) : insertBy key a as = a :: as := by
  cases as with
  | nil => rfl
  | cons b as => rw [insertBy, if_pos (least b List.mem_cons_self)]

theorem filter_insertBy (keep : α → Bool) (sorted : as.Pairwise fun a b => key a ≤ key b) :
    (insertBy key a as).filter keep =
      if keep a then insertBy key a (as.filter keep) else as.filter keep := by
  induction as with
  | nil => cases kept : keep a <;> simp [insertBy, kept]
  | cons b as ih =>
    obtain ⟨first, rest⟩ := List.pairwise_cons.mp sorted
    by_cases before : key a ≤ key b
    · have least : ∀ c ∈ (b :: as).filter keep, key a ≤ key c := by
        intro c mem
        rcases List.mem_cons.mp (List.mem_filter.mp mem).1 with rfl | later
        · exact before
        · exact Nat.le_trans before (first c later)
      rw [insertBy, if_pos before, insertBy_of_le least, List.filter_cons]
    · rw [insertBy, if_neg before, List.filter_cons, ih rest, List.filter_cons]
      cases kept : keep b <;> cases keep a <;> simp [insertBy, before]

/-- Sorting may wait until after a filter. -/
theorem sortBy_filter (keep : α → Bool) (as : List α) :
    sortBy key (as.filter keep) = (sortBy key as).filter keep := by
  induction as with
  | nil => rfl
  | cons a as ih =>
    change _ = (insertBy key a (sortBy key as)).filter keep
    rw [filter_insertBy keep (sorted_sortBy key as), ← ih, List.filter_cons]
    cases keep a <;> rfl

theorem insertBy_concat (last : key b ≤ key a) (as : List α) :
    insertBy key b (as ++ [a]) = insertBy key b as ++ [a] := by
  induction as with
  | nil => exact if_pos last
  | cons c as ih =>
    rw [List.cons_append, insertBy, insertBy, ih]
    split <;> rfl

/-- What comes after all others in the list and by its key is sorted last. -/
theorem sortBy_concat (last : ∀ b ∈ as, key b ≤ key a) :
    sortBy key (as ++ [a]) = sortBy key as ++ [a] := by
  induction as with
  | nil => rfl
  | cons b as ih =>
    obtain ⟨first, rest⟩ := List.forall_mem_cons.mp last
    change insertBy key b (sortBy key (as ++ [a])) = _
    rw [ih rest, insertBy_concat first]
    rfl

/-- Lists that go up strictly are told apart by their entries. -/
theorem eq_of_mem_iff_of_pairwise {bs : List α} (asymm : ∀ a b, r a b → ¬ r b a)
    (left : as.Pairwise r) (right : bs.Pairwise r) (same : ∀ a, a ∈ as ↔ a ∈ bs) : as = bs := by
  have apart : ∀ {cs : List α}, cs.Pairwise r → cs.Nodup := by
    refine fun ordered => List.Pairwise.imp (fun {a b} before => ?_) ordered
    rintro rfl
    exact asymm a a before before
  refine List.Perm.eq_of_pairwise (fun a b _ _ before after => ?_) left right ?_
  · exact absurd after (asymm a b before)
  · exact (List.perm_ext_iff_of_nodup (apart left) (apart right)).mpr same

end CubeAxis
