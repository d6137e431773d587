import CubeAxis.Proofs.Selection.Listing
import Mathlib.Data.List.Induction

namespace CubeAxis

/-- What members are handed when `states` is what their nodes record. -/
def handed (states : Member → SelectionState) : Member → Inherited
  | .root .. => .top
  | .child p _ _ => (handed states p).handDown (states p)

theorem handed_congr {states others : Member → SelectionState} {m : Member}
    (same : ∀ a ∈ m.ancestors, states a = others a) : handed states m = handed others m := by
  induction m with
  | root => rfl
  | child p n l ih =>
    rw [handed, handed, same p (Member.mem_upward_self p),
      ih fun a above => same a (Member.mem_upward_of_ancestors above)]

theorem SelectionTree.inheritedBy_eq (t : SelectionTree) (m : Member) :
    t.inheritedBy m = handed t.stateOf m := by
  induction m with
  | root h n l => exact t.inheritedBy_root h n l
  | child p n l ih => rw [t.inheritedBy_child, ih, handed]

namespace SelectionTree

variable {t u : SelectionTree} {as : List Selection} {a : Selection} {m : Member}

theorem inheritedBy_congr (same : ∀ a ∈ m.ancestors, t.stateOf a = u.stateOf a) :
    t.inheritedBy m = u.inheritedBy m := by
  rw [inheritedBy_eq, inheritedBy_eq, handed_congr same]

theorem ofSelections_concat (as : List Selection) (a : Selection) :
    ofSelections (as ++ [a]) = (ofSelections as).apply a :=
  List.foldl_concat _ _ _ _

theorem grown_ofSelections (as : List Selection) : (ofSelections as).Grown := by
  induction as using List.reverseRecOn with
  | nil => exact .empty
  | append_singleton as a ih =>
    rw [ofSelections_concat]
    exact .apply a ih

/-- An action changes the state of the member that it is on. -/
theorem stateOf_apply (t : SelectionTree) (a : Selection) (m : Member) :
    (t.apply a).stateOf m =
      if a.isOn m then (t.inheritedBy m).record (t.stateOf m) a.sign a.operator
      else t.stateOf m := by
  obtain ⟨sign, operator, k | l⟩ := a
  · change (t.applyMember sign operator k).stateOf m = _
    rw [stateOf_applyMember]
    by_cases same : k.names = m.names
    · rw [if_pos (Member.list_beq_iff.mpr same.symm), if_pos (Selection.isOn_iff.mpr ⟨k, rfl, same⟩),
        t.inheritedBy_congr_names same]
    · rw [if_neg fun yes => same (Member.list_beq_iff.mp yes).symm, if_neg]
      intro on
      obtain ⟨l, target, yes⟩ := Selection.isOn_iff.mp on
      obtain rfl := SelectionTarget.member.inj target
      exact same yes
  · rfl

theorem inheritedBy_apply (beside : ∀ k, a.target = .member k → ¬ k.Above m) :
    (t.apply a).inheritedBy m = t.inheritedBy m := by
  refine inheritedBy_congr fun x higher => ?_
  rw [stateOf_apply, if_neg]
  intro on
  obtain ⟨k, target, same⟩ := Selection.isOn_iff.mp on
  refine beside k target ?_
  have above := Member.above_of_mem_ancestors higher
  exact ⟨same ▸ above.1, Member.depth_eq_of_names same ▸ above.2⟩

/-- Actions that go from the top down leave on each member what those on it record,
with what the member is handed in the end. -/
theorem stateOf_ofSelections (orderly : Orderly as) (m : Member) :
    (ofSelections as).stateOf m = (as.filter (·.isOn m)).foldl
      (fun st a => ((ofSelections as).inheritedBy m).record st a.sign a.operator) {} := by
  induction as using List.reverseRecOn with
  | nil => rfl
  | append_singleton as a ih =>
    have before := ih (orderly.sublist (List.sublist_append_left as [a]))
    rw [ofSelections_concat, stateOf_apply, List.filter_append]
    by_cases own : a.isOn m = true
    · have handed : ((ofSelections as).apply a).inheritedBy m = (ofSelections as).inheritedBy m := by
        refine inheritedBy_apply fun k target above => ?_
        obtain ⟨l, target', same⟩ := Selection.isOn_iff.mp own
        obtain rfl := SelectionTarget.member.inj (target.symm.trans target')
        exact Nat.ne_of_lt above.2 (Member.depth_eq_of_names same)
      rw [if_pos own, handed, List.filter_singleton, own, List.foldl_append, ← before]
      rfl
    · rw [if_neg own, List.filter_singleton, Bool.eq_false_iff.mpr own, before]
      simp only [cond_false, List.append_nil]
      by_cases higher : ∃ k, a.target = .member k ∧ k.Above m
      · -- what comes before an action further up is not on the member
        obtain ⟨k, target, above⟩ := higher
        have none : as.filter (·.isOn m) = [] := by
          refine List.filter_eq_nil_iff.mpr fun b mem on => ?_
          obtain ⟨l, lower, same⟩ := Selection.isOn_iff.mp on
          exact (List.pairwise_append.mp orderly.descending).2.2 b mem a (by simp) l k lower target
            (above.congr same.symm)
        rw [none]
        rfl
      · rw [inheritedBy_apply fun k target above => higher ⟨k, target, above⟩]

/-- The signs of levels are those given, if each level is given one sign at most. -/
theorem exists_level_ofSelections_iff (orderly : Orderly as) {l : Level} {s : Sign} :
    (∃ o ∈ (ofSelections as).levels, o.level = l ∧ o.sign = s) ↔
      ∃ a ∈ as, a.target = .level l ∧ a.sign = s := by
  induction as using List.reverseRecOn generalizing l s with
  | nil => simp [ofSelections, empty]
  | append_singleton as a ih =>
    have before {l s} := ih (orderly.sublist (List.sublist_append_left as [a])) (l := l) (s := s)
    have once := (List.pairwise_append.mp orderly.levels).2.2
    rw [ofSelections_concat]
    simp only [List.mem_append, List.mem_singleton, or_and_right, exists_or, exists_eq_left,
      ← before]
    obtain ⟨sign, operator, k | k⟩ := a
    · simp [apply, applyMember]
    · have apart : ∀ o ∈ (ofSelections as).levels, (!(o.level == k)) = true := by
        intro o listed
        obtain ⟨b, mem, target, -⟩ := before.mp ⟨o, listed, rfl, rfl⟩
        rw [once b mem _ (List.mem_singleton_self _) _ _ target rfl]
        rfl
      simp only [apply, applyLevel, List.filter_eq_self.mpr apart, List.mem_append,
        List.mem_singleton, or_and_right, exists_or, exists_eq_left, SelectionTarget.level.injEq]

theorem levelSign_eq_of_levels (left : t.Numbered) (right : u.Numbered)
    (same : ∀ l s, (∃ o ∈ t.levels, o.level = l ∧ o.sign = s) ↔
      ∃ o ∈ u.levels, o.level = l ∧ o.sign = s) (l : Level) : t.levelSign l = u.levelSign l := by
  ext s
  rw [levelSign_eq_some_iff left, levelSign_eq_some_iff right]
  constructor
  · rintro ⟨o, level, here, rfl⟩
    obtain ⟨v, level', named, sign⟩ := (same o.level o.sign).mp ⟨o, level, rfl, rfl⟩
    exact ⟨v, level', named ▸ here, sign⟩
  · rintro ⟨o, level, here, rfl⟩
    obtain ⟨v, level', named, sign⟩ := (same o.level o.sign).mpr ⟨o, level, rfl, rfl⟩
    exact ⟨v, level', named ▸ here, sign⟩

end SelectionTree
end CubeAxis
