import CubeAxis.Proofs.Drill.Visit
import Mathlib.Data.Set.Basic

namespace CubeAxis

/-- Every entry of the set stands in the list exactly once, told by equality of
entries, and nothing else stands there. -/
structure Enumerates {α : Type} [BEq α] (as : List α) (s : Set α) : Prop where
  contains_iff : ∀ a, as.contains a = true ↔ a ∈ s
  once : as.Pairwise fun a b => (a == b) = false

namespace Enumerates

variable {α : Type} [BEq α] {as : List α} {s u : Set α}

theorem congr (lists : Enumerates as s) (same : ∀ a, a ∈ u ↔ a ∈ s) : Enumerates as u :=
  ⟨fun a => (lists.contains_iff a).trans (same a).symm, lists.once⟩

theorem nil : Enumerates ([] : List α) ∅ :=
  ⟨fun _ => iff_of_false Bool.false_ne_true fun none => none, .nil⟩

variable [PartialEquivBEq α]

theorem insertNew [ReflBEq α] (lists : Enumerates as s) (a : α) :
    Enumerates (insertNew as a) {b | b ∈ s ∨ (b == a) = true} := by
  unfold CubeAxis.insertNew
  split
  · rename_i present
    refine lists.congr fun b => or_iff_left_of_imp fun same => ?_
    rw [← lists.contains_iff, List.contains_congr same]
    exact present
  · rename_i absent
    refine ⟨fun b => ?_, List.pairwise_append.mpr ⟨lists.once, List.pairwise_singleton _ _, ?_⟩⟩
    · rw [List.contains_append, Bool.or_eq_true, lists.contains_iff, List.contains_cons,
        List.contains_nil, Bool.or_false]
      exact Iff.rfl
    · intro b mem c only
      obtain rfl := List.mem_singleton.mp only
      refine Bool.eq_false_iff.mpr fun same => absent ?_
      exact List.contains_iff_exists_mem_beq.mpr ⟨b, mem, BEq.symm same⟩

theorem erase (lists : Enumerates as s) (a : α) :
    Enumerates (as.filter fun k => !(k == a)) {b | b ∈ s ∧ (b == a) = false} := by
  refine ⟨fun b => ?_, lists.once.filter _⟩
  simp only [List.contains_iff_exists_mem_beq, List.mem_filter, Set.mem_ofPred_eq,
    ← lists.contains_iff, Bool.not_eq_true']
  constructor
  · intro given
    obtain ⟨k, ⟨mem, other⟩, same⟩ := given
    exact ⟨⟨k, mem, same⟩, BEq.congr_left same ▸ other⟩
  · intro given
    obtain ⟨⟨k, mem, same⟩, other⟩ := given
    exact ⟨k, ⟨mem, BEq.congr_left same ▸ other⟩, same⟩

end Enumerates

/-- A change to the positions recorded on an axis. -/
inductive DrillAction where
  | add (p : Position)
  | remove (p : Position)
  | prune (depth : Nat)
  | clearLevel (depth : Nat)
  | clear

/-- What an action makes of a set of positions. Positions are told apart member by
member, and the empty one is never recorded. -/
def DrillAction.change (s : Set Position) : DrillAction → Set Position
  | add p => {q | q ∈ s ∨ p ≠ [] ∧ (q == p) = true}
  | remove p => {q | q ∈ s ∧ (q == p) = false}
  | prune depth => {q | q ∈ s ∧ q.length ≤ depth}
  | clearLevel depth => {q | q ∈ s ∧ q.length ≠ depth + 1}
  | clear => ∅

/-- The set of positions that actions leave, from none on. -/
def DrillAction.recorded (as : List DrillAction) : Set Position :=
  as.foldl change ∅

namespace DrillTree

def act (t : DrillTree) : DrillAction → DrillTree
  | .add p => t.add p
  | .remove p => t.remove p
  | .prune depth => t.prune depth
  | .clearLevel depth => t.clearLevel depth
  | .clear => t.clear

/-- The trie that actions leave, from the empty one on. -/
def run (as : List DrillAction) : DrillTree :=
  as.foldl act empty

/-- The trie stands for the set: at the end of each path it lists what continues the
path within the set. -/
structure StandsFor (t : DrillTree) (s : Set Position) : Prop where
  apart : t.below.Apart
  drilledAt : ∀ path, Enumerates (t.drilledAt path) {m | path ++ [m] ∈ s}
  proper : [] ∉ s

variable {t : DrillTree} {s : Set Position}

theorem StandsFor.empty : DrillTree.empty.StandsFor ∅ where
  apart := trivial
  drilledAt path := by cases path <;> exact .nil
  proper none := none

theorem StandsFor.add (stands : t.StandsFor s) (p : Position) :
    (t.add p).StandsFor (DrillAction.change s (.add p)) := by
  rcases List.eq_nil_or_concat' p with rfl | ⟨path, m, rfl⟩
  · refine ⟨stands.apart, fun path => ?_, fun given => ?_⟩
    · exact (stands.drilledAt path).congr fun _ => or_iff_left fun no => no.1 rfl
    · exact given.elim stands.proper fun no => no.1 rfl
  · refine ⟨?_, fun q => ?_, fun given => ?_⟩
    · rw [DrillTree.add, List.getLast?_concat]
      exact apart_upsertAt stands.apart _ _
    · rw [drilledAt_add]
      by_cases here : (q == path) = true
      · rw [if_pos here]
        refine ((stands.drilledAt q).insertNew m).congr fun k => ?_
        simp [DrillAction.change, here]
      · rw [if_neg here]
        refine (stands.drilledAt q).congr fun k => ?_
        simp [DrillAction.change, here]
    · rcases given with old | ⟨_, same⟩
      · exact stands.proper old
      · cases path <;> cases same

theorem StandsFor.remove (stands : t.StandsFor s) (p : Position) :
    (t.remove p).StandsFor (DrillAction.change s (.remove p)) := by
  rcases List.eq_nil_or_concat' p with rfl | ⟨path, m, rfl⟩
  · refine ⟨stands.apart, fun path => ?_, fun given => stands.proper given.1⟩
    refine (stands.drilledAt path).congr fun k => and_iff_left ?_
    cases path <;> rfl
  · refine ⟨?_, fun q => ?_, fun given => stands.proper given.1⟩
    · rw [DrillTree.remove, List.getLast?_concat]
      exact apart_adjustAt stands.apart _ _
    · rw [drilledAt_remove]
      by_cases here : (q == path) = true
      · rw [if_pos here]
        refine ((stands.drilledAt q).erase m).congr fun k => and_congr_right fun _ => ?_
        rw [List.concat_beq_concat, here, Bool.true_and]
      · rw [if_neg here]
        refine (stands.drilledAt q).congr fun k => and_iff_left ?_
        rw [List.concat_beq_concat, Bool.eq_false_iff.mpr here, Bool.false_and]

theorem StandsFor.prune (stands : t.StandsFor s) (depth : Nat) :
    (t.prune depth).StandsFor (DrillAction.change s (.prune depth)) where
  apart := apart_prune stands.apart depth
  drilledAt q := by
    rw [drilledAt_prune]
    by_cases shallow : q.length < depth
    · rw [if_pos shallow]
      exact (stands.drilledAt q).congr fun k => and_iff_left (by simp; omega)
    · rw [if_neg shallow]
      refine Enumerates.nil.congr fun k => iff_of_false (fun kept => ?_) fun none => none
      have bound := kept.2
      simp only [List.length_append, List.length_singleton] at bound
      omega
  proper kept := stands.proper kept.1

theorem StandsFor.clearLevel (stands : t.StandsFor s) (depth : Nat) :
    (t.clearLevel depth).StandsFor (DrillAction.change s (.clearLevel depth)) where
  apart := apart_clearLevel stands.apart depth
  drilledAt q := by
    rw [drilledAt_clearLevel]
    by_cases level : q.length = depth
    · rw [if_pos level]
      exact Enumerates.nil.congr fun k => iff_of_false (fun kept => kept.2 (by simp [level]))
        fun none => none
    · rw [if_neg level]
      exact (stands.drilledAt q).congr fun k => and_iff_left (by simpa using level)
  proper kept := stands.proper kept.1

theorem StandsFor.act (stands : t.StandsFor s) (a : DrillAction) :
    (t.act a).StandsFor (a.change s) := by
  cases a with
  | add p => exact stands.add p
  | remove p => exact stands.remove p
  | prune depth => exact stands.prune depth
  | clearLevel depth => exact stands.clearLevel depth
  | clear => exact .empty

theorem standsFor_run (as : List DrillAction) : (run as).StandsFor (DrillAction.recorded as) := by
  suffices whole : ∀ (t : DrillTree) (s : Set Position), t.StandsFor s →
      (as.foldl DrillTree.act t).StandsFor (as.foldl DrillAction.change s) from whole _ _ .empty
  induction as with
  | nil => exact fun _ _ stands => stands
  | cons a as ih => exact fun t s stands => ih _ _ (stands.act a)

theorem StandsFor.isDrilled_iff (stands : t.StandsFor s) (p : Position) :
    t.isDrilled p = true ↔ p ∈ s := by
  rcases List.eq_nil_or_concat' p with rfl | ⟨path, m, rfl⟩
  · exact iff_of_false Bool.false_ne_true stands.proper
  · rw [isDrilled, List.getLast?_concat, List.dropLast_concat]
    exact (stands.drilledAt path).contains_iff m

/-- Positions that equal each other member by member stand in the set together. -/
theorem StandsFor.mem_congr (stands : t.StandsFor s) {path q : List Member} {m k : Member}
    (same : (path ++ [m] == q ++ [k]) = true) : path ++ [m] ∈ s ↔ q ++ [k] ∈ s := by
  rw [List.concat_beq_concat, Bool.and_eq_true] at same
  obtain ⟨paths, last⟩ := same
  rw [← Set.mem_ofPred_eq (p := fun m => path ++ [m] ∈ s), ← (stands.drilledAt path).contains_iff,
    t.drilledAt_congr paths, List.contains_congr last, (stands.drilledAt q).contains_iff]
  exact Iff.rfl

theorem mem_positions {p : Position} : p ∈ t.positions ↔
    ∃ path ms, (path, ms) ∈ t.visit (fun _ _ => true) ∧ ∃ m ∈ ms, path ++ [m] = p := by
  simp only [positions, List.mem_flatMap, List.mem_map, Prod.exists]

theorem StandsFor.enumerates_positions (stands : t.StandsFor s) : Enumerates t.positions s := by
  refine ⟨fun p => ?_, ?_⟩
  · rw [List.contains_iff_exists_mem_beq]
    constructor
    · intro given
      obtain ⟨k, listed, same⟩ := given
      obtain ⟨path, ms, met, m, mem, rfl⟩ := mem_positions.mp listed
      rcases List.eq_nil_or_concat' p with rfl | ⟨q, l, rfl⟩
      · cases path <;> cases same
      · have node := drilledAt_of_mem_visit stands.apart met
        rw [stands.mem_congr same]
        refine ((stands.drilledAt path).contains_iff m).mp ?_
        rw [node]
        exact List.contains_iff_exists_mem_beq.mpr ⟨m, mem, BEq.rfl⟩
    · intro recorded
      rcases List.eq_nil_or_concat' p with rfl | ⟨path, l, rfl⟩
      · exact absurd recorded stands.proper
      · have present := ((stands.drilledAt path).contains_iff l).mpr recorded
        obtain ⟨m, mem, same⟩ := List.contains_iff_exists_mem_beq.mp present
        obtain ⟨q, names, met⟩ := exists_mem_visit (List.ne_nil_of_mem mem)
        refine ⟨q ++ [m], mem_positions.mpr ⟨q, _, met, m, mem, rfl⟩, ?_⟩
        rw [List.concat_beq_concat, BEq.symm names, same, Bool.true_and]
  · rw [positions, List.pairwise_flatMap]
    constructor
    · rintro ⟨path, ms⟩ met
      have once := (stands.drilledAt path).once
      rw [drilledAt_of_mem_visit stands.apart met] at once
      refine List.pairwise_map.mpr (once.imp ?_)
      intro m k other
      rw [List.concat_beq_concat, other, Bool.and_false]
    · refine (pairwise_visit stands.apart _).imp fun {a b} other p left q right => ?_
      obtain ⟨m, _, rfl⟩ := List.mem_map.mp left
      obtain ⟨k, _, rfl⟩ := List.mem_map.mp right
      rw [List.concat_beq_concat, other, Bool.false_and]

/-- However positions were recorded and forgotten, the trie answers as the set of
those that are left. -/
theorem run_refines (as : List DrillAction) :
    (∀ p, (run as).isDrilled p = true ↔ p ∈ DrillAction.recorded as) ∧
      (∀ path, Enumerates ((run as).drilledAt path) {m | path ++ [m] ∈ DrillAction.recorded as}) ∧
        Enumerates (run as).positions (DrillAction.recorded as) := by
  have stands := standsFor_run as
  exact ⟨stands.isDrilled_iff, stands.drilledAt, stands.enumerates_positions⟩

example : (run [.add [.year], .add [.year, .january], .add [.year], .prune 1]).positions = [[.year]] :=
  rfl

end DrillTree
end CubeAxis
