import CubeAxis.Drill.Tree
import CubeAxis.Proofs.Forest

namespace CubeAxis

/-- The members come from the hierarchies in order. Past the last hierarchy any
member goes. -/
def Position.Within (hs : List Hierarchy) (p : Position) : Prop :=
  ∀ (i : Nat) (h : Hierarchy) (m : Member), hs[i]? = some h → p[i]? = some m → m ∈ h.members

theorem Position.within_nil (hs : List Hierarchy) : Within hs [] :=
  fun _ _ _ _ there => nomatch there

theorem Position.within_cons {h : Hierarchy} {hs : List Hierarchy} {m : Member} {p : Position} :
    Within (h :: hs) (m :: p) ↔ m ∈ h.members ∧ Within hs p := by
  constructor
  · intro within
    exact ⟨within 0 h m rfl rfl, fun i g k atI there => within (i + 1) g k atI there⟩
  · intro given i g k atI there
    obtain ⟨inside, later⟩ := given
    cases i with
    | zero =>
      cases atI
      cases there
      exact inside
    | succ i => exact later i g k atI there

theorem Position.Within.take {hs : List Hierarchy} {p : Position} (within : p.Within hs) (n : Nat) :
    Position.Within hs (p.take n) := by
  intro i h m atI there
  rw [List.getElem?_take, Option.ite_none_right_eq_some] at there
  exact within i h m atI there.2

/-- Members of the first hierarchy, and below them those of the others. -/
def Forest.Rule.axis : Forest.Rule (List Hierarchy) where
  allows hs m := ∀ h, hs.head? = some h → m ∈ h.members
  below hs _ := hs.tail

theorem Forest.Rule.axis_faithful : Forest.Rule.axis.Faithful :=
  fun _ _ _ _ _ _ => rfl

theorem Position.Within.follows {hs : List Hierarchy} {p : Position} (within : p.Within hs) :
    Forest.Rule.axis.Follows hs p := by
  induction p generalizing hs with
  | nil => trivial
  | cons m p ih =>
    refine ⟨fun h first => within 0 h m ?_ rfl, ih fun i h k atI there => ?_⟩
    · rwa [← List.head?_eq_getElem?]
    · exact within (i + 1) h k (List.getElem?_tail.symm.trans atI) there

/-- The listed members may stand in the state. -/
def Forest.Rule.Lists {σ : Type} (rule : Forest.Rule σ) (s : σ) (ms : List Member) : Prop :=
  ∀ m ∈ ms, rule.allows s m

namespace Forest

/-- The nodes `depth` levels down get the value and the children that `change` has for them. -/
def atDepth {α : Type} (change : α → Forest α → α × Forest α) : Nat → Forest α → Forest α
  | _, nil => nil
  | 0, cons k v children siblings =>
    cons k (change v children).1 (change v children).2 (siblings.atDepth change 0)
  | depth + 1, cons k v children siblings =>
    cons k v (children.atDepth change depth) (siblings.atDepth change (depth + 1))

theorem prune_eq_atDepth (f : Forest (List Member)) (depth : Nat) :
    f.prune depth = f.atDepth (fun _ _ => ([], nil)) depth := by
  induction f generalizing depth with
  | nil => cases depth <;> rfl
  | cons k v children siblings ihBelow ihBeside =>
    cases depth with
    | zero => rw [Forest.prune, atDepth, ihBeside]
    | succ depth => rw [Forest.prune, atDepth, ihBelow, ihBeside]

theorem clearLevel_eq_atDepth (f : Forest (List Member)) (depth : Nat) :
    f.clearLevel depth = f.atDepth (fun _ children => ([], children)) depth := by
  induction f generalizing depth with
  | nil => cases depth <;> rfl
  | cons k v children siblings ihBelow ihBeside =>
    cases depth with
    | zero => rw [Forest.clearLevel, atDepth, ihBeside]
    | succ depth => rw [Forest.clearLevel, atDepth, ihBelow, ihBeside]

section

variable {α σ : Type} {f : Forest α} {change : α → Forest α → α × Forest α}

theorem labels_atDepth (depth : Nat) : (f.atDepth change depth).labels = f.labels := by
  induction f generalizing depth with
  | nil => cases depth <;> rfl
  | cons k v children siblings _ ih =>
    cases depth with
    | zero => exact congrArg (k :: ·) (ih 0)
    | succ depth => exact congrArg (k :: ·) (ih (depth + 1))

theorem Obeys.atDepth {rule : Rule σ} {good : σ → α → Prop} {s : σ} (obeys : f.Obeys rule good s)
    (keeps : ∀ s v children, good s v → children.Obeys rule good s →
      good s (change v children).1 ∧ (change v children).2.Obeys rule good s) (depth : Nat) :
    (f.atDepth change depth).Obeys rule good s := by
  induction f generalizing s depth with
  | nil => cases depth <;> trivial
  | cons k v children siblings ihBelow ihBeside =>
    obtain ⟨allowed, apart, value, below, beside⟩ := obeys
    cases depth with
    | zero =>
      obtain ⟨changed, lower⟩ := keeps _ v children value below
      refine ⟨allowed, ?_, changed, lower, ihBeside beside 0⟩
      rwa [labels_atDepth]
    | succ depth =>
      refine ⟨allowed, ?_, value, ihBelow below depth, ihBeside beside (depth + 1)⟩
      rwa [labels_atDepth]

theorem Apart.atDepth (apart : f.Apart)
    (keeps : ∀ v children, children.Apart → (change v children).2.Apart) (depth : Nat) :
    (f.atDepth change depth).Apart := by
  induction f generalizing depth with
  | nil => cases depth <;> trivial
  | cons k v children siblings ihBelow ihBeside =>
    obtain ⟨different, below, beside⟩ := apart
    cases depth with
    | zero =>
      refine ⟨?_, keeps v children below, ihBeside beside 0⟩
      rwa [labels_atDepth]
    | succ depth =>
      refine ⟨?_, ihBelow below depth, ihBeside beside (depth + 1)⟩
      rwa [labels_atDepth]

end

variable {σ : Type} {rule : Rule σ} {good : σ → List Member → Prop} {s : σ}
  {f : Forest (List Member)}

theorem Obeys.prune (bare : ∀ s, good s []) (obeys : f.Obeys rule good s) (depth : Nat) :
    (f.prune depth).Obeys rule good s := by
  rw [prune_eq_atDepth]
  refine obeys.atDepth (fun s _ _ _ _ => ?_) depth
  exact ⟨bare s, trivial⟩

theorem Obeys.clearLevel (bare : ∀ s, good s []) (obeys : f.Obeys rule good s) (depth : Nat) :
    (f.clearLevel depth).Obeys rule good s := by
  rw [clearLevel_eq_atDepth]
  refine obeys.atDepth (fun s _ _ _ below => ?_) depth
  exact ⟨bare s, below⟩

end Forest

namespace DrillTree

/-- The tries that recording and forgetting positions of an axis lead to. -/
inductive Reached (hs : List Hierarchy) : DrillTree → Prop
  | empty : Reached hs .empty
  | add {t : DrillTree} (p : Position) : Reached hs t → p.Within hs → Reached hs (t.add p)
  | remove {t : DrillTree} (p : Position) : Reached hs t → p.Within hs → Reached hs (t.remove p)
  | prune {t : DrillTree} (depth : Nat) : Reached hs t → Reached hs (t.prune depth)
  | clearLevel {t : DrillTree} (depth : Nat) : Reached hs t → Reached hs (t.clearLevel depth)
  | clear {t : DrillTree} : Reached hs t → Reached hs t.clear

/-- Every node and every listed member belongs to the hierarchy of its depth. -/
structure Aligned (hs : List Hierarchy) (t : DrillTree) : Prop where
  drilled : Forest.Rule.axis.Lists hs t.drilled
  below : t.below.Obeys .axis Forest.Rule.axis.Lists hs

variable {hs : List Hierarchy} {t : DrillTree}

theorem empty_aligned : empty.Aligned hs :=
  ⟨fun _ mem => absurd mem List.not_mem_nil, trivial⟩

theorem lists_nil (hs : List Hierarchy) : Forest.Rule.axis.Lists hs [] :=
  fun _ mem => absurd mem List.not_mem_nil

theorem Aligned.upsertAt {path : List Member} {change : List Member → List Member}
    (aligned : t.Aligned hs) (follows : Forest.Rule.axis.Follows hs path)
    (keeps : ∀ ms, Forest.Rule.axis.Lists (Forest.Rule.axis.after hs path) ms →
      Forest.Rule.axis.Lists (Forest.Rule.axis.after hs path) (change ms)) :
    (t.upsertAt path change).Aligned hs := by
  unfold DrillTree.upsertAt
  split
  · rename_i none
    obtain rfl := List.isEmpty_iff.mp none
    exact ⟨keeps _ aligned.drilled, aligned.below⟩
  · have fresh : ∀ (s : List Hierarchy) (_ : Nat), Forest.Rule.axis.Lists s [] :=
      fun s _ => lists_nil s
    exact ⟨aligned.drilled, aligned.below.upsert Forest.Rule.axis_faithful fresh follows keeps⟩

theorem Aligned.adjustAt {path : List Member} {change : List Member → List Member}
    (aligned : t.Aligned hs) (follows : Forest.Rule.axis.Follows hs path)
    (keeps : ∀ ms, Forest.Rule.axis.Lists (Forest.Rule.axis.after hs path) ms →
      Forest.Rule.axis.Lists (Forest.Rule.axis.after hs path) (change ms)) :
    (t.adjustAt path change).Aligned hs := by
  unfold DrillTree.adjustAt
  split
  · rename_i none
    obtain rfl := List.isEmpty_iff.mp none
    exact ⟨keeps _ aligned.drilled, aligned.below⟩
  · exact ⟨aligned.drilled, aligned.below.adjust Forest.Rule.axis_faithful follows keeps⟩

/-- The last member of a position may stand where the members before it lead. -/
theorem follows_of_getLast? {p : Position} {m : Member} (within : p.Within hs)
    (last : p.getLast? = some m) : Forest.Rule.axis.Follows hs p.dropLast ∧
      Forest.Rule.axis.allows (Forest.Rule.axis.after hs p.dropLast) m := by
  have whole := within.follows
  rw [← List.dropLast_append_getLast? m last, Forest.Rule.follows_append] at whole
  exact ⟨whole.1, whole.2.1⟩

theorem Aligned.add (aligned : t.Aligned hs) {p : Position} (within : p.Within hs) :
    (t.add p).Aligned hs := by
  unfold DrillTree.add
  split
  · exact aligned
  · rename_i m last
    obtain ⟨follows, allowed⟩ := follows_of_getLast? within last
    refine aligned.upsertAt follows fun ms listed k mem => ?_
    rcases mem_of_mem_insertNew mem with old | rfl
    · exact listed k old
    · exact allowed

theorem Aligned.remove (aligned : t.Aligned hs) {p : Position} (within : p.Within hs) :
    (t.remove p).Aligned hs := by
  unfold DrillTree.remove
  split
  · exact aligned
  · rename_i m last
    obtain ⟨follows, _⟩ := follows_of_getLast? within last
    exact aligned.adjustAt follows fun ms listed k mem => listed k (List.mem_of_mem_filter mem)

theorem Aligned.prune (aligned : t.Aligned hs) (depth : Nat) : (t.prune depth).Aligned hs := by
  cases depth with
  | zero => exact empty_aligned
  | succ depth => exact ⟨aligned.drilled, aligned.below.prune lists_nil depth⟩

theorem Aligned.clearLevel (aligned : t.Aligned hs) (depth : Nat) :
    (t.clearLevel depth).Aligned hs := by
  cases depth with
  | zero => exact ⟨lists_nil hs, aligned.below⟩
  | succ depth => exact ⟨aligned.drilled, aligned.below.clearLevel lists_nil depth⟩

theorem Reached.aligned (reached : t.Reached hs) : t.Aligned hs := by
  induction reached with
  | empty => exact empty_aligned
  | add p _ within ih => exact ih.add within
  | remove p _ within ih => exact ih.remove within
  | prune depth _ ih => exact ih.prune depth
  | clearLevel depth _ ih => exact ih.clearLevel depth
  | clear _ _ => exact empty_aligned

end DrillTree
end CubeAxis
