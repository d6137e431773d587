import CubeAxis.Forest
import CubeAxis.Proofs.Hierarchy

namespace CubeAxis.Forest

variable {α σ : Type}

/-- Which members may stand side by side in a state, and the state below each. -/
structure Rule (σ : Type) where
  allows : σ → Member → Prop
  below : σ → Member → σ

namespace Rule

/-- Each member of the path may stand below those before it. -/
def Follows (rule : Rule σ) : σ → List Member → Prop
  | _, [] => True
  | s, m :: path => rule.allows s m ∧ rule.Follows (rule.below s m) path

/-- The state below the end of a path. -/
def after (rule : Rule σ) (s : σ) (path : List Member) : σ :=
  path.foldl rule.below s

/-- Members that equal each other by name lead to one state. -/
def Faithful (rule : Rule σ) : Prop :=
  ∀ s a b, rule.allows s a → rule.allows s b → (a == b) = true → rule.below s a = rule.below s b

theorem follows_append {rule : Rule σ} {s : σ} {path rest : List Member} :
    rule.Follows s (path ++ rest) ↔ rule.Follows s path ∧ rule.Follows (rule.after s path) rest := by
  induction path generalizing s with
  | nil => simp [Follows, after]
  | cons m path ih => simp only [List.cons_append, Follows, ih, after, List.foldl_cons, and_assoc]

theorem after_append (rule : Rule σ) (s : σ) (path rest : List Member) :
    rule.after s (path ++ rest) = rule.after (rule.after s path) rest :=
  List.foldl_append

end Rule

/-- Every node stands where the rule allows it, apart from its siblings, and has
a value that is good in the state below it. -/
def Obeys (rule : Rule σ) (good : σ → α → Prop) : σ → Forest α → Prop
  | _, nil => True
  | s, cons m v children siblings =>
    rule.allows s m ∧ m ∉ siblings.labels ∧ good (rule.below s m) v ∧
      children.Obeys rule good (rule.below s m) ∧ siblings.Obeys rule good s

variable {rule : Rule σ} {good : σ → α → Prop} {s : σ} {f : Forest α}

theorem Obeys.allows (obeys : f.Obeys rule good s) : ∀ m ∈ f.labels, rule.allows s m := by
  induction f with
  | nil => exact fun m mem => absurd mem List.not_mem_nil
  | cons k v children siblings _ ih =>
    intro m mem
    rcases List.mem_cons.mp mem with rfl | tail
    · exact obeys.1
    · exact ih obeys.2.2.2.2 m tail

theorem mem_labels_branch {make : Nat → α} {update : α → α} {path : List Member} {n : Nat}
    {l : Member} (mem : l ∈ (branch make update path n).labels) : path.head? = some l := by
  rcases path with _ | ⟨m, _ | ⟨k, path⟩⟩
  · exact absurd mem List.not_mem_nil
  · exact congrArg some (List.mem_singleton.mp mem).symm
  · exact congrArg some (List.mem_singleton.mp mem).symm

/-- An update adds at most the first member of its path to the top nodes. -/
theorem mem_labels_upsert {make : Nat → α} {update : α → α} {n : Nat} {path : List Member}
    {l : Member} (mem : l ∈ (f.upsert make update n path).labels) :
    l ∈ f.labels ∨ path.head? = some l := by
  induction f with
  | nil => exact Or.inr (mem_labels_branch mem)
  | cons k v children siblings _ ih =>
    cases path with
    | nil => exact Or.inl mem
    | cons m path =>
      rw [upsert] at mem
      split at mem
      · split at mem <;> exact Or.inl mem
      · rcases List.mem_cons.mp mem with rfl | tail
        · exact Or.inl List.mem_cons_self
        · exact (ih tail).imp_left (List.mem_cons_of_mem _)

theorem labels_adjust (f : Forest α) (update : α → α) (path : List Member) :
    (f.adjust update path).labels = f.labels := by
  induction f with
  | nil => rfl
  | cons k v children siblings _ ih =>
    cases path with
    | nil => rfl
    | cons m path =>
      rw [adjust]
      split
      · split <;> rfl
      · rw [labels, labels, ih]

theorem obeys_branch {make : Nat → α} {update : α → α} {path : List Member} {n : Nat}
    (fresh : ∀ s n, good s (make n)) (follows : rule.Follows s path)
    (keeps : ∀ v, good (rule.after s path) v → good (rule.after s path) (update v)) :
    (branch make update path n).Obeys rule good s := by
  induction path generalizing s n with
  | nil => trivial
  | cons m path ih =>
    cases path with
    | nil => exact ⟨follows.1, List.not_mem_nil, keeps _ (fresh _ _), trivial, trivial⟩
    | cons k path =>
      exact ⟨follows.1, List.not_mem_nil, fresh _ _, ih follows.2 keeps, trivial⟩

theorem Obeys.upsert (faithful : rule.Faithful) {make : Nat → α} {update : α → α} {n : Nat}
    {path : List Member} (obeys : f.Obeys rule good s) (fresh : ∀ s n, good s (make n))
    (follows : rule.Follows s path)
    (keeps : ∀ v, good (rule.after s path) v → good (rule.after s path) (update v)) :
    (f.upsert make update n path).Obeys rule good s := by
  induction f generalizing s path with
  | nil => exact obeys_branch fresh follows keeps
  | cons k v children siblings ihBelow ihBeside =>
    cases path with
    | nil => exact obeys
    | cons m path =>
      obtain ⟨allowed, apart, value, below, beside⟩ := obeys
      rw [Forest.upsert]
      split
      · rename_i same
        have state := faithful s k m allowed follows.1 same
        split
        · rename_i empty
          obtain rfl := List.isEmpty_iff.mp empty
          refine ⟨allowed, apart, ?_, below, beside⟩
          rw [state] at value ⊢
          exact keeps v value
        · refine ⟨allowed, apart, value, ?_, beside⟩
          rw [state] at below ⊢
          exact ihBelow below follows.2 keeps
      · rename_i different
        refine ⟨allowed, fun mem => ?_, value, below, ihBeside beside follows keeps⟩
        rcases mem_labels_upsert mem with old | new
        · exact apart old
        · cases new
          exact different BEq.rfl

theorem Obeys.adjust (faithful : rule.Faithful) {update : α → α} {path : List Member}
    (obeys : f.Obeys rule good s) (follows : rule.Follows s path)
    (keeps : ∀ v, good (rule.after s path) v → good (rule.after s path) (update v)) :
    (f.adjust update path).Obeys rule good s := by
  induction f generalizing s path with
  | nil => trivial
  | cons k v children siblings ihBelow ihBeside =>
    cases path with
    | nil => exact obeys
    | cons m path =>
      obtain ⟨allowed, apart, value, below, beside⟩ := obeys
      rw [Forest.adjust]
      split
      · rename_i same
        have state := faithful s k m allowed follows.1 same
        split
        · rename_i empty
          obtain rfl := List.isEmpty_iff.mp empty
          refine ⟨allowed, apart, ?_, below, beside⟩
          rw [state] at value ⊢
          exact keeps v value
        · refine ⟨allowed, apart, value, ?_, beside⟩
          rw [state] at below ⊢
          exact ihBelow below follows.2 keeps
      · refine ⟨allowed, ?_, value, below, ihBeside beside follows keeps⟩
        rwa [labels_adjust]

/-- Siblings differ by name. -/
def Apart : Forest α → Prop
  | nil => True
  | cons k _ children siblings =>
    (∀ l ∈ siblings.labels, (k == l) = false) ∧ children.Apart ∧ siblings.Apart

theorem apart_branch {make : Nat → α} {update : α → α} {path : List Member} {n : Nat} :
    (branch make update path n).Apart := by
  induction path generalizing n with
  | nil => trivial
  | cons m path ih =>
    rcases path with _ | ⟨k, path⟩
    · exact ⟨nofun, trivial, trivial⟩
    · exact ⟨nofun, ih, trivial⟩

theorem Apart.upsert (apart : f.Apart) {make : Nat → α} {update : α → α} {path : List Member}
    {n : Nat} : (f.upsert make update n path).Apart := by
  induction f generalizing path with
  | nil => exact apart_branch
  | cons k w children siblings ihBelow ihBeside =>
    obtain ⟨different, below, beside⟩ := apart
    rcases path with _ | ⟨a, path⟩
    · exact ⟨different, below, beside⟩
    · rw [Forest.upsert]
      split
      · split
        · exact ⟨different, below, beside⟩
        · exact ⟨different, ihBelow below, beside⟩
      · rename_i other
        refine ⟨fun l mem => ?_, below, ihBeside beside⟩
        rcases mem_labels_upsert mem with old | new
        · exact different l old
        · cases new
          exact Bool.eq_false_iff.mpr other

theorem Apart.adjust (apart : f.Apart) (update : α → α) (path : List Member) :
    (f.adjust update path).Apart := by
  induction f generalizing path with
  | nil => trivial
  | cons k w children siblings ihBelow ihBeside =>
    obtain ⟨different, below, beside⟩ := apart
    rcases path with _ | ⟨a, path⟩
    · exact ⟨different, below, beside⟩
    · rw [Forest.adjust]
      split
      · split
        · exact ⟨different, below, beside⟩
        · exact ⟨different, ihBelow below path, beside⟩
      · refine ⟨?_, below, ihBeside beside _⟩
        rwa [labels_adjust]

theorem value?_nil (f : Forest α) : f.value? [] = none := by
  cases f <;> rfl

theorem value?_cons (k m : Member) (v : α) (children siblings : Forest α) (path : List Member) :
    (cons k v children siblings).value? (m :: path) =
      if k == m then if path.isEmpty then some v else children.value? path
      else siblings.value? (m :: path) := by
  simp only [value?, find?]
  by_cases here : (k == m) = true
  · cases path <;> simp [here]
  · simp [here]

/-- Nodes are found by name. -/
theorem value?_congr {p q : List Member} (same : p.map Member.uniqueName = q.map Member.uniqueName)
    (f : Forest α) : f.value? p = f.value? q := by
  induction f generalizing p q with
  | nil => rfl
  | cons k v children siblings ihBelow ihBeside =>
    rcases p with _ | ⟨a, p⟩ <;> rcases q with _ | ⟨b, q⟩
    · rfl
    · cases same
    · cases same
    · obtain ⟨head, tail⟩ := List.cons.inj same
      have label : (k == a) = (k == b) := BEq.congr_right (Member.beq_iff.mpr head)
      have empty : p.isEmpty = q.isEmpty := by
        rw [← List.isEmpty_map (f := Member.uniqueName), tail, List.isEmpty_map]
      rw [value?_cons, value?_cons, label, empty, ihBelow tail, ihBeside same]

/-- The number that a new node at the end of a path is made from. -/
def fresh (f : Forest α) (n : Nat) (path : List Member) : Nat :=
  n + f.missing path.dropLast

theorem fresh_cons_cons (k a b : Member) (v : α) (children siblings : Forest α) (n : Nat)
    (path : List Member) : (cons k v children siblings).fresh n (a :: b :: path) =
      if k == a then children.fresh n (b :: path) else siblings.fresh n (a :: b :: path) := by
  simp only [fresh, List.dropLast_cons_cons, missing]
  split <;> rfl

theorem fresh_nil_cons (n : Nat) (a b : Member) (path : List Member) :
    (nil : Forest α).fresh n (a :: b :: path) = (nil : Forest α).fresh (n + 1) (b :: path) := by
  rcases path with _ | ⟨c, path⟩
  · rfl
  · simp only [fresh, List.dropLast_cons_cons, missing, List.length_cons]
    omega

section

variable {make : Nat → α} {update : α → α} {n : Nat} {path p : List Member}

theorem value?_branch_of_prefix (any : p ≠ []) (on : p.isPrefixOf path = true) :
    (branch make update path n).value? p = some
      ((if p.length = path.length then update else id) (make ((nil : Forest α).fresh n p))) := by
  induction path generalizing p n with
  | nil => cases p <;> simp_all
  | cons m path ih =>
    obtain ⟨a, p, rfl⟩ := List.exists_cons_of_ne_nil any
    rw [List.isPrefixOf_cons_cons, Bool.and_eq_true] at on
    have here : (m == a) = true := BEq.symm on.1
    rcases path with _ | ⟨k, path⟩ <;> rcases p with _ | ⟨b, p⟩
    · simp [branch, value?_cons, here, fresh, missing]
    · cases on.2
    · simp [branch, value?_cons, here, fresh, missing]
    · have later := ih (n := n + 1) (List.cons_ne_nil b p) on.2
      rw [fresh_nil_cons]
      simpa [branch, value?_cons, here] using later

theorem value?_branch_of_not_prefix (off : p.isPrefixOf path = false) :
    (branch make update path n).value? p = none := by
  induction path generalizing p n with
  | nil => rfl
  | cons m path ih =>
    rcases p with _ | ⟨a, p⟩
    · cases off
    · rw [List.isPrefixOf_cons_cons, Bool.and_eq_false_iff] at off
      rcases path with _ | ⟨k, path⟩
      · rw [branch, value?_cons]
        by_cases here : (m == a) = true
        · rcases p with _ | ⟨b, p⟩
          · simp [BEq.symm here] at off
          · simp [here, value?, find?]
        · simp [here, value?, find?]
      · rw [branch, value?_cons]
        · by_cases here : (m == a) = true
          · rcases p with _ | ⟨b, p⟩
            · simp [BEq.symm here] at off
            · simpa [here] using ih (off.resolve_left (by simp [BEq.symm here]))
          · simp [here, value?, find?]
        · exact List.cons_ne_nil k path

theorem beq_eq_isPrefixOf_and_length (p path : List Member) :
    (p == path) = (p.isPrefixOf path && p.length == path.length) := by
  induction p generalizing path with
  | nil => cases path <;> simp
  | cons a p ih =>
    cases path with
    | nil => simp
    | cons b path => simp [ih, List.isPrefixOf_cons_cons, Bool.and_assoc]

/-- An update touches the node at the end of its path, and makes the nodes on the
way that are missing. -/
theorem value?_upsert_of_prefix (any : p ≠ []) (on : p.isPrefixOf path = true) :
    (f.upsert make update n path).value? p = some
      ((if p.length = path.length then update else id)
        ((f.value? p).getD (make (f.fresh n p)))) := by
  induction f generalizing path p with
  | nil => exact value?_branch_of_prefix any on
  | cons k v children siblings ihBelow ihBeside =>
    obtain ⟨a, p, rfl⟩ := List.exists_cons_of_ne_nil any
    rcases path with _ | ⟨m, path⟩
    · cases on
    · have parts := on
      rw [List.isPrefixOf_cons_cons, Bool.and_eq_true] at parts
      have labels : (k == m) = (k == a) := BEq.congr_right (BEq.symm parts.1)
      by_cases here : (k == a) = true
      · rcases path with _ | ⟨l, path⟩ <;> rcases p with _ | ⟨b, p⟩
        · simp [Forest.upsert, labels, here, value?_cons]
        · cases parts.2
        · simp [Forest.upsert, labels, here, value?_cons]
        · have below := ihBelow (List.cons_ne_nil b p) parts.2
          rw [fresh_cons_cons, if_pos here]
          simpa [Forest.upsert, labels, here, value?_cons] using below
      · have fresh : (cons k v children siblings).fresh n (a :: p) = siblings.fresh n (a :: p) := by
          rcases p with _ | ⟨b, p⟩
          · simp [Forest.fresh, missing]
          · rw [fresh_cons_cons, if_neg here]
        rw [fresh, Forest.upsert, labels, if_neg here, value?_cons, if_neg here, value?_cons,
          if_neg here]
        exact ihBeside any on

/-- All nodes beside the path of an update stay as they are. -/
theorem value?_upsert_of_not_prefix (off : p.isPrefixOf path = false) :
    (f.upsert make update n path).value? p = f.value? p := by
  induction f generalizing path p with
  | nil => exact value?_branch_of_not_prefix off
  | cons k v children siblings ihBelow ihBeside =>
    rcases path with _ | ⟨m, path⟩
    · rfl
    · rcases p with _ | ⟨a, p⟩
      · cases off
      · rw [Forest.upsert]
        have parts := off
        rw [List.isPrefixOf_cons_cons, Bool.and_eq_false_iff] at parts
        by_cases here : (k == m) = true
        · rw [if_pos here]
          by_cases there : (k == a) = true
          · have rest := parts.resolve_left (by simp [BEq.trans (BEq.symm there) here])
            rcases path with _ | ⟨l, path⟩ <;> rcases p with _ | ⟨b, p⟩
            · cases rest
            · simp [value?_cons, there]
            · cases rest
            · simpa [value?_cons, there] using ihBelow rest
          · split <;> simp [value?_cons, there]
        · rw [if_neg here, value?_cons, value?_cons, ihBeside off]

/-- An adjustment touches the node at the end of its path and no other. -/
theorem value?_adjust (any : path ≠ []) :
    (f.adjust update path).value? p = if p == path then (f.value? p).map update else f.value? p := by
  induction f generalizing path p with
  | nil => simp [Forest.adjust, value?, find?]
  | cons k v children siblings ihBelow ihBeside =>
    obtain ⟨m, path, rfl⟩ := List.exists_cons_of_ne_nil any
    rcases p with _ | ⟨a, p⟩
    · rw [value?_nil, value?_nil, Option.map_none, ite_self]
    · by_cases here : (k == m) = true
      · by_cases there : (k == a) = true
        · have same : (a == m) = true := BEq.trans (BEq.symm there) here
          rcases path with _ | ⟨b, path⟩ <;> rcases p with _ | ⟨c, p⟩
          · simp [Forest.adjust, value?_cons, here, there, same]
          · simp [Forest.adjust, value?_cons, here, there]
          · simp [Forest.adjust, value?_cons, here, there]
          · have below := ihBelow (p := c :: p) (List.cons_ne_nil b path)
            simpa [Forest.adjust, value?_cons, here, there, same] using below
        · have other : (a == m) = false :=
            Bool.eq_false_iff.mpr fun same => there (BEq.trans here (BEq.symm same))
          rw [Forest.adjust, if_pos here]
          split <;> simp [value?_cons, there, other]
      · rw [Forest.adjust, if_neg here]
        by_cases there : (k == a) = true
        · have other : (a == m) = false :=
            Bool.eq_false_iff.mpr fun same => here (BEq.trans there same)
          simp [value?_cons, there, other]
        · have beside := ihBeside (p := a :: p) (List.cons_ne_nil m path)
          simpa [value?_cons, there] using beside

end

end CubeAxis.Forest
