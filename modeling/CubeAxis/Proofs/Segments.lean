import CubeAxis.Proofs.Hierarchy
import Mathlib.Data.List.Infix

namespace CubeAxis

/-- No proper start of the separator is an end of it, so that two of them never overlap. -/
def Unbordered (sep : List Char) : Prop :=
  sep ≠ [] ∧ ∀ t, t <+: sep → t <:+ sep → t = [] ∨ t = sep

section

variable {sep xs ys r s : List Char} {ws vs : List (List Char)}

theorem Unbordered.start_unique (unbordered : Unbordered sep) (free : ¬ sep <:+: ys)
    (shorter : xs <+: ys) (same : xs ++ (sep ++ r) = ys ++ (sep ++ s)) : xs = ys := by
  obtain ⟨t, rfl⟩ := shorter
  rw [List.append_assoc, List.append_cancel_left_eq] at same
  suffices nothing : t = [] by rw [nothing, List.append_nil]
  rcases Nat.lt_or_ge t.length sep.length with short | long
  · -- the rest of the separator after `t` is a start of the separator
    have start : t <+: sep :=
      List.prefix_of_prefix_length_le (same ▸ List.prefix_append t _) (List.prefix_append sep r)
        (Nat.le_of_lt short)
    obtain ⟨u, rfl⟩ := start
    rw [List.append_assoc, List.append_cancel_left_eq] at same
    have whole : u <+: t ++ u :=
      List.prefix_of_prefix_length_le (same ▸ List.prefix_append u r)
        (List.prefix_append (t ++ u) s) (by simp)
    rcases unbordered.2 u whole (List.suffix_append t u) with rfl | equal
    · simp at short
    · exact List.length_eq_zero_iff.mp (by simpa using congrArg List.length equal)
  · have inside : sep <+: t :=
      List.prefix_of_prefix_length_le (List.prefix_append sep r) (same ▸ List.prefix_append t _)
        long
    exact absurd (inside.isInfix.trans (List.suffix_append xs t).isInfix) free

/-- Words without the separator are found again in what is written before it. -/
theorem Unbordered.cut_unique (unbordered : Unbordered sep) (left : ¬ sep <:+: xs)
    (right : ¬ sep <:+: ys) (same : xs ++ (sep ++ r) = ys ++ (sep ++ s)) : xs = ys ∧ r = s := by
  have equal : xs = ys := by
    rcases List.prefix_or_prefix_of_prefix (List.prefix_append xs _)
      (same ▸ List.prefix_append ys _) with shorter | longer
    · exact unbordered.start_unique right shorter same
    · exact (unbordered.start_unique left longer same.symm).symm
  subst equal
  simpa using same

/-- Words without the separator can be read off the text that joins them. -/
theorem Unbordered.intercalate_inj (unbordered : Unbordered sep)
    (left : ∀ w ∈ ws, ¬ sep <:+: w) (right : ∀ v ∈ vs, ¬ sep <:+: v) (some : ws ≠ [])
    (some' : vs ≠ []) (same : sep.intercalate ws = sep.intercalate vs) : ws = vs := by
  induction ws generalizing vs with
  | nil => exact absurd rfl some
  | cons w ws ih =>
    obtain ⟨v, vs, rfl⟩ := List.exists_cons_of_ne_nil some'
    have freeW := left w List.mem_cons_self
    have freeV := right v List.mem_cons_self
    have inside : ∀ (u u' : List Char), sep <:+: u ++ sep ++ u' := fun u u' => ⟨u, u', rfl⟩
    rcases ws with _ | ⟨w', ws⟩ <;> rcases vs with _ | ⟨v', vs⟩
    · simpa using same
    · rw [List.intercalate_singleton, List.intercalate_cons_cons] at same
      exact absurd (same ▸ inside v _) freeW
    · rw [List.intercalate_singleton, List.intercalate_cons_cons] at same
      exact absurd (same ▸ inside w _) freeV
    · rw [List.intercalate_cons_cons, List.intercalate_cons_cons, List.append_assoc,
        List.append_assoc] at same
      obtain ⟨rfl, rest⟩ := unbordered.cut_unique freeW freeV same
      rw [ih (fun u mem => left u (List.mem_cons_of_mem _ mem))
        (fun u mem => right u (List.mem_cons_of_mem _ mem)) (List.cons_ne_nil _ _)
        (List.cons_ne_nil _ _) rest]

end

theorem Unbordered.join_inj {sep : String} {ws vs : List String} (unbordered : Unbordered sep.toList)
    (left : ∀ w ∈ ws, ¬ sep.toList <:+: w.toList) (right : ∀ v ∈ vs, ¬ sep.toList <:+: v.toList)
    (some : ws ≠ []) (some' : vs ≠ []) (same : sep.intercalate ws = sep.intercalate vs) :
    ws = vs := by
  rw [← String.toList_inj, String.toList_intercalate, String.toList_intercalate] at same
  have lists := unbordered.intercalate_inj (List.forall_mem_map.mpr left)
    (List.forall_mem_map.mpr right) (mt List.map_eq_nil_iff.mp some)
    (mt List.map_eq_nil_iff.mp some') same
  exact (List.map_inj_right fun _ _ => String.toList_inj.mp).mp lists

theorem toList_slash : "/".toList = ['/'] :=
  rfl

theorem slash_unbordered : Unbordered "/".toList := by
  rw [toList_slash]
  refine ⟨List.cons_ne_nil _ _, fun t start _ => ?_⟩
  simp only [List.prefix_cons_iff, List.prefix_nil] at start
  rcases start with rfl | ⟨_, rfl, rfl⟩
  · exact Or.inl rfl
  · exact Or.inr rfl

/-- What stands between the names in a unique name. -/
def bracketing : String := "].["

theorem toList_bracketing : bracketing.toList = [']', '.', '['] :=
  rfl

theorem bracketing_unbordered : Unbordered bracketing.toList := by
  rw [toList_bracketing]
  refine ⟨List.cons_ne_nil _ _, fun t start finish => ?_⟩
  simp only [List.prefix_cons_iff, List.prefix_nil] at start
  rcases start with rfl | ⟨_, rfl, rfl | ⟨_, rfl, rfl | ⟨_, rfl, rfl⟩⟩⟩
  · exact Or.inl rfl
  · exact absurd finish (by decide)
  · exact absurd finish (by decide)
  · exact Or.inr rfl

namespace Member

variable {a b m p : Member}

/-- The names from the root down to a member. -/
def segments (m : Member) : List String :=
  m.pathFromRoot.map name

theorem segments_ne_nil (m : Member) : m.segments ≠ [] := by
  rw [segments, ne_eq, List.map_eq_nil_iff]
  exact pathFromRoot_ne_nil m

theorem segments_child (p : Member) (n l : String) : (child p n l).segments = p.segments ++ [n] := by
  rw [segments, pathFromRoot_of_parent? (p := p) rfl, List.map_append]
  rfl

theorem path_eq (m : Member) : m.path = "/".intercalate m.segments := by
  induction m with
  | root h n l => simp [path, segments, pathFromRoot, upward, name]
  | child p n l ih =>
    rw [segments_child, String.intercalate_append_of_ne_nil p.segments_ne_nil (List.cons_ne_nil n []),
      String.intercalate_singleton, path, ih]

theorem uniqueName_eq (m : Member) :
    m.uniqueName = "[" ++ m.hierarchy ++ bracketing ++ bracketing.intercalate m.segments ++ "]" := by
  induction m with
  | root h n l => simp [uniqueName, segments, pathFromRoot, upward, name, hierarchy, bracketing]
  | child p n l ih =>
    rw [segments_child, String.intercalate_append_of_ne_nil p.segments_ne_nil (List.cons_ne_nil n []),
      String.intercalate_singleton, uniqueName, ih, hierarchy]
    simp [bracketing, String.append_assoc]

/-- Names that hold no bracketing can be read off a unique name. -/
theorem segments_eq_of_uniqueName (home : a.hierarchy = b.hierarchy)
    (plainA : ∀ n ∈ a.segments, ¬ bracketing.toList <:+: n.toList)
    (plainB : ∀ n ∈ b.segments, ¬ bracketing.toList <:+: n.toList)
    (same : a.uniqueName = b.uniqueName) : a.segments = b.segments := by
  rw [uniqueName_eq, uniqueName_eq, home, String.append_left_inj, String.append_right_inj] at same
  exact bracketing_unbordered.join_inj plainA plainB a.segments_ne_nil b.segments_ne_nil same

/-- From the member up all names are such as builders take. -/
def Proper (m : Member) : Prop :=
  ∀ k ∈ m.upward, k.name ≠ "" ∧ '/' ∉ k.name.toList

theorem Proper.above {k : Member} (proper : m.Proper) (above : k ∈ m.upward) : k.Proper :=
  fun l atop => proper l (mem_upward_trans atop above)

theorem Proper.path_ne_nil (proper : m.Proper) : m.path.toList ≠ [] := by
  cases m with
  | root h n l =>
    have name := (proper _ (mem_upward_self _)).1
    exact fun empty => name (String.toList_inj.mp empty)
  | child p n l => simp [path]

/-- No slash stands at the ends of a path. -/
theorem Proper.path_ends (proper : m.Proper) :
    m.path.toList.head? ≠ some '/' ∧ m.path.toList.getLast? ≠ some '/' := by
  have slashFree := (proper m (mem_upward_self m)).2
  induction m with
  | root h n l =>
    exact ⟨fun first => slashFree (List.mem_of_head? first),
      fun last => slashFree (List.mem_of_getLast? last)⟩
  | child p n l ih =>
    have above : p.Proper := proper.above (mem_upward_of_ancestors p.mem_upward_self)
    have some : n.toList ≠ [] := by
      have name := (proper _ (mem_upward_self (child p n l))).1
      exact fun empty => name (String.toList_inj.mp empty)
    rw [path, String.toList_append, String.toList_append, List.append_assoc]
    constructor
    · rw [List.head?_append_of_ne_nil _ above.path_ne_nil]
      exact (ih above (above p p.mem_upward_self).2).1
    · rw [← List.append_assoc, List.getLast?_append_of_ne_nil _ some]
      exact fun last => slashFree (List.mem_of_getLast? last)

/-- Proper names can be read off a path. -/
theorem segments_eq_of_path (properA : a.Proper) (properB : b.Proper) (same : a.path = b.path) :
    a.segments = b.segments := by
  have free : ∀ m : Member, m.Proper → ∀ n ∈ m.segments, ¬ "/".toList <:+: n.toList := by
    intro m proper n name
    obtain ⟨k, above, rfl⟩ := List.mem_map.mp name
    rw [toList_slash, List.singleton_infix_iff]
    exact (proper k (mem_pathFromRoot.mp above)).2
  rw [path_eq, path_eq] at same
  exact slash_unbordered.join_inj (free a properA) (free b properB) a.segments_ne_nil
    b.segments_ne_nil same

/-- Members of one hierarchy with one path have one unique name. -/
theorem beq_of_path (properA : a.Proper) (properB : b.Proper) (home : a.hierarchy = b.hierarchy)
    (same : a.path = b.path) : (a == b) = true := by
  rw [beq_iff, uniqueName_eq, uniqueName_eq, home, segments_eq_of_path properA properB same]

/-- The path of a member goes on from that of one above it. -/
theorem path_of_mem_ancestors (above : a ∈ m.ancestors) : ∃ rest, m.path = a.path ++ "/" ++ rest := by
  induction m with
  | root => exact absurd above List.not_mem_nil
  | child p n l ih =>
    rcases mem_upward_iff.mp above with rfl | higher
    · exact ⟨n, rfl⟩
    · obtain ⟨rest, same⟩ := ih higher
      exact ⟨rest ++ "/" ++ n, by rw [path, same]; simp only [String.append_assoc]⟩

/-- Where a path goes on from another, some member above has the shorter one. -/
theorem exists_mem_ancestors_of_path (proper : m.Proper) {start rest : String}
    (same : m.path = start ++ "/" ++ rest) : ∃ k ∈ m.ancestors, k.path = start := by
  induction m generalizing rest with
  | root h n l =>
    have slashed : '/' ∈ n.toList := by
      rw [show n = start ++ "/" ++ rest from same]
      simp
    exact absurd slashed (proper _ (mem_upward_self _)).2
  | child p n l ih =>
    have free : '/' ∉ n.toList := (proper _ (mem_upward_self (child p n l))).2
    have self : p ∈ (child p n l).ancestors := p.mem_upward_self
    have lists := congrArg String.toList same
    simp only [path, String.toList_append, List.append_assoc, List.singleton_append,
      toList_slash] at lists
    rcases List.append_eq_append_iff.mp lists with ⟨cs, longer, rest⟩ | ⟨cs, shorter, rest⟩
    · rcases cs with _ | ⟨c, cs⟩
      · rw [List.append_nil] at longer
        exact ⟨p, self, (String.toList_inj.mp longer).symm⟩
      · rw [(List.cons_eq_cons.mp rest).2] at free
        exact absurd (List.mem_append_right cs List.mem_cons_self) free
    · rcases cs with _ | ⟨c, cs⟩
      · rw [List.append_nil] at shorter
        exact ⟨p, self, String.toList_inj.mp shorter⟩
      · obtain ⟨rfl, _⟩ := List.cons_eq_cons.mp rest
        have deeper : p.path = start ++ "/" ++ String.ofList cs := by
          rw [← String.toList_inj, shorter]
          simp
        obtain ⟨k, above, found⟩ := ih (proper.above (mem_upward_of_ancestors self)) deeper
        exact ⟨k, mem_upward_of_ancestors above, found⟩

end Member
end CubeAxis
