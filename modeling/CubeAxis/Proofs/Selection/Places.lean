import CubeAxis.Proofs.Places
import CubeAxis.Proofs.Selection.Node
import CubeAxis.Proofs.Selection.Numbers

namespace CubeAxis
namespace Forest

/-- All nodes in pre-order, each in its surroundings. -/
def sites (i : Inherited) : Forest Override → List Site
  | nil => []
  | cons m o children siblings =>
    ⟨some (m, i), o.state, o.sequence, children⟩ ::
      (children.sites (i.handDown o.state) ++ siblings.sites i)

variable {i : Inherited} {f : Forest Override} {place rest : List Nat} {n k : Nat} {s : Site}

theorem map_sites (i : Inherited) (f : Forest Override) :
    (f.sites i).map (fun s => (s.member?, s.state, s.sequence)) =
      f.nodes.map fun p => (some p.1, p.2.state, p.2.sequence) := by
  induction f generalizing i with
  | nil => rfl
  | cons m o children siblings ihBelow ihBeside =>
    simp only [sites, nodes, List.map_cons, List.map_append, ihBelow, ihBeside]
    rfl

theorem map_sequence_sites (i : Inherited) (f : Forest Override) :
    (f.sites i).map (·.sequence) = f.numbers := by
  have parts := congrArg (List.map fun p => p.2.2) (f.map_sites i)
  rwa [List.map_map, List.map_map] at parts

theorem siteAt?_cons_zero (m : Member) (o : Override) (children siblings : Forest Override)
    (any : place ≠ []) : (cons m o children siblings).siteAt? i (0 :: place) =
      children.siteAt? (i.handDown o.state) place := by
  cases place with
  | nil => exact absurd rfl any
  | cons k rest => rfl

theorem map_siteAt? (i : Inherited) (f : Forest Override) (place : List Nat) :
    (f.siteAt? i place).map (fun s => (s.member?, s.state, s.sequence)) =
      (f.nodeAt? place).map fun p => (some p.1, p.2.state, p.2.sequence) := by
  induction f generalizing i place with
  | nil => rfl
  | cons m o children siblings ihBelow ihBeside =>
    rcases place with _ | ⟨_ | k, place⟩
    · rfl
    · rcases place with _ | ⟨l, place⟩
      · rfl
      · exact ihBelow _ _
    · exact ihBeside _ _

/-- The places are those of the sites, in the same order. -/
theorem map_siteAt?_places (i : Inherited) (f : Forest Override) :
    (f.places 0).map (f.siteAt? i) = (f.sites i).map some := by
  induction f generalizing i with
  | nil => rfl
  | cons m o children siblings ihBelow ihBeside =>
    rw [map_places_cons, sites, List.map_cons, List.map_append, ← ihBelow, ← ihBeside]
    congr 2
    · exact children.map_places_congr (fun _ _ => by rfl) 0
    · exact siblings.map_places_congr (fun _ _ => by rfl) 0

theorem filterMap_siteAt?_places (i : Inherited) (f : Forest Override) :
    (f.places 0).filterMap (f.siteAt? i) = f.sites i := by
  have found := congrArg (List.filterMap id) (map_siteAt?_places i f)
  rwa [List.filterMap_map, List.filterMap_map, Function.id_comp, Function.id_comp,
    List.filterMap_some] at found

theorem mem_places_iff (i : Inherited) : place ∈ f.places 0 ↔ ∃ s, f.siteAt? i place = some s := by
  have same := congrArg Option.isSome (f.map_siteAt? i place)
  rw [Option.isSome_map, Option.isSome_map] at same
  rw [mem_places_iff_nodeAt?, ← Option.isSome_iff_exists, ← Option.isSome_iff_exists, same]

theorem mem_sites_of_siteAt? (found : f.siteAt? i place = some s) : s ∈ f.sites i := by
  have image := List.mem_map_of_mem (f := f.siteAt? i) ((mem_places_iff i).mpr ⟨s, found⟩)
  rw [map_siteAt?_places, found] at image
  obtain ⟨r, mem, same⟩ := List.mem_map.mp image
  exact Option.some.inj same ▸ mem

theorem exists_place_of_mem_sites (mem : s ∈ f.sites i) : ∃ place, f.siteAt? i place = some s := by
  have image := List.mem_map_of_mem (f := some) mem
  rw [← map_siteAt?_places] at image
  obtain ⟨place, _, found⟩ := List.mem_map.mp image
  exact ⟨place, found⟩

/-- A site shows the label and the value of its node. -/
theorem exists_node_of_siteAt? (found : f.siteAt? i place = some s) :
    ∃ m o, (m, o) ∈ f.nodes ∧ s.member? = some m ∧ s.state = o.state ∧ s.sequence = o.sequence := by
  have image := List.mem_map_of_mem (f := fun s : Site => (s.member?, s.state, s.sequence))
    (mem_sites_of_siteAt? found)
  rw [map_sites] at image
  obtain ⟨⟨m, o⟩, mem, same⟩ := List.mem_map.mp image
  simp only [Prod.mk.injEq] at same
  exact ⟨m, o, mem, same.1.symm, same.2.1.symm, same.2.2.symm⟩

theorem exists_siteAt?_of_node (i : Inherited) {m : Member} {o : Override} (mem : (m, o) ∈ f.nodes) :
    ∃ place s, f.siteAt? i place = some s ∧ s.member? = some m := by
  have image := List.mem_map_of_mem (f := fun p : Member × Override =>
    (some p.1, p.2.state, p.2.sequence)) mem
  rw [← map_sites i] at image
  obtain ⟨s, listed, same⟩ := List.mem_map.mp image
  obtain ⟨place, found⟩ := exists_place_of_mem_sites listed
  exact ⟨place, s, found, (Prod.mk.inj same).1⟩

/-- Further down, the site of a node takes over. -/
theorem siteAt?_append (found : f.siteAt? i place = some s) (any : rest ≠ []) :
    f.siteAt? i (place ++ rest) = s.children.siteAt? s.handsDown rest := by
  induction f generalizing i place with
  | nil => cases found
  | cons m o children siblings ihBelow ihBeside =>
    rcases place with _ | ⟨_ | k, place⟩
    · cases found
    · rcases place with _ | ⟨l, place⟩
      · cases found
        exact siteAt?_cons_zero m o children siblings any
      · exact ihBelow found
    · exact ihBeside found

theorem exists_siteAt?_of_append (any : place ≠ []) (found : f.siteAt? i (place ++ rest) = some s) :
    ∃ r, f.siteAt? i place = some r := by
  induction f generalizing i place with
  | nil => cases found
  | cons m o children siblings ihBelow ihBeside =>
    rcases place with _ | ⟨_ | k, place⟩
    · exact absurd rfl any
    · rcases place with _ | ⟨l, place⟩
      · exact ⟨_, rfl⟩
      · exact ihBelow (List.cons_ne_nil l place) found
    · exact ihBeside (List.cons_ne_nil k place) found

/-- The top nodes are numbered as their labels are, and are handed what the forest is. -/
theorem label_siteAt?_singleton (i : Inherited) (f : Forest Override) (k : Nat) :
    (f.siteAt? i [k]).map Site.label = f.labels[k]?.map fun m => some (m, i) := by
  induction f generalizing k with
  | nil => rfl
  | cons m o children siblings _ ihBeside =>
    cases k with
    | zero => rfl
    | succ k => exact ihBeside k

theorem member?_siteAt?_singleton (i : Inherited) (f : Forest Override) (k : Nat) :
    (f.siteAt? i [k]).map Site.member? = f.labels[k]?.map some := by
  have labels := congrArg (Option.map (Option.map (·.1))) (f.label_siteAt?_singleton i k)
  rwa [Option.map_map, Option.map_map] at labels

theorem Rising.lt_of_mem_numbers (rising : f.Rising n) (mem : k ∈ f.numbers) : n < k := by
  induction f generalizing n with
  | nil => exact absurd mem List.not_mem_nil
  | cons m o children siblings ihBelow ihBeside =>
    obtain ⟨above, below, beside⟩ := rising
    rw [numbers_cons] at mem
    rcases List.mem_cons.mp mem with rfl | later
    · exact above
    · rcases List.mem_append.mp later with lower | further
      · exact Nat.lt_trans above (ihBelow below lower)
      · exact ihBeside beside further

/-- A node is found at the head of a forest that has what passes from each forest to the
one below its first node and to the rest. -/
theorem exists_cons_of_siteAt? {σ : Type} (holds : σ → Forest Override → Prop)
    (next : σ → Member → Override → σ)
    (passes : ∀ c m o children siblings, holds c (cons m o children siblings) →
      holds (next c m o) children ∧ holds c siblings)
    {c : σ} (start : holds c f) (found : f.siteAt? i place = some s) :
    ∃ d m o siblings, holds d (cons m o s.children siblings) ∧ s.member? = some m ∧
      s.sequence = o.sequence := by
  induction f generalizing i place c with
  | nil => cases found
  | cons m o children siblings ihBelow ihBeside =>
    obtain ⟨below, beside⟩ := passes c m o children siblings start
    rcases place with _ | ⟨_ | k, place⟩
    · cases found
    · rcases place with _ | ⟨l, place⟩
      · cases found
        exact ⟨c, m, o, siblings, start, rfl, rfl⟩
      · exact ihBelow below found
    · exact ihBeside beside found

/-- Numbers go up from a node that is found to all below it. -/
theorem Rising.of_siteAt? (rising : f.Rising n) (found : f.siteAt? i place = some s) :
    n < s.sequence ∧ s.children.Rising s.sequence := by
  have passes : ∀ low m (o : Override) children siblings,
      n ≤ low ∧ (cons m o children siblings).Rising low →
        (n ≤ o.sequence ∧ children.Rising o.sequence) ∧ n ≤ low ∧ siblings.Rising low := by
    intro low m o children siblings given
    obtain ⟨bound, above, below, beside⟩ := given
    exact ⟨⟨by omega, below⟩, bound, beside⟩
  obtain ⟨low, m, o, siblings, ⟨bound, above, below, -⟩, -, number⟩ :=
    exists_cons_of_siteAt? (fun low g => n ≤ low ∧ g.Rising low) (fun _ _ o => o.sequence) passes
      ⟨Nat.le_refl n, rising⟩ found
  rw [number]
  exact ⟨Nat.lt_of_le_of_lt bound above, below⟩

section

variable {m : Member} {o : Override} {g : Forest Override}

theorem exists_appendAt? (m : Member) (o : Override) (f : Forest Override)
    (live : place = [] ∨ ∃ s, f.siteAt? i place = some s) : ∃ g, f.appendAt? m o place = some g := by
  induction f generalizing i place with
  | nil =>
    rcases live with rfl | ⟨_, found⟩
    · exact ⟨_, rfl⟩
    · cases found
  | cons l v children siblings ihBelow ihBeside =>
    rcases place with _ | ⟨_ | k, place⟩
    · obtain ⟨g, made⟩ := ihBeside (i := i) (Or.inl rfl)
      exact ⟨_, congrArg (Option.map _) made⟩
    · have lower : place = [] ∨ ∃ s, children.siteAt? (i.handDown v.state) place = some s := by
        rcases live with none | ⟨s, found⟩
        · cases none
        · refine or_iff_not_imp_left.mpr fun any => ⟨s, ?_⟩
          rwa [siteAt?_cons_zero l v children siblings any] at found
      obtain ⟨g, made⟩ := ihBelow lower
      exact ⟨_, congrArg (Option.map _) made⟩
    · have later : k :: place = [] ∨ ∃ s, siblings.siteAt? i (k :: place) = some s :=
        live.imp_left nofun
      obtain ⟨g, made⟩ := ihBeside later
      exact ⟨_, congrArg (Option.map _) made⟩

theorem nodes_appendAt? {α : Type} {f g : Forest α} {v : α}
    (made : f.appendAt? m v place = some g) : g.nodes.Perm (f.nodes ++ [(m, v)]) := by
  induction f generalizing place g with
  | nil =>
    cases place with
    | nil => cases made; exact .refl _
    | cons k place => cases made
  | cons l w children siblings ihBelow ihBeside =>
    rcases place with _ | ⟨_ | k, place⟩
    · obtain ⟨beside, step, rfl⟩ := Option.map_eq_some_iff.mp made
      simpa [nodes] using (ihBeside step).append_left children.nodes
    · obtain ⟨below, step, rfl⟩ := Option.map_eq_some_iff.mp made
      have lower := (ihBelow step).append_right siblings.nodes
      refine List.Perm.cons _ (lower.trans ?_)
      show (children.nodes ++ [(m, v)] ++ siblings.nodes).Perm
        (children.nodes ++ siblings.nodes ++ [(m, v)])
      rw [List.append_assoc, List.append_assoc]
      exact List.perm_append_comm.append_left _
    · obtain ⟨beside, step, rfl⟩ := Option.map_eq_some_iff.mp made
      simpa [nodes] using (ihBeside step).append_left children.nodes

theorem Rising.appendAt? (rising : f.Rising n) (made : f.appendAt? m o place = some g)
    (bound : n < o.sequence) (used : ∀ k ∈ f.numbers, k < o.sequence) : g.Rising n := by
  induction f generalizing place g n with
  | nil =>
    cases place with
    | nil => cases made; exact ⟨bound, trivial, trivial⟩
    | cons k place => cases made
  | cons l v children siblings ihBelow ihBeside =>
    obtain ⟨above, below, beside⟩ := rising
    simp only [numbers_cons, List.mem_cons, List.mem_append] at used
    rcases place with _ | ⟨_ | k, place⟩
    · obtain ⟨siblings', step, rfl⟩ := Option.map_eq_some_iff.mp made
      exact ⟨above, below, ihBeside beside step bound fun x mem => used x (Or.inr (Or.inr mem))⟩
    · obtain ⟨children', step, rfl⟩ := Option.map_eq_some_iff.mp made
      refine ⟨above, ihBelow below step (used _ (Or.inl rfl)) fun x mem => ?_, beside⟩
      exact used x (Or.inr (Or.inl mem))
    · obtain ⟨siblings', step, rfl⟩ := Option.map_eq_some_iff.mp made
      exact ⟨above, below, ihBeside beside step bound fun x mem => used x (Or.inr (Or.inr mem))⟩

end

end Forest
end CubeAxis
