import CubeAxis.Arena.Slots
import CubeAxis.Proofs.Arena.Slots
import CubeAxis.Proofs.Selection.Linked.Coherent

namespace CubeAxis

namespace Forest

variable {ι : Type} {f : Forest (ι × Override)} {node? : ι → Option (LinkedNode ι)} {upper i : ι}

theorem Stored.exists_label (stored : f.Stored node? upper) (mem : i ∈ f.heads) :
    ∃ l ∈ f.labels, (node? i).bind LinkedNode.member? = some l := by
  induction f with
  | nil => exact absurd mem List.not_mem_nil
  | cons m v children siblings _ ihBeside =>
    obtain ⟨here, -, beside⟩ := stored
    rcases List.mem_cons.mp mem with rfl | later
    · exact ⟨m, List.mem_cons_self, by rw [here]; rfl⟩
    · obtain ⟨l, label, shown⟩ := ihBeside beside later
      exact ⟨l, List.mem_cons_of_mem _ label, shown⟩

/-- The top nodes differ as their labels do. -/
theorem Stored.pairwise_heads (stored : f.Stored node? upper)
    (apart : f.labels.Pairwise fun a b => (a == b) = false) : f.heads.Pairwise fun i j =>
      ∀ a b, (node? i).bind LinkedNode.member? = some a →
        (node? j).bind LinkedNode.member? = some b → (a == b) = false := by
  induction f with
  | nil => exact .nil
  | cons m v children siblings _ ihBeside =>
    obtain ⟨here, -, beside⟩ := stored
    obtain ⟨different, rest⟩ := List.pairwise_cons.mp apart
    refine List.pairwise_cons.mpr ⟨fun j later a b first second => ?_, ihBeside beside rest⟩
    obtain ⟨l, label, shown⟩ := beside.exists_label later
    obtain rfl : l = b := Option.some.inj (shown.symm.trans second)
    rw [here] at first
    cases first
    exact different l label

end Forest

namespace LinkedTree

open SelectionTree

section

variable {σ ι : Type} [Arena σ ι (LinkedNode ι)]

/-- The member that a node stands for, if there is such a node and it has a member. -/
def memberOf? (t : LinkedTree σ ι) (i : ι) : Option Member :=
  (t.node? i).bind (·.member?)

/-- The actions since the tree was last cleared, all of them within the hierarchy. -/
inductive Since (h : Hierarchy) : List Selection → LinkedTree σ ι → Prop
  | new : Since h [] new
  | apply {as : List Selection} {t u : LinkedTree σ ι} (a : Selection) : Since h as t →
      a.target.Within h → t.apply a = some u → Since h (as ++ [a]) u
  | clear {as : List Selection} {t u : LinkedTree σ ι} : Since h as t → t.clear = some u →
      Since h [] u

/-- The nodes stand where the hierarchy has their members. The members that have a node
are those at or above a member acted on, and each has one. -/
structure Placed (h : Hierarchy) (as : List Selection) (t : LinkedTree σ ι) : Prop where
  siblings : ∀ q upper, t.node? q = some upper → upper.children.Pairwise fun i j =>
    ∀ a b, t.memberOf? i = some a → t.memberOf? j = some b → (a == b) = false
  below : ∀ i p, t.parentOf? i = some p →
    ∃ m ∈ h.members, t.memberOf? i = some m ∧ m.parent? = t.memberOf? p
  acted : ∀ m ∈ h.members, ∃ found, t.findExact? m = some found ∧
    (found.isSome ↔ ∃ a ∈ as, ∃ k, a.target = .member k ∧ m ∈ k.upward) ∧
    ∀ i, found = some i ↔ t.memberOf? i = some m

variable {t : LinkedTree σ ι} {g : Forest (ι × Override)} {s : SelectionTree} {h : Hierarchy}
  {as : List Selection} {i : ι} {m : Member}

theorem Represents.memberOf?_eq (represents : t.Represents g s) {place : List Nat}
    (found : g.indexAt? t.root place = some i) :
    t.memberOf? i = (s.site? ⟨s.epoch, place⟩).bind Site.member? := by
  obtain ⟨r, site, -, shown⟩ := represents.exists_site? found
  rw [memberOf?, shown, site]
  rfl

theorem Represents.siblings_apart (represents : t.Represents g s) (placed : s.Placed h as) {q : ι}
    {upper : LinkedNode ι} (here : t.node? q = some upper) : upper.children.Pairwise fun i j =>
      ∀ a b, t.memberOf? i = some a → t.memberOf? j = some b → (a == b) = false := by
  obtain ⟨place, found⟩ := represents.exists_place (by rw [here]; rfl)
  obtain ⟨r, site, lower, shown⟩ := represents.exists_site? found
  obtain rfl : upper = _ := Option.some.inj (here.symm.trans shown)
  have labels := placed.siblings _ r site
  rw [lower, Forest.labels_map] at labels
  exact (represents.held.under found).stored.pairwise_heads labels

/-- A member is found just if it has a node, and its node is the only one for it. -/
theorem Represents.findExact?_eq_some_iff (represents : t.Represents g s) (placed : s.Placed h as)
    (inside : m ∈ h.members) :
    (if s.hasNode m then t.find m else none) = some i ↔ t.memberOf? i = some m := by
  constructor
  · intro known
    split at known
    · rename_i node
      rw [represents.find_eq] at known
      rw [represents.memberOf?_eq known]
      exact (placed.found m inside).mp node
    · cases known
  · intro member
    have live : (t.node? i).isSome := by
      rw [memberOf?, Option.bind_eq_some_iff] at member
      obtain ⟨node, here, -⟩ := member
      rw [here]
      rfl
    obtain ⟨place, found⟩ := represents.exists_place live
    rw [represents.memberOf?_eq found] at member
    have place : (⟨s.epoch, place⟩ : NodeId) = s.find m := placed.unique _ _ member
    rw [if_pos ((placed.found m inside).mpr (place ▸ member)), represents.find_eq, ← place]
    exact found

theorem since_ofSelections (done : ofSelections as = some t)
    (within : ∀ a ∈ as, a.target.Within h) : t.Since h as := by
  induction as using List.reverseRecOn generalizing t with
  | nil => cases done; exact .new
  | append_singleton as a ih =>
    rw [List.forall_mem_append, List.forall_mem_singleton] at within
    rw [ofSelections, List.foldlM_append, Option.bind_eq_bind, Option.bind_eq_some_iff] at done
    obtain ⟨u, before, step⟩ := done
    rw [List.foldlM_cons, Option.bind_eq_bind, Option.bind_eq_some_iff] at step
    obtain ⟨w, step, same⟩ := step
    cases same
    exact .apply a (ih before within.1) within.2 step

theorem Represents.placed (represents : t.Represents g s) (placed : s.Placed h as) :
    t.Placed h as where
  siblings _ _ := represents.siblings_apart placed
  below i p linked := by
    obtain ⟨place, found⟩ := represents.exists_place (t.isSome_of_parentOf? linked)
    obtain ⟨r, site, -, -⟩ := represents.exists_site? found
    rcases represents.parentOf?_cases found with ⟨-, none⟩ | ⟨upper, k, q, rfl, above, same⟩
    · rw [none] at linked
      cases linked
    · obtain rfl : p = q := Option.some.inj (linked.symm.trans same)
      obtain ⟨u, high, -, -⟩ := represents.exists_site? above
      rw [represents.memberOf?_eq found, represents.memberOf?_eq above, site, high]
      exact placed.below _ _ _ _ (parentId?_eq_some_iff.mpr ⟨k, rfl⟩) site high
  acted m inside := by
    refine ⟨_, represents.findExact?_eq m, ?_,
      fun i => represents.findExact?_eq_some_iff placed inside⟩
    obtain ⟨i, r, found, -, -⟩ := represents.exists_find m
    rw [← placed.acted m inside, found]
    cases s.hasNode m <;> simp

end

variable {σ ι : Type} [Arena σ ι (LinkedNode ι)] [DecidableEq ι] [Arena.Lawful σ]
  {t : LinkedTree σ ι} {h : Hierarchy} {as : List Selection}

theorem Since.exists_represents (since : t.Since h as) :
    ∃ g s, t.Represents g s ∧ s.Since h as := by
  induction since with
  | new => exact ⟨.nil, .empty, represents_new, .empty⟩
  | apply a _ within step ih =>
    obtain ⟨g, s, represents, since⟩ := ih
    obtain ⟨u, k, same, -, -, next⟩ := represents.apply a
    obtain rfl := Option.some.inj (same.symm.trans step)
    exact ⟨k, _, next, .apply a since within⟩
  | clear _ step ih =>
    obtain ⟨g, s, represents, since⟩ := ih
    obtain ⟨u, same, -, next⟩ := represents.clear
    obtain rfl := Option.some.inj (same.symm.trans step)
    exact ⟨.nil, _, next, .clear since⟩

/-- However the tree came about, its nodes fit together. If only actions within one
hierarchy were used, they also stand where the hierarchy has their members. -/
theorem coherent_and_placed (leads : new.Leads t) : t.Coherent ∧
    ∀ (h : Hierarchy) (as : List Selection), h.Sound → (h.members.map Member.uniqueName).Nodup →
      t.Since h as → t.Placed h as := by
  refine ⟨?_, fun h as sound names since => ?_⟩
  · obtain ⟨g, s, follows⟩ := represents_new.follows leads
    exact follows.represents.coherent (follows.leads.sound sound_empty)
  · obtain ⟨g, s, represents, placed⟩ := since.exists_represents
    exact represents.placed (placed.placed ⟨sound, Hierarchy.eq_of_nodup_uniqueNames names⟩)

/-- A month and then its year are included, and the level of months is excluded. -/
def overtaking : List Selection :=
  [.onMember .included .member .january, .onMember .included .descendants .year,
    .onLevel .excluded ⟨"Time", "Month", 1⟩]

/-- The overtaken month has a second node below that of its year. -/
theorem coherent_and_placed_overtaking :
    ∃ (t : LinkedTree (Slots (LinkedNode SlotId)) SlotId) (year : SlotId),
      ofSelections overtaking = some t ∧ t.find .year = some year ∧ t.size = 2 ∧
        t.Placed Hierarchy.calendar overtaking ∧ (t.createChild year .january).2.size = 3 ∧
        (t.createChild year .january).2.Coherent := by
  obtain ⟨t, g, done, represents⟩ :=
    (represents_new (σ := Slots (LinkedNode SlotId))).exists_foldlM overtaking
  obtain ⟨year, r, found, at?, -⟩ := represents.exists_find .year
  have live := represents.isSome_node? at?
  have within : ∀ a ∈ overtaking, a.target.Within Hierarchy.calendar := by
    simp only [overtaking, List.forall_mem_cons]
    exact ⟨Hierarchy.january_mem_calendar, Hierarchy.year_mem_calendar,
      List.mem_cons_of_mem _ List.mem_cons_self, nofun⟩
  obtain ⟨c, u, h, made, -, -, doubled⟩ := represents.createChild at? .january
  refine ⟨t, year, done, found, represents.size_eq.trans (by decide),
    (coherent_and_placed (leads_of_foldlM done)).2 _ _ Hierarchy.calendar_built.sound (by decide)
      (since_ofSelections done within), ?_,
      (coherent_and_placed (.createChild .january (leads_of_foldlM done) live)).1⟩
  rw [made]
  exact doubled.size_eq.trans (by decide)

end LinkedTree
end CubeAxis
