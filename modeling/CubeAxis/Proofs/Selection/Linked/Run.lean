import CubeAxis.Proofs.Selection.Linked.Answers

namespace CubeAxis
namespace LinkedTree

open SelectionTree

variable {σ ι : Type} [Arena σ ι (LinkedNode ι)]

/-- The trees that `t` leads to by actions, by clearing, and by new children of nodes that
are there. -/
inductive Leads (t : LinkedTree σ ι) : LinkedTree σ ι → Prop
  | refl : Leads t t
  | apply {u v : LinkedTree σ ι} (a : Selection) : Leads t u → u.apply a = some v → Leads t v
  | clear {u v : LinkedTree σ ι} : Leads t u → u.clear = some v → Leads t v
  | createChild {u : LinkedTree σ ι} {i : ι} (m : Member) : Leads t u → (u.node? i).isSome →
      Leads t (u.createChild i m).2

theorem Leads.trans {t u w : LinkedTree σ ι} (first : t.Leads u) (second : u.Leads w) :
    t.Leads w := by
  induction second with
  | refl => exact first
  | apply a _ step ih => exact .apply a ih step
  | clear _ step ih => exact .clear ih step
  | createChild m _ live ih => exact .createChild m ih live

theorem leads_of_foldlM {t u : LinkedTree σ ι} {as : List Selection}
    (done : as.foldlM LinkedTree.apply t = some u) : t.Leads u := by
  induction as generalizing t with
  | nil => cases done; exact .refl
  | cons a as ih =>
    obtain ⟨v, step, rest⟩ := Option.bind_eq_some_iff.mp done
    exact (Leads.apply a .refl step).trans (ih rest)

variable [DecidableEq ι] [Arena.Lawful σ] {t u v : LinkedTree σ ι} {g h k : Forest (ι × Override)}
  {s r : SelectionTree} {i : ι} {place : List Nat}

/-- An index that was there before and is gone stays gone. -/
theorem Represents.node?_eq_none (start : t.Represents g s) (known : (t.node? i).isSome)
    (first : t.Extends u) (gone : u.node? i = none) (second : u.Extends v) : v.node? i = none := by
  obtain ⟨given, run⟩ := start.run
  obtain ⟨later, before⟩ := first.run
  obtain ⟨_, after⟩ := second.run
  exact (run.trans before).get?_eq_none (List.mem_append_right _ (run.mem_given known)) gone after

/-- What a tree further on in a run stands for. Either all nodes are still at their places, or
the tree was cleared and none of them is there but the root. -/
structure Follows (t : LinkedTree σ ι) (g : Forest (ι × Override)) (s : SelectionTree)
    (u : LinkedTree σ ι) (h : Forest (ι × Override)) (r : SelectionTree) : Prop where
  represents : u.Represents h r
  leads : s.Leads r
  work : t.Extends u
  names : r.epoch = s.epoch ∧ g.Keeps h ∨ s.epoch < r.epoch ∧ ∀ i ∈ g.indices, u.node? i = none

section

variable (start : t.Represents g s) (follows : t.Follows g s u h r)

include start follows

/-- A step that keeps the nodes at their places goes on from either. -/
theorem Follows.step {q : SelectionTree} (represents : v.Represents k q) (leads : s.Leads q)
    (work : u.Extends v) (epoch : q.epoch = r.epoch) (kept : h.Keeps k) :
    t.Follows g s v k q := by
  refine ⟨represents, leads, follows.work.trans work, ?_⟩
  rw [epoch]
  refine follows.names.imp (And.imp_right fun before => before.trans kept)
    (And.imp_right fun gone i mem => ?_)
  exact start.node?_eq_none (start.isSome_of_mem (List.mem_cons_of_mem _ mem)) follows.work
    (gone i mem) work

theorem Follows.apply (a : Selection) (step : u.apply a = some v) :
    ∃ k, t.Follows g s v k (r.apply a) := by
  obtain ⟨w, k, same, work, kept, represents⟩ := follows.represents.apply a
  obtain rfl : w = v := Option.some.inj (same.symm.trans step)
  have epoch : (r.apply a).epoch = r.epoch := by
    obtain ⟨sign, operator, m | l⟩ := a <;> rfl
  exact ⟨k, follows.step start represents (.apply a follows.leads) work epoch kept⟩

theorem Follows.clear (step : u.clear = some v) : t.Follows g s v .nil r.clear := by
  obtain ⟨w, same, work, represents⟩ := follows.represents.clear
  obtain rfl : w = v := Option.some.inj (same.symm.trans step)
  have past : s.epoch ≤ r.epoch := follows.names.elim (fun same => Nat.le_of_eq same.1.symm)
    fun later => Nat.le_of_lt later.1
  refine ⟨represents, .clear follows.leads, follows.work.trans work,
    Or.inr ⟨Nat.lt_succ_of_le past, fun i mem => ?_⟩⟩
  -- only the root is left, which is none of the nodes below it
  refine Option.not_isSome_iff_eq_none.mp fun live => ?_
  have root := List.mem_singleton.mp (represents.live i live)
  rw [work.root, follows.work.root] at root
  exact (List.nodup_cons.mp start.once).1 (root ▸ mem)

theorem Follows.createChild (m : Member) (live : (u.node? i).isSome) :
    ∃ k q, t.Follows g s (u.createChild i m).2 k q := by
  obtain ⟨place, found⟩ := follows.represents.exists_place live
  obtain ⟨c, w, k, made, work, grown, represents⟩ := follows.represents.createChild found m
  obtain ⟨p, site, -, -⟩ := follows.represents.exists_site? found
  have named : (r.site? ⟨r.epoch, place⟩).isSome := by rw [site]; rfl
  have epoch : (r.createChild ⟨r.epoch, place⟩ m).2.epoch = r.epoch := by
    obtain ⟨_, _, -, -, same⟩ := SelectionTree.createChild_eq m named
    rw [same]
  rw [made]
  exact ⟨k, _, follows.step start represents (.createChild m follows.leads named) work epoch
    (Forest.keeps_of_appendAt? grown)⟩

end

theorem Represents.follows (start : t.Represents g s) (leads : t.Leads u) :
    ∃ h r, t.Follows g s u h r := by
  induction leads with
  | refl => exact ⟨g, s, start, .refl, .refl t, Or.inl ⟨rfl, fun _ _ _ same => same⟩⟩
  | apply a _ step ih =>
    obtain ⟨h, r, follows⟩ := ih
    obtain ⟨k, next⟩ := follows.apply start a step
    exact ⟨k, _, next⟩
  | clear _ step ih =>
    obtain ⟨h, r, follows⟩ := ih
    exact ⟨.nil, _, follows.clear start step⟩
  | createChild m _ live ih =>
    obtain ⟨h, r, follows⟩ := ih
    exact follows.createChild start m live

/-- Names go stale just when indices do. -/
theorem Represents.isSome_node?_iff (start : t.Represents g s) (leads : t.Leads u) :
    ∃ h r, u.Represents h r ∧ s.Leads r ∧ ∀ place i, g.indexAt? t.root place = some i →
      ((u.node? i).isSome ↔ (r.site? ⟨s.epoch, place⟩).isSome) := by
  obtain ⟨h, r, follows⟩ := start.follows leads
  refine ⟨h, r, follows.represents, follows.leads, fun place i found => ?_⟩
  have root : (u.node? t.root).isSome := by
    rw [← follows.work.root, follows.represents.root]
    rfl
  by_cases top : place = []
  · subst top
    rw [Forest.indexAt?_nil] at found
    obtain rfl : t.root = i := Option.some.inj found
    exact iff_of_true root rfl
  · rcases follows.names with ⟨epoch, kept⟩ | ⟨later, gone⟩
    · have still := kept _ _ _ found
      rw [← follows.work.root] at still
      obtain ⟨p, site, -, -⟩ := follows.represents.exists_site? still
      rw [← epoch, site]
      exact iff_of_true (follows.represents.isSome_node? still) rfl
    · rw [gone i (Forest.mem_indices_of_indexAt? found top), Option.isSome_none, site?,
        if_neg (by simpa using top), if_neg (Nat.ne_of_lt later), Option.isSome_none]

/-- A list of actions never fails, and stands for the same list. -/
theorem Represents.exists_foldlM (start : t.Represents g s) (as : List Selection) : ∃ u h,
    as.foldlM LinkedTree.apply t = some u ∧ u.Represents h (as.foldl SelectionTree.apply s) := by
  induction as generalizing t g s with
  | nil => exact ⟨t, g, rfl, start⟩
  | cons a as ih =>
    obtain ⟨u, h, step, -, -, represents⟩ := start.apply a
    obtain ⟨v, k, rest, last⟩ := ih represents
    refine ⟨v, k, ?_, last⟩
    rw [List.foldlM_cons, step]
    exact rest

end LinkedTree
end CubeAxis
