import CubeAxis.Proofs.Selection.Linked.Represents
import CubeAxis.Proofs.Selection.Queries

namespace CubeAxis

theorem SignSets.effectiveSign_toSets (st : SelectionState) (op : Operator)
    (fallback : Option Sign) :
    st.toSets.effectiveSign op fallback = st.effectiveSign op fallback := by
  cases op <;> simp only [SignSets.effectiveSign, SignSets.sign_toSets] <;> rfl

namespace LinkedTree

open SelectionTree

variable {σ ι : Type} [Arena σ ι (LinkedNode ι)] {t : LinkedTree σ ι} {g : Forest (ι × Override)}
  {s : SelectionTree} {i p : ι} {place : List Nat} {k : Nat} {node : LinkedNode ι} {r : Site}
  {v : Sign}

theorem defaultSign_of_sign (here : t.node? i = some node)
    (signed : node.state.sign .descendants = some v) : t.defaultSign i = some (some v) := by
  rw [defaultSign, repeatM_eq_of_monadTail]
  simp [repeatM.body, here, signed]

theorem defaultSign_of_parent (here : t.node? i = some node)
    (bare : node.state.sign .descendants = none) (above : node.parent? = some p) :
    t.defaultSign i = t.defaultSign p := by
  rw [defaultSign, repeatM_eq_of_monadTail]
  simp [repeatM.body, here, bare, above]

theorem reportedDefault_of_sign (here : t.node? i = some node)
    (signed : node.state.sign .descendants = some v) : t.reportedDefault i =
      some ⟨v, if node.member?.isSome then .descendants else .root⟩ := by
  rw [reportedDefault, repeatM_eq_of_monadTail]
  simp [repeatM.body, here, signed]

theorem reportedDefault_of_parent (here : t.node? i = some node)
    (bare : node.state.sign .descendants = none) (above : node.parent? = some p) :
    t.reportedDefault i = t.reportedDefault p := by
  rw [reportedDefault, repeatM_eq_of_monadTail]
  simp [repeatM.body, here, bare, above]

theorem sign_children_toSets {id : NodeId} (site : s.site? id = some r) :
    r.state.toSets.sign .children = r.handsDown.children :=
  (SignSets.sign_toSets _ _).trans (children_handsDown site).symm

/-- A node other than the root is linked to its parent, which hands down to it. -/
theorem Represents.exists_parent (represents : t.Represents g s)
    (found : g.indexAt? t.root (place ++ [k]) = some i)
    (site : s.site? ⟨s.epoch, place ++ [k]⟩ = some r) : ∃ p u m,
      g.indexAt? t.root place = some p ∧ s.site? ⟨s.epoch, place⟩ = some u ∧
      r.label = some (m, u.handsDown) ∧
      t.node? i =
        some ⟨some m, r.state.toSets, some p, (g.under (place ++ [k])).heads, r.sequence⟩ := by
  have parent : parentId? ⟨s.epoch, place ++ [k]⟩ = some ⟨s.epoch, place⟩ :=
    parentId?_eq_some_iff.mpr ⟨k, rfl⟩
  obtain ⟨u, upper⟩ := exists_site?_of_parentId? parent site
  obtain ⟨m, label⟩ := label_of_parentId? parent site upper
  obtain ⟨p, above⟩ := represents.exists_indexAt? upper
  refine ⟨p, u, m, above, upper, label, ?_⟩
  rw [represents.node?_eq found site, if_neg (by simp), List.dropLast_concat, above, Site.member?, label]
  rfl

/-- The walk up the links comes to the sign that is handed down. -/
theorem Represents.defaults (represents : t.Represents g s)
    (found : g.indexAt? t.root place = some i) (site : s.site? ⟨s.epoch, place⟩ = some r) :
    t.reportedDefault i = some r.descendantsDefault ∧
      t.defaultSign i = some (some r.defaultSign) := by
  induction place using List.reverseRecOn generalizing i r with
  | nil =>
    rw [Forest.indexAt?_nil] at found
    cases found
    cases site
    have signed : (SignSets.withDescendants .excluded).sign .descendants = some .excluded := by
      rw [SignSets.withDescendants_eq, SignSets.sign_toSets]
      rfl
    exact ⟨reportedDefault_of_sign represents.root signed,
      defaultSign_of_sign represents.root signed⟩
  | append_singleton place k ih =>
    obtain ⟨p, u, m, above, upper, label, shown⟩ := represents.exists_parent found site
    obtain ⟨reported, default⟩ := ih above upper
    have own := SignSets.sign_toSets r.state .descendants
    rw [Site.defaultSign, Site.descendantsDefault, Site.handsDown_of_label label,
      Inherited.handDown]
    cases subtree : r.state.descendants with
    | some v =>
      have signed := own.trans subtree
      exact ⟨reportedDefault_of_sign shown signed, defaultSign_of_sign shown signed⟩
    | none =>
      have bare := own.trans subtree
      exact ⟨(reportedDefault_of_parent shown bare rfl).trans reported,
        (defaultSign_of_parent shown bare rfl).trans default⟩

theorem Represents.childrenSign_eq (represents : t.Represents g s)
    (found : g.indexAt? t.root place = some i) (site : s.site? ⟨s.epoch, place⟩ = some r) :
    t.childrenSign i = some r.childrenSign := by
  simp only [childrenSign, represents.node?_eq found site, sign_children_toSets site,
    Option.bind_eq_bind, Option.bind_some]
  rw [Site.childrenSign, Inherited.childrenSign]
  cases r.handsDown.children with
  | some v => rfl
  | none => exact (represents.defaults found site).1

/-- What an operator falls back on is looked up at the parent. -/
theorem Represents.inheritedSign_eq (represents : t.Represents g s)
    (here : t.node? i = some node) (found : g.indexAt? t.root place = some i)
    (site : s.site? ⟨s.epoch, place⟩ = some r) (op : Operator) :
    t.inheritedSign node op = some (r.label.map fun l =>
      match op with
      | .member => l.2.childrenSign.sign
      | _ => l.2.default.sign) := by
  induction place using List.reverseRecOn with
  | nil =>
    obtain rfl : node = _ := Option.some.inj (here.symm.trans (represents.node?_eq found site))
    cases site
    rfl
  | append_singleton place k =>
    obtain ⟨p, u, m, above, upper, label, shown⟩ := represents.exists_parent found site
    obtain rfl : node = _ := Option.some.inj (here.symm.trans shown)
    have default := (represents.defaults above upper).2
    rw [label, Option.map_some]
    simp only [inheritedSign, default, Option.bind_eq_bind, Option.bind_some]
    cases op with
    | member =>
      rw [represents.node?_eq above upper, Inherited.sign_childrenSign]
      simp only [Option.bind_some, sign_children_toSets upper]
      cases u.handsDown.children <;> rfl
    | _ => rfl

theorem Represents.effectiveSign_eq (represents : t.Represents g s)
    (found : g.indexAt? t.root place = some i) (site : s.site? ⟨s.epoch, place⟩ = some r)
    (op : Operator) : t.effectiveSign i op = some (r.effectiveSign op) := by
  have shown := represents.node?_eq found site
  simp only [effectiveSign, shown, represents.inheritedSign_eq shown found site,
    Option.bind_eq_bind, Option.bind_some, SignSets.effectiveSign_toSets]
  rfl

theorem Represents.memberSign_eq (represents : t.Represents g s)
    (found : g.indexAt? t.root place = some i) (site : s.site? ⟨s.epoch, place⟩ = some r) :
    t.memberSign i = some r.memberSign := by
  induction place using List.reverseRecOn with
  | nil =>
    rw [Forest.indexAt?_nil] at found
    cases found
    cases site
    have signs := SignSets.sign_toSets (.withDescendants .excluded)
    simp only [memberSign, represents.root, SignSets.withDescendants_eq, signs,
      Option.bind_eq_bind, Option.bind_some]
    rfl
  | append_singleton place k =>
    obtain ⟨p, u, m, above, upper, label, shown⟩ := represents.exists_parent found site
    have own := SignSets.sign_toSets r.state
    have default := (represents.defaults above upper).1
    simp only [memberSign, shown, own, SelectionState.sign, Option.bind_eq_bind, Option.bind_some]
    rw [Site.memberSign, label, Option.elim_some, Inherited.memberSign, Inherited.childrenSign]
    cases r.state.member with
    | some v => rfl
    | none =>
      cases r.state.descendants with
      | some v => rfl
      | none =>
        -- nothing is recorded on the node, so its parent decides
        simp only [represents.node?_eq above upper, sign_children_toSets upper, Option.bind_some]
        cases u.handsDown.children with
        | some v => rfl
        | none => exact default

end LinkedTree
end CubeAxis
