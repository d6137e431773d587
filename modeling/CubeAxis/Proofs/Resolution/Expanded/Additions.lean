import CubeAxis.Proofs.Expr.MemberSets
import CubeAxis.Resolution.Expanded

namespace CubeAxis.Expanded

variable {hs : List Hierarchy} {h : Hierarchy} {p q : Progress} {R U X R' U' X' s : Set Member}
  {C C' : List (Nat × Member)} {m : Member} {e : Expr}

/-- From `p` to `q` roots, closed members, excluded members and cut-outs are added;
nothing else about the set changes. -/
structure Adds (hs : List Hierarchy) (h : Hierarchy) (p q : Progress) (R U X : Set Member)
    (C : List (Nat × Member)) : Prop where
  evaluable : p.axis.Evaluable hs h → q.axis.Evaluable hs h
  drills : q.axis.drills = p.axis.drills
  roots : q.axis.roots.shown hs = p.axis.roots.shown hs ∪ R
  undrills : q.axis.undrills.shown hs = p.axis.undrills.shown hs ∪ U
  excluded : q.axis.excluded.shown hs = p.axis.excluded.shown hs ∪ X
  cutOuts : q.cutOuts = p.cutOuts ++ C

namespace Adds

theorem refl (p : Progress) : Adds hs h p p ∅ ∅ ∅ [] :=
  ⟨id, rfl, (Set.union_empty _).symm, (Set.union_empty _).symm, (Set.union_empty _).symm,
    (List.append_nil _).symm⟩

theorem trans {r : Progress} (first : Adds hs h p q R U X C) (second : Adds hs h q r R' U' X' C') :
    Adds hs h p r (R ∪ R') (U ∪ U') (X ∪ X') (C ++ C') where
  evaluable := second.evaluable ∘ first.evaluable
  drills := second.drills.trans first.drills
  roots := by rw [second.roots, first.roots, Set.union_assoc]
  undrills := by rw [second.undrills, first.undrills, Set.union_assoc]
  excluded := by rw [second.excluded, first.excluded, Set.union_assoc]
  cutOuts := by rw [second.cutOuts, first.cutOuts, List.append_assoc]

theorem add (regular : h.Regular) (term : e.Term hs (lone h.all) (lone s)) :
    Adds hs h p (p.add e) s ∅ ∅ [] :=
  { refl (h := h) p with
    evaluable := fun fine => fine.add term
    roots := UnionTerms.shown_add regular term }

theorem addMember (inside : m ∈ h.members) : Adds hs h p (p.addMember m) {m} ∅ ∅ [] :=
  { refl (h := h) p with
    evaluable := fun fine => fine.addMember inside
    roots := UnionTerms.shown_addMember m }

theorem exclude (regular : h.Regular) (term : e.Term hs (lone h.all) (lone s)) :
    Adds hs h p (p.exclude e) ∅ ∅ s [] :=
  { refl (h := h) p with
    evaluable := fun fine => fine.exclude term
    excluded := UnionTerms.shown_add regular term }

theorem excludeMember (inside : m ∈ h.members) :
    Adds hs h p { p with axis := p.axis.excludeMember m } ∅ ∅ {m} [] :=
  { refl (h := h) p with
    evaluable := fun fine => fine.excludeMember inside
    excluded := UnionTerms.shown_addMember m }

theorem undrill (inside : m ∈ h.members) : Adds hs h p (p.undrill m) ∅ {m} ∅ [] :=
  { refl (h := h) p with
    evaluable := fun fine => fine.undrill inside
    undrills := UnionTerms.shown_addMember m }

theorem cutOut (depth : Nat) : Adds hs h p (p.cutOut depth m) ∅ ∅ ∅ [(depth, m)] :=
  { refl p with cutOuts := rfl }

theorem pool (pool : Pool) : Adds hs h p { p with pool := pool } ∅ ∅ ∅ [] :=
  { refl p with }

theorem congr (adds : Adds hs h p q R U X C) (roots : R' = R) (undrills : U' = U)
    (excluded : X' = X) (cutOuts : C' = C) : Adds hs h p q R' U' X' C' := by
  rwa [roots, undrills, excluded, cutOuts]

/-- What a step adds under a condition. -/
theorem when (condition : Bool) (change : Progress → Progress)
    (adds : Adds hs h p (change p) R U X C) :
    Adds hs h p (p.when condition change) {x | x ∈ R ∧ condition = true}
      {x | x ∈ U ∧ condition = true} {x | x ∈ X ∧ condition = true}
      (if condition then C else []) := by
  unfold Progress.when
  cases condition with
  | true => simpa using adds
  | false => simpa using refl p

end Adds

/-- A step that neither reads the pool nor changes it. -/
def Blind (change : Progress → Progress) : Prop :=
  ∀ p pool, change { p with pool := pool } = { change p with pool := pool }

namespace Blind

variable {f g : Progress → Progress}

theorem pool (blind : Blind f) (p : Progress) : (f p).pool = p.pool :=
  (congrArg Progress.pool (blind p p.pool) :)

theorem comp (second : Blind g) (first : Blind f) : Blind (g ∘ f) := by
  intro p pool
  rw [Function.comp, first, second]
  rfl

theorem foldl {α : Type} {f : Progress → α → Progress} (blind : ∀ x, Blind (f · x)) (xs : List α) :
    Blind (xs.foldl f) := by
  intro p pool
  induction xs generalizing p with
  | nil => rfl
  | cons x xs ih => exact (congrArg (xs.foldl f) (blind x p pool)).trans (ih (f p x))

end Blind

/-- A step that only adds roots, excluded members and cut-outs. What it adds may depend on
what has been cut out. -/
inductive Edit : (Progress → Progress) → Prop
  | none : Edit id
  | add (e : List (Nat × Member) → Expr) : Edit fun p => p.add (e p.cutOuts)
  | addMember (m : Member) : Edit (·.addMember m)
  | exclude (e : List (Nat × Member) → Expr) : Edit fun p => p.exclude (e p.cutOuts)
  | excludeMember (m : Member) : Edit fun p => { p with axis := p.axis.excludeMember m }
  | cutOut (depth : Nat) (m : Member) : Edit (·.cutOut depth m)
  | comp {f g : Progress → Progress} : Edit g → Edit f → Edit (g ∘ f)

namespace Edit

variable {f : Progress → Progress}

theorem blind (edit : Edit f) : Blind f := by
  induction edit with
  | comp _ _ second first => exact second.comp first
  | _ => exact fun _ _ => rfl

/-- An edit closes no member. -/
theorem undrilled (edit : Edit f) (p : Progress) :
    (f p).axis.undrilled = p.axis.undrilled := by
  induction edit generalizing p with
  | comp _ _ second first => exact (second _).trans (first p)
  | _ => rfl

theorem when (condition : Bool) (edit : Edit f) : Edit (·.when condition f) := by
  cases condition with
  | true => exact edit
  | false => exact .none

theorem foldl {α : Type} {f : Progress → α → Progress} (edit : ∀ x, Edit (f · x)) (xs : List α) :
    Edit (xs.foldl f) := by
  induction xs with
  | nil => exact .none
  | cons x xs ih => exact .comp ih (edit x)

theorem showParts (m : Member) (self children deeper : Bool) :
    Edit (showParts m self children deeper) := by
  have apart : Edit fun p => ((p.when self (·.addMember m)).when children
      (·.add (Expr.children m))).when deeper (·.add (Expr.within (.member m) 2 .selfAndAfter)) :=
    .comp (.when deeper (.add fun _ => Expr.within (.member m) 2 .selfAndAfter))
      (.comp (.when children (.add fun _ => Expr.children m)) (.when self (.addMember m)))
  cases self <;> cases children <;> cases deeper
  case true.true.true => exact .add fun _ => Expr.within (.member m) 0 .selfAndAfter
  case false.true.true =>
    exact .comp (.add fun _ => Expr.within (.member m) 1 .selfAndAfter) (.when false (.addMember m))
  all_goals exact apart

theorem excludeDeeper (levels : List Level) (m : Member) (overridden : List Member)
    (unsigned : List Nat) : Edit (excludeDeeper levels m overridden unsigned) :=
  .foldl (fun e => .exclude fun _ => e) _

theorem cutOutNode (r : Region) (m : Member) : Edit (cutOutNode r m) :=
  .comp (.when _ (.cutOut (m.depth + 1) m)) (.when _ (.cutOut m.depth m))

end Edit

/-- A member, its children and its deeper descendants, as asked. -/
def parts (h : Hierarchy) (m : Member) (self children deeper : Bool) : Set Member :=
  {x | x ∈ h.members ∧ m ∈ x.upward ∧ ((self = true ∧ x.depth = m.depth) ∨
    (children = true ∧ x.depth = m.depth + 1) ∨ (deeper = true ∧ m.depth + 2 ≤ x.depth))}

section

variable {self children deeper : Bool} {x : Member}

theorem self_mem_parts (inside : m ∈ h.members) : m ∈ parts h m self children deeper ↔ self = true := by
  simp [parts, inside, Member.mem_upward_self]

variable (inside : x ∈ h.members) (above : m ∈ x.upward)

include inside above

theorem child_mem_parts (level : x.depth = m.depth + 1) :
    x ∈ parts h m self children deeper ↔ children = true := by
  simp [parts, inside, above, level]

theorem deeper_mem_parts (deep : m.depth + 2 ≤ x.depth) :
    x ∈ parts h m self children deeper ↔ deeper = true := by
  have notSelf : x.depth ≠ m.depth := by omega
  have notChild : x.depth ≠ m.depth + 1 := by omega
  simp [parts, inside, above, deep, notSelf, notChild]

end

section

variable (regular : h.Regular) (found : Expr.findHierarchy hs h.name = .ok h)
  (inside : m ∈ h.members)

include regular found inside

theorem term_within (distance : Nat) :
    (Expr.within (.member m) distance .selfAndAfter).Term hs (lone h.all)
      (lone {x | x ∈ h.members ∧ m ∈ x.upward ∧ m.depth + distance ≤ x.depth}) := by
  have picks := Expr.picks_within regular found (Expr.picks_member inside) distance .selfAndAfter
  refine (picks.congr fun x => ?_).term rfl
  simp only [Set.mem_ofPred_eq, Set.mem_singleton_iff, exists_eq_left, Reach.accepts,
    decide_eq_true_eq]
  refine and_congr_right fun _ => and_congr_right fun above => ?_
  have low := Member.depth_le_of_mem_upward above
  omega

theorem term_children :
    (Expr.children m).Term hs (lone h.all)
      (lone {x | x ∈ h.members ∧ m ∈ x.upward ∧ x.depth = m.depth + 1}) := by
  refine ((Expr.picks_children regular found inside).congr fun x => ?_).term rfl
  simp only [Set.mem_ofPred_eq, Member.parent?_eq_some_iff]

theorem showParts_adds (self children deeper : Bool) :
    Adds hs h p (showParts m self children deeper p) (parts h m self children deeper) ∅ ∅ [] := by
  have own : ∀ x, x ∈ h.members ∧ m ∈ x.upward ∧ x.depth = m.depth ↔ x = m := by
    intro x
    constructor
    · intro given
      obtain ⟨_, above, same⟩ := given
      exact Member.eq_of_mem_upward_of_depth (Member.mem_upward_self x) above same
    · rintro rfl
      exact ⟨inside, Member.mem_upward_self x, rfl⟩
  have all (distance : Nat) (p : Progress) : Adds hs h p
      (p.add (Expr.within (.member m) distance .selfAndAfter)) _ ∅ ∅ [] :=
    .add regular (term_within regular found inside distance)
  have one (p : Progress) : Adds hs h p (p.when self (·.addMember m)) _ _ _ _ :=
    .when self (·.addMember m) (.addMember inside)
  unfold showParts
  split
  · refine (all 0 p).congr (Set.ext fun x => ?_) rfl rfl rfl
    simp only [parts, Set.mem_ofPred_eq, true_and]
    refine and_congr_right fun _ => and_congr_right fun above => ?_
    have low := Member.depth_le_of_mem_upward above
    omega
  · refine ((one p).trans (all 1 _)).congr (Set.ext fun x => ?_) (by simp) (by simp) (by simp)
    simp only [parts, Set.mem_union, Set.mem_ofPred_eq, Set.mem_singleton_iff, ← own, true_and]
    grind
  · have two (p : Progress) : Adds hs h p (p.when children (·.add (Expr.children m))) _ _ _ _ :=
      .when children (·.add (Expr.children m)) (.add regular (term_children regular found inside))
    have rest (p : Progress) : Adds hs h p
        (p.when deeper (·.add (Expr.within (.member m) (2 : Nat) .selfAndAfter))) _ _ _ _ :=
      .when deeper (·.add (Expr.within (.member m) (2 : Nat) .selfAndAfter)) (all 2 p)
    refine ((one p).trans ((two _).trans (rest _))).congr (Set.ext fun x => ?_) (by simp) (by simp)
      (by simp)
    simp only [parts, Set.mem_union, Set.mem_ofPred_eq, Set.mem_singleton_iff, ← own]
    grind

end

end CubeAxis.Expanded
