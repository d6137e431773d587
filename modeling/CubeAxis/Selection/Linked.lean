import CubeAxis.Arena
import CubeAxis.Selection.SignSets
import CubeAxis.Selection.Tree
import CubeAxis.Sorting

namespace CubeAxis

instance : Nonempty ResolvedSign := ⟨⟨.excluded, .root⟩⟩

/-- A node of a selection tree as it is stored, linked to its parent and to its children. The
root has no member. -/
structure LinkedNode (ι : Type) where
  member? : Option Member
  state : SignSets
  parent? : Option ι
  children : List ι
  sequence : Nat

namespace LinkedNode

variable {ι : Type}

/-- The actions that record the signs of the node. -/
def selections (node : LinkedNode ι) : List Selection :=
  node.member?.elim [] node.state.selections

/-- The name on the node with its signs. -/
def caption (node : LinkedNode ι) : String :=
  node.state.caption (node.member?.elim "(root)" (·.name))

end LinkedNode

/-- The selection state of one hierarchy, its nodes in an arena. There is no answer where an
index is followed that has no node. -/
structure LinkedTree (σ ι : Type) where
  arena : σ
  root : ι
  levels : List LevelOverride
  nextSequence : Nat

namespace LinkedTree

variable {σ ι : Type} [Arena σ ι (LinkedNode ι)]

def new : LinkedTree σ ι :=
  let made : ι × σ :=
    Arena.insert (Arena.empty : σ) ⟨none, .withDescendants .excluded, none, [], 0⟩
  { arena := made.2, root := made.1, levels := [], nextSequence := 1 }

def node? (t : LinkedTree σ ι) (i : ι) : Option (LinkedNode ι) :=
  Arena.get? t.arena i

def modify (t : LinkedTree σ ι) (i : ι) (change : LinkedNode ι → LinkedNode ι) :
    LinkedTree σ ι :=
  { t with arena := Arena.modify t.arena i change }

/-- Number of nodes, the root aside. -/
def size (t : LinkedTree σ ι) : Nat := Arena.size t.arena - 1

/-- Whether nothing was selected since the start or the last `clear`. -/
def isVoid (t : LinkedTree σ ι) : Option Bool := do
  let root ← t.node? t.root
  return root.children.isEmpty && t.levels.isEmpty

def levelSign (t : LinkedTree σ ι) (l : Level) : Option Sign :=
  (t.levels.find? (fun o => o.level == l)).map (·.sign)

/-- The first child of a node that stands for a member. -/
def childFor? (t : LinkedTree σ ι) (i : ι) (m : Member) : Option (Option ι) := do
  let node ← t.node? i
  node.children.findM? fun c => do
    let child ← t.node? c
    return child.member? == some m

/-- The deepest node on a path of members from a node on. -/
def descend (t : LinkedTree σ ι) (i : ι) : List Member → Option ι
  | [] => some i
  | m :: path => do
    match ← t.childFor? i m with
    | some c => t.descend c path
    | none => return i

def find (t : LinkedTree σ ι) (m : Member) : Option ι :=
  t.descend t.root m.pathFromRoot

/-- The node that stands for a member, if there is one. -/
def findExact? (t : LinkedTree σ ι) (m : Member) : Option (Option ι) := do
  let i ← t.find m
  let node ← t.node? i
  return if node.member? == some m then some i else none

/-- Adds a child to a node, even if it has one for the member already. If the parent is gone
there is no answer, but the new node stays behind. -/
def createChild (t : LinkedTree σ ι) (parent : ι) (m : Member) : Option ι × LinkedTree σ ι :=
  let made := Arena.insert t.arena ⟨some m, {}, some parent, [], t.nextSequence⟩
  let t := { t with arena := made.2, nextSequence := t.nextSequence + 1 }
  if (t.node? parent).isSome then
    (some made.1, t.modify parent fun node => { node with children := node.children ++ [made.1] })
  else (none, t)

/-- The node at the end of a path of members from a node on. Nodes that are missing are made. -/
def ensure (t : LinkedTree σ ι) (i : ι) : List Member → Option (ι × LinkedTree σ ι)
  | [] => some (i, t)
  | m :: path => do
    match ← t.childFor? i m with
    | some c => t.ensure c path
    | none =>
      match t.createChild i m with
      | (some c, t) => t.ensure c path
      | (none, _) => none

/-- The nearest subtree sign on a node or above. -/
def defaultSign (t : LinkedTree σ ι) : ι → Option (Option Sign) :=
  repeatM fun i => do
    let node ← t.node? i
    match node.state.sign .descendants, node.parent? with
    | some s, _ => return .inr (some s)
    | none, some p => return .inl p
    | none, none => return .inr none

/-- The nearest subtree sign with its source. That of the root counts as recorded nowhere. -/
def reportedDefault (t : LinkedTree σ ι) : ι → Option ResolvedSign :=
  repeatM fun i => do
    let node ← t.node? i
    match node.state.sign .descendants, node.parent? with
    | some s, _ => return .inr ⟨s, if node.member?.isSome then .descendants else .root⟩
    | none, some p => return .inl p
    | none, none => return .inr ⟨.excluded, .root⟩

/-- The sign that an operator gets on a node that records nothing. -/
def inheritedSign (t : LinkedTree σ ι) (node : LinkedNode ι) (op : Operator) :
    Option (Option Sign) := do
  match node.parent? with
  | none => return none
  | some p =>
    let default ← t.defaultSign p
    match op with
    | .member =>
      let upper ← t.node? p
      return (upper.state.sign .children).or default
    | _ => return default

def record (t : LinkedTree σ ι) (i : ι) (s : Sign) (op : Operator) :
    Option (LinkedTree σ ι) := do
  let node ← t.node? i
  let inherited ← t.inheritedSign node op
  return t.modify i fun node => { node with state := node.state.apply s op inherited }

def applyMember (t : LinkedTree σ ι) (s : Sign) (op : Operator) (m : Member) :
    Option (LinkedTree σ ι) := do
  let (i, t) ← t.ensure t.root m.pathFromRoot
  match op with
  | .memberAndChildren =>
    let t ← t.record i s .member
    t.record i s .children
  | op => t.record i s op

/-- The last sign given to a level counts. -/
def applyLevel (t : LinkedTree σ ι) (s : Sign) (l : Level) : LinkedTree σ ι :=
  { t with
    levels := t.levels.filter (fun o => !(o.level == l)) ++ [⟨l, s, t.nextSequence⟩]
    nextSequence := t.nextSequence + 1 }

def apply (t : LinkedTree σ ι) (a : Selection) : Option (LinkedTree σ ι) :=
  match a.target with
  | .member m => t.applyMember a.sign a.operator m
  | .level l => some (t.applyLevel a.sign l)

def effectiveSign (t : LinkedTree σ ι) (i : ι) (op : Operator) : Option (Option Sign) := do
  let node ← t.node? i
  return node.state.effectiveSign op (← t.inheritedSign node op)

/-- The sign of the member of a node. -/
def memberSign (t : LinkedTree σ ι) (i : ι) : Option ResolvedSign := do
  let node ← t.node? i
  match node.state.sign .member, node.state.sign .descendants, node.parent? with
  | some s, _, _ => return ⟨s, .explicit⟩
  | none, some s, _ => return ⟨s, if node.member?.isSome then .descendants else .root⟩
  | none, none, none => return ⟨.excluded, .root⟩
  | none, none, some p =>
    let upper ← t.node? p
    match upper.state.sign .children with
    | some s => return ⟨s, .explicit⟩
    | none => t.reportedDefault p

/-- The sign of the children of a node that have no node. -/
def childrenSign (t : LinkedTree σ ι) (i : ι) : Option ResolvedSign := do
  let node ← t.node? i
  match node.state.sign .children with
  | some s => return ⟨s, .explicit⟩
  | none => t.reportedDefault i

/-- The sign of any member, level-wide signs aside. -/
def resolve (t : LinkedTree σ ι) (m : Member) : Option ResolvedSign := do
  let i ← t.find m
  let node ← t.node? i
  if node.member? == some m then t.memberSign i
  else if node.member? == m.parent? then t.childrenSign i
  else t.reportedDefault i

/-- Whether a member is included in the end, level-wide signs and all. -/
def isIncluded (t : LinkedTree σ ι) (m : Member) : Option Bool := do
  let resolved ← t.resolve m
  return (resolved.withLevel (t.levelSign m.level)).isIncluded

/-- The nodes of a stack and all below them, each before its children, after those that were
met before. -/
def unstack (t : LinkedTree σ ι) : List ι × List ι → Option (List ι) :=
  repeatM fun
    | (order, []) => some (.inr order)
    | (order, i :: stack) => do
      let node ← t.node? i
      return .inl (order ++ [i], node.children ++ stack)

/-- All nodes in pre-order, the root first. -/
def preorder (t : LinkedTree σ ι) : Option (List ι) :=
  t.unstack ([], [t.root])

def numberedSelections (t : LinkedTree σ ι) : Option (List (Nat × Selection)) := do
  let order ← t.preorder
  let nodes ← order.mapM t.node?
  return (nodes.flatMap fun node => node.selections.map (node.sequence, ·)) ++
    t.levels.map fun o => (o.sequence, .onLevel o.sign o.level)

/-- A list of actions that leads back to the tree, in the order of the numbers. -/
def selections (t : LinkedTree σ ι) : Option (List Selection) := do
  let numbered ← t.numberedSelections
  return (sortBy (·.1) numbered).map (·.2)

/-- The tree after a list of actions on a new one. -/
def ofSelections (as : List Selection) : Option (LinkedTree σ ι) :=
  as.foldlM apply new

def replay (t : LinkedTree σ ι) : Option (LinkedTree σ ι) := do
  ofSelections (← t.selections)

/-- Takes nodes out of the arena, each with all below it. What is not there is passed over. -/
def free (a : σ) : List ι → { b : σ // Arena.size b ≤ Arena.size a }
  | [] => ⟨a, Nat.le_refl _⟩
  | i :: rest =>
    match taken : (Arena.remove a i).1 with
    | none =>
      have same := Arena.size_remove_of_none taken
      let others := free (Arena.remove a i).2 rest
      ⟨others.1, Nat.le_trans others.2 (Nat.le_of_eq same)⟩
    | some node =>
      have fewer := Arena.size_remove_lt taken
      let below := free (Arena.remove a i).2 node.children
      have lower := Nat.lt_of_le_of_lt below.2 fewer
      let others := free below.1 rest
      ⟨others.1, Nat.le_of_lt (Nat.lt_of_le_of_lt others.2 lower)⟩
termination_by is => (Arena.size a, is.length)
decreasing_by
  · rw [same]
    exact Prod.Lex.right _ (Nat.lt_succ_self _)
  · exact Prod.Lex.left _ _ fewer
  · exact Prod.Lex.left _ _ lower

/-- Back to the start, with the root still at its index. -/
def clear (t : LinkedTree σ ι) : Option (LinkedTree σ ι) := do
  let root ← t.node? t.root
  let bare := t.modify t.root fun node => { node with children := [] }
  let emptied : LinkedTree σ ι :=
    { arena := free bare.arena root.children, root := t.root, levels := [], nextSequence := 1 }
  return emptied.modify t.root fun node => { node with state := .withDescendants .excluded }

/-- Hangs siblings from a rail, each with whether it is the last. -/
def hang (rail : String) : List ι → List (String × ι × Bool)
  | [] => []
  | i :: siblings => (rail, i, siblings.isEmpty) :: hang rail siblings

/-- One line per node, each hung from its parent; the last sibling closes the rail. -/
def branches (t : LinkedTree σ ι) : List String × List (String × ι × Bool) →
    Option (List String) :=
  repeatM fun
    | (lines, []) => some (.inr lines)
    | (lines, (rail, i, last) :: stack) => do
      let node ← t.node? i
      let line := rail ++ (if last then "└── " else "├── ") ++ node.caption
      return .inl (lines ++ [line],
        hang (rail ++ if last then "    " else "│   ") node.children ++ stack)

/-- The tree as text, every line ended. -/
def drawing (t : LinkedTree σ ι) : Option String := do
  let root ← t.node? t.root
  let lines ← t.branches ([], hang "" root.children)
  return String.join ((root.caption :: lines).map (· ++ "\n"))

end LinkedTree
end CubeAxis
