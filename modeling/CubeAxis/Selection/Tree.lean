import CubeAxis.Forest
import CubeAxis.Selection.Action

namespace CubeAxis

/-- Where the sign of a member comes from. -/
inductive SignSource where
  /-- recorded for the member itself, or for the children of its parent -/
  | explicit
  /-- recorded for the subtree of the member or of an ancestor -/
  | descendants
  /-- recorded nowhere -/
  | root
  deriving DecidableEq, Repr

structure ResolvedSign where
  sign : Sign
  source : SignSource
  deriving DecidableEq, Repr

/-- A level-wide sign beats every sign that is not explicit. -/
def ResolvedSign.withLevel (r : ResolvedSign) (levelSign : Option Sign) : Sign :=
  match r.source, levelSign with
  | .explicit, _ => r.sign
  | _, none => r.sign
  | _, some s => s

/-- What a node hands down: the sign for its children, if it has one, and the
nearest subtree sign on the way up. -/
structure Inherited where
  children : Option Sign
  default : ResolvedSign
  deriving DecidableEq, Repr

namespace Inherited

/-- Above the root members everything is excluded. -/
def top : Inherited := ⟨none, ⟨.excluded, .root⟩⟩

/-- What a node with state `st` hands down when it is handed `i`. -/
def handDown (i : Inherited) (st : SelectionState) : Inherited :=
  ⟨st.children, st.descendants.elim i.default (⟨·, .descendants⟩)⟩

/-- The sign of the members on the next level that record nothing. -/
def childrenSign (i : Inherited) : ResolvedSign :=
  i.children.elim i.default (⟨·, .explicit⟩)

/-- The sign of a member whose node has state `st`. -/
def memberSign (i : Inherited) (st : SelectionState) : ResolvedSign :=
  match st.member, st.descendants with
  | some s, _ => ⟨s, .explicit⟩
  | none, some s => ⟨s, .descendants⟩
  | none, none => i.childrenSign

/-- Records an action on a node with state `st`. -/
def record (i : Inherited) (st : SelectionState) (s : Sign) (op : Operator) : SelectionState :=
  match op with
  | .member => st.apply s .member (some i.childrenSign.sign)
  | .memberAndChildren =>
    (st.apply s .member (some i.childrenSign.sign)).apply s .children (some i.default.sign)
  | op => st.apply s op (some i.default.sign)

end Inherited

/-- A node of the selection tree: its signs and the number of the action step
that made it. -/
structure Override where
  state : SelectionState
  sequence : Nat

def Override.fresh (sequence : Nat) : Override := ⟨{}, sequence⟩

structure LevelOverride where
  level : Level
  sign : Sign
  sequence : Nat

/-- What a `LinkedTree` stands for: the selection state of one hierarchy. Only
members on the path of an action have a node. `epoch` counts how often the tree
was cleared, `strays` the nodes that were made below a stale one and so hang
nowhere. -/
structure SelectionTree where
  overrides : Forest Override := .nil
  levels : List LevelOverride := []
  nextSequence : Nat := 1
  epoch : Nat := 0
  strays : Nat := 0

/-- What the member at the end of a path is handed. Members without a node hand
down only what they were handed for their subtree. -/
def Forest.inherited (i : Inherited) : Forest Override → List Member → Inherited
  | _, [] => i
  | _, [_] => i
  | .nil, _ :: _ :: _ => ⟨none, i.default⟩
  | .cons k o children siblings, m :: next :: path =>
    if k == m then children.inherited (i.handDown o.state) (next :: path)
    else siblings.inherited i (m :: next :: path)

namespace SelectionTree

def empty : SelectionTree := {}

/-- Whether nothing was selected since the start or the last `clear`. -/
def isVoid (t : SelectionTree) : Bool := t.overrides.isEmpty && t.levels.isEmpty

/-- Number of nodes, strays and all. -/
def size (t : SelectionTree) : Nat := t.overrides.size + t.strays

def levelSign (t : SelectionTree) (l : Level) : Option Sign :=
  (t.levels.find? (fun o => o.level == l)).map (·.sign)

/-- The level-wide sign at a depth of a level list. -/
def levelSignAt (t : SelectionTree) (levels : List Level) (depth : Nat) : Option Sign :=
  levels[depth]?.bind t.levelSign

/-- The signs recorded on the node of a member; nothing if it has no node. -/
def stateOf (t : SelectionTree) (m : Member) : SelectionState :=
  (t.overrides.value? m.pathFromRoot).elim {} (·.state)

/-- What a member is handed by its ancestors. -/
def inheritedBy (t : SelectionTree) (m : Member) : Inherited :=
  t.overrides.inherited .top m.pathFromRoot

/-- The sign of any member, level-wide signs aside. A member without a node is
one that records nothing. -/
def resolve (t : SelectionTree) (m : Member) : ResolvedSign :=
  (t.inheritedBy m).memberSign (t.stateOf m)

/-- Whether a member is included in the end, level-wide signs and all. -/
def isIncluded (t : SelectionTree) (m : Member) : Bool :=
  ((t.resolve m).withLevel (t.levelSign m.level)).isIncluded

/-- Whether a member has a node. -/
def hasNode (t : SelectionTree) (m : Member) : Bool :=
  (t.overrides.find? m.pathFromRoot).isSome

def applyMember (t : SelectionTree) (s : Sign) (op : Operator) (m : Member) : SelectionTree :=
  let path := m.pathFromRoot
  let record o := { o with state := (t.inheritedBy m).record o.state s op }
  { t with
    overrides := t.overrides.upsert Override.fresh record t.nextSequence path
    nextSequence := t.nextSequence + t.overrides.missing path }

/-- The last sign given to a level counts. -/
def applyLevel (t : SelectionTree) (s : Sign) (l : Level) : SelectionTree :=
  { t with
    levels := t.levels.filter (fun o => !(o.level == l)) ++ [⟨l, s, t.nextSequence⟩]
    nextSequence := t.nextSequence + 1 }

def apply (t : SelectionTree) (a : Selection) : SelectionTree :=
  match a.target with
  | .member m => t.applyMember a.sign a.operator m
  | .level l => t.applyLevel a.sign l

/-- Back to the start, except that the epoch moves on and strays are out of reach.
Nothing is left to be freed here: that is done where the nodes are stored. -/
def clear (t : SelectionTree) : SelectionTree :=
  { epoch := t.epoch + 1, strays := t.strays }

end SelectionTree
end CubeAxis
