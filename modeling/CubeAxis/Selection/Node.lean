import CubeAxis.Selection.Tree

namespace CubeAxis

/-- Names a node of a selection tree, as an index does where the nodes are stored.
Nodes keep their place until the tree is cleared; then every name but that of the
root goes stale, for good. -/
structure NodeId where
  epoch : Nat
  place : List Nat
  deriving DecidableEq, Repr

/-- A node in its surroundings. The root has no member; any other node comes
with its member and what its parent hands down. -/
structure Site where
  label : Option (Member × Inherited)
  state : SelectionState
  sequence : Nat
  children : Forest Override

namespace Site

def member? (s : Site) : Option Member := s.label.map (·.1)

/-- What the node hands down to its children. -/
def handsDown (s : Site) : Inherited :=
  s.label.elim .top (fun l => l.2.handDown s.state)

/-- The sign of the node's own member. -/
def memberSign (s : Site) : ResolvedSign :=
  s.label.elim Inherited.top.default (fun l => l.2.memberSign s.state)

/-- The sign of the children that have no node. -/
def childrenSign (s : Site) : ResolvedSign := s.handsDown.childrenSign

/-- The sign of the deeper descendants that have no node. -/
def descendantsDefault (s : Site) : ResolvedSign := s.handsDown.default

/-- The nearest subtree sign on the node or above. -/
def defaultSign (s : Site) : Sign := s.handsDown.default.sign

/-- The sign in force for an operator. The root has nothing to fall back on. -/
def effectiveSign (s : Site) (op : Operator) : Option Sign :=
  s.state.effectiveSign op <| s.label.map fun l =>
    match op with
    | .member => l.2.childrenSign.sign
    | _ => l.2.default.sign

def selections (s : Site) : List Selection :=
  s.member?.elim [] s.state.selections

end Site

/-- The node at a place, `i` being what the top nodes are handed. -/
def Forest.siteAt? (i : Inherited) : Forest Override → List Nat → Option Site
  | .nil, _ => none
  | .cons .., [] => none
  | .cons m o children _, [0] => some ⟨some (m, i), o.state, o.sequence, children⟩
  | .cons _ o children _, 0 :: place => children.siteAt? (i.handDown o.state) place
  | .cons _ _ _ siblings, (k + 1) :: place => siblings.siteAt? i (k :: place)

namespace SelectionTree

/-- The root stands above the root members; its subtree sign is `excluded`. -/
def rootSite (t : SelectionTree) : Site where
  label := none
  state := .withDescendants .excluded
  sequence := 0
  children := t.overrides

def rootId (t : SelectionTree) : NodeId := ⟨t.epoch, []⟩

def site? (t : SelectionTree) (id : NodeId) : Option Site :=
  if id.place.isEmpty then some t.rootSite
  else if id.epoch = t.epoch then t.overrides.siteAt? .top id.place
  else none

/-- The deepest node on the path to a member. -/
def find (t : SelectionTree) (m : Member) : NodeId :=
  ⟨t.epoch, t.overrides.locate 0 m.pathFromRoot⟩

/-- The sign of a member as the deepest node on its path has it: the node's own if it stands
for the member, that for its children if it stands for the parent, else that for all below. -/
def foundSign? (t : SelectionTree) (m : Member) : Option ResolvedSign :=
  (t.site? (t.find m)).map fun s =>
    if s.member? == some m then s.memberSign
    else if s.member? == m.parent? then s.childrenSign
    else s.descendantsDefault

/-- All nodes in pre-order, the root first. -/
def preorder (t : SelectionTree) : List NodeId :=
  t.rootId :: (t.overrides.places 0).map (⟨t.epoch, ·⟩)

/-- The parent of a node other than the root. -/
def parentId? (id : NodeId) : Option NodeId :=
  if id.place.isEmpty then none else some ⟨id.epoch, id.place.dropLast⟩

theorem length_lt_of_parentId? {id p : NodeId} (above : parentId? id = some p) :
    p.place.length < id.place.length := by
  obtain ⟨epoch, place⟩ := id
  cases place with
  | nil => cases above
  | cons k place =>
    cases above
    simp

/-- The nearest subtree sign on the way up from a node. That of the root counts as recorded
nowhere. -/
def climb (t : SelectionTree) (id : NodeId) : Option ResolvedSign := do
  let s ← t.site? id
  match s.state.descendants with
  | some sign => return ⟨sign, if s.member?.isSome then .descendants else .root⟩
  | none =>
    match above : parentId? id with
    | some p =>
      have := length_lt_of_parentId? above
      t.climb p
    | none => return ⟨.excluded, .root⟩
termination_by id.place.length

/-- Adds a child to a node, even if it has one for the member already. Below a
stale name the new node is a stray and has no name. -/
def createChild (t : SelectionTree) (id : NodeId) (m : Member) :
    Option NodeId × SelectionTree :=
  let node := Override.fresh t.nextSequence
  let t := { t with nextSequence := t.nextSequence + 1 }
  match t.site? id, t.overrides.appendAt? m node id.place with
  | some s, some overrides =>
    (some ⟨t.epoch, id.place ++ [s.children.labels.length]⟩, { t with overrides := overrides })
  | _, _ => (none, { t with strays := t.strays + 1 })

end SelectionTree
end CubeAxis
