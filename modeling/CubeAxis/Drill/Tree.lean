import CubeAxis.Distinct
import CubeAxis.Forest

namespace CubeAxis

/-- A position on an axis: members of the first hierarchies, in axis order. -/
abbrev Position := List Member

/-- The recorded positions of an axis as a trie. The position `p ++ [m]` is
recorded by listing `m` at the node at the end of `p`. Nodes outlive the
positions they were made for. -/
structure DrillTree where
  drilled : List Member := []
  below : Forest (List Member) := .nil

/-- Empties the nodes `depth` levels down and cuts off what is below them. -/
def Forest.prune : Nat → Forest (List Member) → Forest (List Member)
  | _, .nil => .nil
  | 0, .cons m _ _ siblings => .cons m [] .nil (siblings.prune 0)
  | depth + 1, .cons m drilled children siblings =>
    .cons m drilled (children.prune depth) (siblings.prune (depth + 1))

/-- Empties the nodes `depth` levels down and keeps them. -/
def Forest.clearLevel : Nat → Forest (List Member) → Forest (List Member)
  | _, .nil => .nil
  | 0, .cons m _ children siblings => .cons m [] children (siblings.clearLevel 0)
  | depth + 1, .cons m drilled children siblings =>
    .cons m drilled (children.clearLevel depth) (siblings.clearLevel (depth + 1))

/-- The values met in pre-order with the paths leading to them, entering only
the children that `enter` lets in. -/
def Forest.visit {α : Type} (enter : List Member → Member → Bool) (path : List Member) :
    Forest α → List (List Member × α)
  | .nil => []
  | .cons m v children siblings =>
    (if enter path m then (path ++ [m], v) :: children.visit enter (path ++ [m]) else []) ++
      siblings.visit enter path

/-- Whether any node lists a member. -/
def Forest.anyDrilled : Forest (List Member) → Bool
  | .nil => false
  | .cons _ drilled children siblings =>
    !drilled.isEmpty || children.anyDrilled || siblings.anyDrilled

namespace DrillTree

def empty : DrillTree := {}

/-- Changes the members listed at the end of a path, if the path exists. -/
def adjustAt (t : DrillTree) (path : List Member) (change : List Member → List Member) :
    DrillTree :=
  if path.isEmpty then { t with drilled := change t.drilled }
  else { t with below := t.below.adjust change path }

/-- Changes the members listed at the end of a path, making the path. -/
def upsertAt (t : DrillTree) (path : List Member) (change : List Member → List Member) :
    DrillTree :=
  if path.isEmpty then { t with drilled := change t.drilled }
  else { t with below := t.below.upsert (fun _ => []) change 0 path }

/-- Records a position. The empty position is ignored. -/
def add (t : DrillTree) (position : Position) : DrillTree :=
  match position.getLast? with
  | none => t
  | some m => t.upsertAt position.dropLast (insertNew · m)

/-- Forgets a position. -/
def remove (t : DrillTree) (position : Position) : DrillTree :=
  match position.getLast? with
  | none => t
  | some m => t.adjustAt position.dropLast (fun ms => ms.filter (fun k => !(k == m)))

/-- The members that continue a path to a recorded position. -/
def drilledAt (t : DrillTree) (path : List Member) : List Member :=
  if path.isEmpty then t.drilled else (t.below.value? path).getD []

def isDrilled (t : DrillTree) (position : Position) : Bool :=
  match position.getLast? with
  | none => false
  | some m => (t.drilledAt position.dropLast).contains m

/-- Forgets the positions longer than `depth`. -/
def prune (t : DrillTree) : (depth : Nat) → DrillTree
  | 0 => {}
  | depth + 1 => { t with below := t.below.prune depth }

/-- Forgets the positions of length `depth + 1` and keeps the nodes. -/
def clearLevel (t : DrillTree) : (depth : Nat) → DrillTree
  | 0 => { t with drilled := [] }
  | depth + 1 => { t with below := t.below.clearLevel depth }

def clear (t : DrillTree) : DrillTree := t.prune 0

/-- The nodes in pre-order, each with its path and the members it lists. The
children that `enter` refuses are skipped with all below them. -/
def visit (t : DrillTree) (enter : List Member → Member → Bool) :
    List (List Member × List Member) :=
  ([], t.drilled) :: t.below.visit enter []

/-- Every recorded position, in trie order. -/
def positions (t : DrillTree) : List Position :=
  (t.visit fun _ _ => true).flatMap fun node => node.2.map (node.1 ++ [·])

end DrillTree
end CubeAxis
