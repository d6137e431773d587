import CubeAxis.Member

namespace CubeAxis

/-- An ordered forest with a member and a value on every node. A nonempty forest
is its first node, the forest below that node, and the nodes after it. -/
inductive Forest (α : Type) where
  | nil
  | cons (label : Member) (value : α) (children : Forest α) (siblings : Forest α)

namespace Forest

variable {α : Type}

def isEmpty : Forest α → Bool
  | nil => true
  | cons .. => false

/-- Number of nodes. -/
def size : Forest α → Nat
  | nil => 0
  | cons _ _ children siblings => children.size + siblings.size + 1

/-- The trees of the forest, each as label, value and the forest below. -/
def trees : Forest α → List (Member × α × Forest α)
  | nil => []
  | cons m v children siblings => (m, v, children) :: siblings.trees

/-- The members on the top nodes. -/
def labels : Forest α → List Member
  | nil => []
  | cons m _ _ siblings => m :: siblings.labels

/-- The node at the end of a path of members: its value and the forest below.
Among siblings of one member the first counts. -/
def find? : Forest α → List Member → Option (α × Forest α)
  | nil, _ => none
  | cons .., [] => none
  | cons k v children siblings, m :: path =>
    if k == m then
      if path.isEmpty then some (v, children) else children.find? path
    else siblings.find? (m :: path)

def value? (f : Forest α) (path : List Member) : Option α :=
  (f.find? path).map (·.1)

/-- A single branch along a path. The nodes are made from running numbers, and
the last one is updated. -/
def branch (make : Nat → α) (update : α → α) : List Member → Nat → Forest α
  | [], _ => nil
  | [m], n => cons m (update (make n)) nil nil
  | m :: path, n => cons m (make n) (branch make update path (n + 1)) nil

/-- Updates the node at the end of a path, making the nodes that are missing.
New nodes come after their siblings and are numbered from `n` on. -/
def upsert (make : Nat → α) (update : α → α) (n : Nat) : Forest α → List Member → Forest α
  | nil, path => branch make update path n
  | cons k v children siblings, [] => cons k v children siblings
  | cons k v children siblings, m :: path =>
    if k == m then
      if path.isEmpty then cons k (update v) children siblings
      else cons k v (children.upsert make update n path) siblings
    else cons k v children (siblings.upsert make update n (m :: path))

/-- How many nodes of a path are not there. -/
def missing : Forest α → List Member → Nat
  | _, [] => 0
  | nil, path => path.length
  | cons k _ children siblings, m :: path =>
    if k == m then children.missing path else siblings.missing (m :: path)

/-- Updates the node at the end of a path if there is one. -/
def adjust (update : α → α) : Forest α → List Member → Forest α
  | nil, _ => nil
  | cons k v children siblings, [] => cons k v children siblings
  | cons k v children siblings, m :: path =>
    if k == m then
      if path.isEmpty then cons k (update v) children siblings
      else cons k v (children.adjust update path) siblings
    else cons k v children (siblings.adjust update (m :: path))

/-- Where the deepest node on a path is: the index among the siblings on each
level, `i` being the index of the first top node. -/
def locate (i : Nat) : Forest α → List Member → List Nat
  | nil, _ => []
  | cons .., [] => []
  | cons k _ children siblings, m :: path =>
    if k == m then i :: children.locate 0 path else siblings.locate (i + 1) (m :: path)

/-- The places of all nodes in pre-order. -/
def places (i : Nat) : Forest α → List (List Nat)
  | nil => []
  | cons _ _ children siblings =>
    [i] :: (children.places 0).map (i :: ·) ++ siblings.places (i + 1)

/-- Adds a node after the last sibling below the node at a place, if it exists. -/
def appendAt? (m : Member) (v : α) : Forest α → List Nat → Option (Forest α)
  | nil, [] => some (cons m v nil nil)
  | nil, _ :: _ => none
  | cons k w children siblings, [] =>
    (siblings.appendAt? m v []).map (cons k w children)
  | cons k w children siblings, 0 :: place =>
    (children.appendAt? m v place).map fun children => cons k w children siblings
  | cons k w children siblings, (i + 1) :: place =>
    (siblings.appendAt? m v (i :: place)).map (cons k w children)

end Forest
end CubeAxis
