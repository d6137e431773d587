import CubeAxis.Drill.Tree

namespace CubeAxis

/-- What a traversal of a trie calls back, with a state of its own. -/
structure Visitor (σ : Type) where
  /-- Shown the path to a node and the members listed there. -/
  visit : List Member → List Member → σ → σ
  /-- Asked at the end of a path whether to go on to a child. -/
  enter : List Member → Member → σ → Bool × σ

/-- A traversal under way: one path for all nodes, the visits made so far, and the state
of the visitor. -/
structure Traversal (σ : Type) where
  path : List Member := []
  visits : List (List Member × List Member) := []
  state : σ

namespace Traversal

variable {σ : Type}

/-- Whether the visitor goes on to a child. -/
def enters (v : Visitor σ) (m : Member) (r : Traversal σ) : Bool :=
  (v.enter r.path m r.state).1

/-- The visitor has been asked about a child. -/
def asked (v : Visitor σ) (m : Member) (r : Traversal σ) : Traversal σ :=
  { r with state := (v.enter r.path m r.state).2 }

def visit (v : Visitor σ) (drilled : List Member) (r : Traversal σ) : Traversal σ :=
  { r with visits := r.visits ++ [(r.path, drilled)], state := v.visit r.path drilled r.state }

def push (m : Member) (r : Traversal σ) : Traversal σ :=
  { r with path := r.path ++ [m] }

def pop (r : Traversal σ) : Traversal σ :=
  { r with path := r.path.dropLast }

end Traversal

/-- Goes through the nodes at the end of the path, asking the visitor about each. -/
def Forest.traverse {σ : Type} (v : Visitor σ) :
    Forest (List Member) → Traversal σ → Traversal σ
  | .nil, r => r
  | .cons m drilled children siblings, r =>
    siblings.traverse v
      (if r.enters v m then (children.traverse v (((r.asked v m).push m).visit v drilled)).pop
      else r.asked v m)

/-- A traversal of the whole trie, from the root on. -/
def DrillTree.traverse {σ : Type} (t : DrillTree) (v : Visitor σ) (s : σ) : Traversal σ :=
  t.below.traverse v (Traversal.visit v t.drilled { state := s })

end CubeAxis
