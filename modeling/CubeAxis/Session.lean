import CubeAxis.Drill.Axis
import CubeAxis.Expr.Evaluation
import CubeAxis.Selection.Replay
import CubeAxis.Session.Spec

namespace CubeAxis

inductive SessionError where
  | hierarchy (e : HierarchyError)
  | evaluation (e : EvalError)
  | duplicateHierarchy (name : String)
  | unknownHierarchy (name : String)
  | malformedPosition (members hierarchies : Nat)
  /-- a selection names both a member and a level, or neither -/
  | ambiguousTarget (index : Nat)

def SessionError.message : SessionError → String
  | hierarchy e => e.message
  | evaluation e => e.message
  | duplicateHierarchy name => "duplicate hierarchy: " ++ name
  | unknownHierarchy name => "unknown hierarchy: " ++ name
  | malformedPosition members hierarchies =>
    "malformed drill position: " ++ toString members ++ " members for an axis of " ++
      toString hierarchies ++ " hierarchies"
  | ambiguousTarget index =>
    "selection #" ++ toString index ++ ": exactly one of 'member' and 'level' is required"

/-- A hierarchy on the axis of a session. -/
structure Dimension where
  hierarchy : Hierarchy
  mode : Mode
  selection : SelectionTree := .empty

def Dimension.onAxis (d : Dimension) : AxisDimension :=
  ⟨d.selection, d.hierarchy.levels, d.mode⟩

/-- The state of one axis: its hierarchies in order, each with its selection,
and the recorded positions. -/
structure Session where
  dimensions : List Dimension := []
  drills : DrillTree := .empty

namespace Session

def hierarchies (s : Session) : List Hierarchy :=
  s.dimensions.map (·.hierarchy)

def axis (s : Session) : List AxisDimension :=
  s.dimensions.map (·.onAxis)

/-- The place of a hierarchy on the axis. -/
def indexOf (s : Session) (hierarchy : String) : Except SessionError Nat :=
  match s.dimensions.findIdx? (fun d => d.hierarchy.name == hierarchy) with
  | some i => .ok i
  | none => .error (.unknownHierarchy hierarchy)

/-- Changes the selection of the hierarchy at a place. -/
def modifySelection (s : Session) (index : Nat) (change : SelectionTree → SelectionTree) :
    Session :=
  { s with
    dimensions := s.dimensions.modify index fun d => { d with selection := change d.selection } }

def addDimension (defaultMode : Mode) (s : Session) (spec : HierarchySpec) :
    Except SessionError Session :=
  if s.dimensions.any (fun d => d.hierarchy.name == spec.name) then
    .error (.duplicateHierarchy spec.name)
  else do
    let h ← ((Hierarchy.new spec.name spec.levels).addPaths spec.members).mapError .hierarchy
    let dim : Dimension := { hierarchy := h, mode := spec.mode.getD defaultMode }
    return { s with dimensions := s.dimensions ++ [dim] }

/-- The member at a path of a hierarchy of the axis. -/
def memberAt (h : Hierarchy) (path : String) : Except SessionError Member :=
  (h.member path).mapError .hierarchy

def levelNamed (h : Hierarchy) (name : String) : Except SessionError Level :=
  (h.levelByName name).mapError .hierarchy

/-- The action a selection stands for, `index` being its number in the file. -/
def actionOf (h : Hierarchy) (index : Nat) (spec : SelectionSpec) :
    Except SessionError Selection :=
  match spec.member, spec.level with
  | some path, none => return .onMember spec.sign spec.operator (← memberAt h path)
  | none, some name => return .onLevel spec.sign (← levelNamed h name)
  | _, _ => throw (.ambiguousTarget index)

def select (s : Session) (index : Nat) (spec : SelectionSpec) : Except SessionError Session := do
  let i ← s.indexOf spec.hierarchy
  match s.dimensions[i]? with
  | none => return s
  | some d =>
    let action ← actionOf d.hierarchy index spec
    return s.modifySelection i (·.apply action)

/-- The members at one path per hierarchy, from the first hierarchy on. -/
def position (s : Session) (paths : List String) : Except SessionError Position :=
  if paths.isEmpty || s.dimensions.length < paths.length then
    .error (.malformedPosition paths.length s.dimensions.length)
  else (paths.zip s.dimensions).mapM fun (path, d) => memberAt d.hierarchy path

def addDrill (s : Session) (spec : DrillSpec) : Except SessionError Session := do
  return { s with drills := s.drills.add (← s.position spec.position) }

/-- Builds the hierarchies, then applies the selections, then records the drills. -/
def build (spec : SessionSpec) (defaultMode : Mode) : Except SessionError Session := do
  let s ← spec.hierarchies.foldlM (addDimension defaultMode) {}
  let s ← spec.selections.zipIdx.foldlM (fun s (sel, index) => s.select index sel) s
  spec.drills.foldlM addDrill s

/-- The set expression of the axis. -/
def expr (s : Session) : Expr :=
  s.drills.axisExpr s.axis

/-- The tuples shown on the axis. -/
def evaluate (s : Session) : Except SessionError (List Tuple) :=
  (s.expr.evaluate s.hierarchies).mapError .evaluation

def visiblePositions (s : Session) : List Position :=
  s.drills.visiblePositions s.axis

/-- The recorded positions that are not shown, in recorded order. -/
def hiddenPositions (s : Session) : List Position :=
  let visible := s.visiblePositions
  s.drills.positions.filter fun p => !visible.contains p

/-- Per hierarchy, the actions that lead back to its selection. -/
def selections (s : Session) : List (Hierarchy × List Selection) :=
  s.dimensions.map fun d => (d.hierarchy, d.selection.selections)

end Session
end CubeAxis
