import CubeAxis.Document
import CubeAxis.Resolution.Mode

namespace CubeAxis

structure HierarchySpec where
  name : String
  levels : List String
  members : List String := []
  /-- falls back to a default of the reader -/
  mode : Option Mode := none
  deriving DecidableEq

structure SelectionSpec where
  hierarchy : String
  sign : Sign
  operator : Operator := .member
  member : Option String := none
  level : Option String := none
  deriving DecidableEq

structure DrillSpec where
  position : List String
  deriving DecidableEq

/-- A session as written down: the hierarchies of an axis, the selection actions
in order and the drilled positions. -/
structure SessionSpec where
  hierarchies : List HierarchySpec := []
  selections : List SelectionSpec := []
  drills : List DrillSpec := []
  deriving DecidableEq

namespace Document

/-- A field that has to be there. -/
def required {α : Type} (read : Document → Option α) (field : Option Document) : Option α :=
  field.bind read

/-- A field that may be left out. -/
def orDefault {α : Type} (default : α) (read : Document → Option α) (field : Option Document) :
    Option α :=
  field.elim (some default) read

/-- A field that may be null. In a table it may also be left out. -/
def orNull {α : Type} (inTable : Bool) (read : Document → Option α) (field : Option Document) :
    Option (Option α) :=
  match field with
  | some d => nullable read d
  | none => if inTable then some none else none

def ofOption {α : Type} (write : α → Document) (value : Option α) : Document :=
  value.elim null write

def strings (values : List String) : Document := array (values.map string)

end Document

open Document

namespace HierarchySpec

def keys : List String := ["name", "levels", "members", "mode"]

def encode (s : HierarchySpec) : Document :=
  table [("name", string s.name), ("levels", strings s.levels),
    ("members", strings s.members), ("mode", ofOption (fun m => string m.text) s.mode)]

def decode? (format : Format) (d : Document) : Option HierarchySpec := do
  match ← d.fields? format keys with
  | [name, levels, members, mode] =>
    return {
      name := ← required string? name
      levels := ← required (list string?) levels
      members := ← orDefault [] (list string?) members
      mode := ← orNull d.isTable (word format Mode.ofText?) mode }
  | _ => none

end HierarchySpec

namespace SelectionSpec

def keys : List String := ["hierarchy", "sign", "operator", "member", "level"]

def encode (s : SelectionSpec) : Document :=
  table [("hierarchy", string s.hierarchy), ("sign", string s.sign.text),
    ("operator", string s.operator.text), ("member", ofOption string s.member),
    ("level", ofOption string s.level)]

def decode? (format : Format) (d : Document) : Option SelectionSpec := do
  match ← d.fields? format keys with
  | [hierarchy, sign, operator, member, level] =>
    return {
      hierarchy := ← required string? hierarchy
      sign := ← required (word format Sign.ofText?) sign
      operator := ← orDefault .member (word format Operator.ofText?) operator
      member := ← orNull d.isTable string? member
      level := ← orNull d.isTable string? level }
  | _ => none

end SelectionSpec

namespace DrillSpec

def keys : List String := ["position"]

def encode (s : DrillSpec) : Document :=
  table [("position", strings s.position)]

def decode? (format : Format) (d : Document) : Option DrillSpec := do
  match ← d.fields? format keys with
  | [position] => return { position := ← required (list string?) position }
  | _ => none

end DrillSpec

namespace SessionSpec

def keys : List String := ["hierarchy", "selection", "drill"]

/-- The document of a session, every default written out. -/
def encode (s : SessionSpec) : Document :=
  table [("hierarchy", array (s.hierarchies.map HierarchySpec.encode)),
    ("selection", array (s.selections.map SelectionSpec.encode)),
    ("drill", array (s.drills.map DrillSpec.encode))]

/-- Reads a session; `none` if the document does not fit. -/
def decode? (format : Format) (d : Document) : Option SessionSpec := do
  match ← d.fields? format keys with
  | [hierarchies, selections, drills] =>
    return {
      hierarchies := ← orDefault [] (list (HierarchySpec.decode? format)) hierarchies
      selections := ← orDefault [] (list (SelectionSpec.decode? format)) selections
      drills := ← orDefault [] (list (DrillSpec.decode? format)) drills }
  | _ => none

end SessionSpec
end CubeAxis
