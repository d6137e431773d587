namespace CubeAxis

inductive Sign where
  | included
  | excluded
  deriving DecidableEq, Repr

namespace Sign

def opposite : Sign → Sign
  | included => excluded
  | excluded => included

def isIncluded : Sign → Bool
  | included => true
  | excluded => false

def text : Sign → String
  | included => "include"
  | excluded => "exclude"

def ofText? : String → Option Sign
  | "include" => some included
  | "exclude" => some excluded
  | _ => none

end Sign

/-- How far an action on a member goes. Actions on ancestors or siblings are
accepted and change no sign. -/
inductive Operator where
  | member
  | children
  | memberAndChildren
  | descendants
  | ancestors
  | siblings
  deriving DecidableEq, Repr

namespace Operator

def all : List Operator :=
  [member, children, memberAndChildren, descendants, ancestors, siblings]

def text : Operator → String
  | member => "member"
  | children => "children"
  | memberAndChildren => "member_and_children"
  | descendants => "descendants"
  | ancestors => "ancestors"
  | siblings => "siblings"

def ofText? : String → Option Operator
  | "member" => some member
  | "children" => some children
  | "member_and_children" => some memberAndChildren
  | "descendants" => some descendants
  | "ancestors" => some ancestors
  | "siblings" => some siblings
  | _ => none

end Operator
end CubeAxis
