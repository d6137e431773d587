import CubeAxis.Member

namespace CubeAxis

/-- A hierarchy: its ordered levels and its members in the order they were added. -/
structure Hierarchy where
  name : String
  levels : List Level
  members : List Member := []

inductive HierarchyError where
  | invalidMemberName (hierarchy name : String)
  | unknownMember (hierarchy path : String)
  | unknownLevel (hierarchy level : String)
  | levelOutOfRange (hierarchy : String) (depth : Nat)
  | duplicateMember (path : String)
  | foreignMember (member hierarchy : String)

def HierarchyError.message : HierarchyError → String
  | invalidMemberName h n => "invalid member name '" ++ n ++ "' in hierarchy " ++ h
  | unknownMember h p => "unknown member '" ++ p ++ "' in hierarchy " ++ h
  | unknownLevel h l => "unknown level '" ++ l ++ "' in hierarchy " ++ h
  | levelOutOfRange h d => "hierarchy " ++ h ++ " has no level at depth " ++ toString d
  | duplicateMember p => "duplicate member: " ++ p
  | foreignMember m h => "member " ++ m ++ " does not belong to hierarchy " ++ h

/-- Cuts at every slash; the pieces are one more than the slashes. -/
def splitAtSlashes : List Char → List (List Char)
  | [] => [[]]
  | c :: cs =>
    if c = '/' then [] :: splitAtSlashes cs
    else match splitAtSlashes cs with
      | [] => [[c]]
      | piece :: pieces => (c :: piece) :: pieces

/-- Drops the slashes at both ends. -/
def trimSlashes (path : List Char) : List Char :=
  ((path.dropWhile (· == '/')).reverse.dropWhile (· == '/')).reverse

/-- The names along a path. The empty path has one name, the empty one. -/
def pathNames (path : String) : List String :=
  (splitAtSlashes (trimSlashes path.toList)).map String.ofList

namespace Hierarchy

/-- A hierarchy without members, one level per name. -/
def new (name : String) (levelNames : List String) : Hierarchy where
  name := name
  levels := levelNames.mapIdx fun depth level => ⟨name, level, depth⟩

def uniqueName (h : Hierarchy) : String :=
  "[" ++ h.name ++ "]"

def level? (h : Hierarchy) (depth : Nat) : Option Level :=
  h.levels[depth]?

/-- The first level of the name. -/
def levelByName (h : Hierarchy) (name : String) : Except HierarchyError Level :=
  match h.levels.find? (fun l => l.name == name) with
  | some l => .ok l
  | none => .error (.unknownLevel h.name name)

def roots (h : Hierarchy) : List Member :=
  h.members.filter (fun m => m.parent?.isNone)

/-- The members whose parent has the unique name of `m`, in insertion order. -/
def children (h : Hierarchy) (m : Member) : List Member :=
  h.members.filter (fun c => c.parent?.any (· == m))

def findPath? (h : Hierarchy) (path : String) : Option Member :=
  h.members.find? (fun m => m.path == path)

/-- Looks a member up by its path; slashes at both ends do not count. -/
def member (h : Hierarchy) (path : String) : Except HierarchyError Member :=
  match h.findPath? (String.ofList (trimSlashes path.toList)) with
  | some m => .ok m
  | none => .error (.unknownMember h.name path)

/-- The member that `name` below `parent?` would be, on a level named `levelName`. -/
def childOf (h : Hierarchy) (parent? : Option Member) (name levelName : String) : Member :=
  match parent? with
  | none => .root h.name name levelName
  | some p => .child p name levelName

/-- Adds a member below `parent?`, or as a root. The parent may come from any
hierarchy of the same name; it need not be one of the members. -/
def add (h : Hierarchy) (parent? : Option Member) (name : String) :
    Except HierarchyError (Member × Hierarchy) :=
  match parent?.filter (fun p => p.hierarchy != h.name) with
  | some p => .error (.foreignMember p.uniqueName h.name)
  | none =>
    if name.isEmpty || name.toList.contains '/' then .error (.invalidMemberName h.name name)
    else
      let depth := parent?.elim 0 (fun p => p.depth + 1)
      match h.level? depth with
      | none => .error (.levelOutOfRange h.name depth)
      | some level =>
        let m := h.childOf parent? name level.name
        if (h.findPath? m.path).isSome then .error (.duplicateMember m.path)
        else .ok (m, { h with members := h.members ++ [m] })

/-- Walks down from `parent?`, adding the members that are missing. The members
added before a failure stay. -/
def addNames (h : Hierarchy) (parent? : Option Member) :
    List String → Except HierarchyError Member × Hierarchy
  | [] => match parent? with
    | some p => (.ok p, h)
    | none => (.error (.unknownMember h.name ""), h)
  | name :: names =>
    match h.findPath? (parent?.elim name (fun p => p.path ++ "/" ++ name)) with
    | some m => h.addNames (some m) names
    | none => match h.add parent? name with
      | .error e => (.error e, h)
      | .ok (m, h) => h.addNames (some m) names

/-- Adds the member of a path together with its missing ancestors. -/
def addPath (h : Hierarchy) (path : String) : Except HierarchyError Member × Hierarchy :=
  h.addNames none (pathNames path)

/-- Adds the members of all paths; the first failure ends it. -/
def addPaths (h : Hierarchy) : List String → Except HierarchyError Hierarchy
  | [] => .ok h
  | path :: paths =>
    match h.addPath path with
    | (.error e, _) => .error e
    | (.ok _, h) => h.addPaths paths

end Hierarchy
end CubeAxis
