import CubeAxis.Level

namespace CubeAxis

/-- A member of a hierarchy, with the line of members it hangs from. Each one
carries the name of its level; the depth of the level is that of the member. -/
inductive Member where
  | root (hierarchy name levelName : String)
  | child (parent : Member) (name levelName : String)

namespace Member

def name : Member → String
  | root _ n _ => n
  | child _ n _ => n

def hierarchy : Member → String
  | root h _ _ => h
  | child p _ _ => p.hierarchy

def parent? : Member → Option Member
  | root .. => none
  | child p _ _ => some p

/-- Number of ancestors. -/
def depth : Member → Nat
  | root .. => 0
  | child p _ _ => p.depth + 1

def levelName : Member → String
  | root _ _ l => l
  | child _ _ l => l

def level (m : Member) : Level :=
  ⟨m.hierarchy, m.levelName, m.depth⟩

/-- Names are bracketed but not escaped, so a name that holds `].[` reads like
a member further down. -/
def uniqueName : Member → String
  | root h n _ => "[" ++ h ++ "].[" ++ n ++ "]"
  | child p n _ => p.uniqueName ++ ".[" ++ n ++ "]"

/-- Slash separated names from the root down. -/
def path : Member → String
  | root _ n _ => n
  | child p n _ => p.path ++ "/" ++ n

/-- Members are told apart by unique name alone. -/
instance : BEq Member := ⟨fun a b => a.uniqueName == b.uniqueName⟩

/-- The member and its ancestors, nearest first. -/
def upward : Member → List Member
  | root h n l => [root h n l]
  | child p n l => child p n l :: p.upward

/-- Proper ancestors, nearest first. -/
def ancestors : Member → List Member
  | root .. => []
  | child p _ _ => p.upward

/-- From the root down to the member itself. -/
def pathFromRoot (m : Member) : List Member :=
  m.upward.reverse

def isAncestorOf (a m : Member) : Bool :=
  a.depth < m.depth && m.ancestors.contains a

/-- The member itself or one of its ancestors, by depth. -/
def ancestorAt? (m : Member) (depth : Nat) : Option Member :=
  m.upward.find? (fun a => a.depth == depth)

theorem parent?_uniqueName_lt {m p : Member} (h : m.parent? = some p) :
    p.uniqueName.length < m.uniqueName.length := by
  cases m with
  | root => simp [parent?] at h
  | child q n l =>
    obtain rfl : q = p := by simpa [parent?] using h
    simp only [uniqueName, String.length_append, show (".[" : String).length = 2 from rfl,
      show ("]" : String).length = 1 from rfl]
    omega

end Member
end CubeAxis
