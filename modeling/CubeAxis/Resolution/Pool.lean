import CubeAxis.Member

namespace CubeAxis

/-- Recorded positions of one hierarchy that no member has claimed yet. -/
abbrev Pool := List Member

namespace Pool

/-- Takes one occurrence of a member out; tells whether there was one. -/
def take (p : Pool) (m : Member) : Bool × Pool :=
  (p.contains m, p.erase m)

/-- Takes out every member that passes a test, in pool order. -/
def takeWhere (p : Pool) (test : Member → Bool) : List Member × Pool :=
  (p.filter test, p.filter (fun m => !test m))

end Pool
end CubeAxis
