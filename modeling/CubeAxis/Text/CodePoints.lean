namespace CubeAxis.Text

/-- A set of code points by its boundaries in rising order: it begins at the first,
ends before the second, begins again at the third, and so on. -/
structure CodePoints where
  boundaries : List Nat

/-- A character lies in the set if the boundaries up to it are odd in number. -/
def CodePoints.contains (s : CodePoints) (c : Char) : Bool :=
  s.boundaries.countP (· ≤ c.toNat) % 2 == 1

end CubeAxis.Text
