namespace CubeAxis

variable {α : Type} [BEq α]

/-- The list without repetition. Of equal entries the first one stays, so the
order is that of first appearance. -/
def distinct : List α → List α
  | [] => []
  | a :: as => a :: (distinct as).filter (fun b => !(a == b))

/-- Appends an entry unless an equal one is there already. -/
def insertNew (as : List α) (a : α) : List α :=
  if as.contains a then as else as ++ [a]

end CubeAxis
