namespace CubeAxis

variable {α : Type}

/-- Inserts in front of the first entry whose key is not smaller. -/
def insertBy (key : α → Nat) (a : α) : List α → List α
  | [] => [a]
  | b :: bs => if key a ≤ key b then a :: b :: bs else b :: insertBy key a bs

/-- Sorts by a key. Entries of one key keep their order. -/
def sortBy (key : α → Nat) (as : List α) : List α :=
  as.foldr (insertBy key) []

end CubeAxis
