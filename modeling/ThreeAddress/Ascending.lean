/-!
Finite sets as lists in strictly ascending order. Items that compare as equal count as
one.
-/

namespace ThreeAddress.Ascending

variable {α : Type} [Ord α]

/-- Adds an item at its place, unless it is there. -/
def insert (a : α) : List α → List α
  | [] => [a]
  | b :: rest =>
    match compare a b with
    | .lt => a :: b :: rest
    | .eq => b :: rest
    | .gt => b :: insert a rest

def insertAll (items : List α) (set : List α) : List α :=
  items.foldl (fun set a => insert a set) set

def ofList (items : List α) : List α := insertAll items []

end ThreeAddress.Ascending
