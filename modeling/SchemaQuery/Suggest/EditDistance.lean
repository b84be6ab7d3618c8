-- SUMMARY: Edit distance of two texts.

/-!
# Edit distance

The number of insertions, deletions and substitutions of single characters that
turn one text into another, row by row of the distance table. The rows are as long
as the shorter text.
-/

namespace SchemaQuery.EditDistance

/-- The rest of a row of the distance table: from the characters still to come, the row above from
    the cell above the last one on, and the last cell. -/
def rowFrom (c : Char) : List Char → List Nat → Nat → List Nat
  | d :: ds, diagonal :: above :: row, left =>
    let cell := min (min (above + 1) (left + 1)) (diagonal + if c = d then 0 else 1)
    cell :: rowFrom c ds (above :: row) cell
  | _, _, _ => []

/-- The row of the table for one more character of the first text. -/
def nextRow (b : List Char) (row : List Nat) (c : Char) : List Nat :=
  let first := row.headD 0 + 1
  first :: rowFrom c b row first

/-- The last row of the table. -/
def lastRow (a b : List Char) : List Nat :=
  a.foldl (nextRow b) (List.range (b.length + 1))

def lastCell (a b : List Char) : Nat := (lastRow a b).getLastD 0

def distance (a b : String) : Nat :=
  if a.toList.length < b.toList.length then lastCell b.toList a.toList
  else lastCell a.toList b.toList

end SchemaQuery.EditDistance
