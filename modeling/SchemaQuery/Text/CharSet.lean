-- SUMMARY: Sets of characters given by the lengths of their runs.

/-!
# Character sets

A character property is a set of code points. The sets here are written as the
lengths of the runs of code points: first of those outside the set, then of those
inside it, and so on in turn.
-/

namespace SchemaQuery.Text

/-- A set of code points, given by the lengths of the runs outside and inside it. -/
structure CharSet where
  runs : List Nat

/-- Whether the code point at a distance from the start of some runs lies in a run inside the set;
    the last run has no end. -/
def CharSet.isInside (inside : Bool) : List Nat → Nat → Bool
  | [], _ => inside
  | run :: runs, n => if n < run then inside else isInside (!inside) runs (n - run)

def CharSet.contains (s : CharSet) (c : Char) : Bool := isInside false s.runs c.toNat

end SchemaQuery.Text
