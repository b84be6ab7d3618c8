-- SUMMARY: The shortest decimal that reads back as a given double.

/-!
# Shortest decimals

A finite double is `m * 2 ^ q`. The decimals that read back as it fill an
interval around it, and the shortest decimal is the first hit on the grids with
one, two, three and more digits. A grid can only hit with one of the value's two
neighbours on it; of two hits the nearer counts, and the upper one on a tie.

The arithmetic is exact: a value and the bounds of its interval are written over
one common denominator.
-/

namespace SchemaQuery.Number

def twoPow (n : Nat) : Nat := Nat.pow 2 n

def tenPow (n : Nat) : Nat := Nat.pow 10 n

/-- The positive number `digits * 10 ^ exponent`. -/
structure Decimal where
  digits : Nat
  exponent : Int
deriving DecidableEq, Repr

/-- The reals that read back as one double: `mid / den` is the double itself, `low / den` and
    `high / den` are the ends, and `closed` says whether the ends belong. -/
structure Interval where
  low : Nat
  mid : Nat
  high : Nat
  den : Nat
  closed : Bool

def Interval.contains (r : Interval) (num den : Nat) : Bool :=
  let x := num * r.den
  let low := r.low * den
  let high := r.high * den
  if r.closed then low ≤ x && x ≤ high else low < x && x < high

/-- The interval of the double `m * 2 ^ q`. Below a power of two the gap is half as wide. -/
def Interval.ofBinary (m : Nat) (q : Int) (narrowBelow : Bool) : Interval :=
  let scale := twoPow q.toNat
  { low := (if narrowBelow then 4 * m - 1 else 4 * m - 2) * scale
    mid := 4 * m * scale
    high := (4 * m + 2) * scale
    den := 4 * twoPow (-q).toNat
    closed := m % 2 == 0 }

/-- The number `n * 10 ^ e` as a fraction. -/
def tenScaled (n : Nat) (e : Int) : Nat × Nat :=
  (n * tenPow e.toNat, tenPow (-e).toNat)

/-- The best decimal of the interval on the grid of multiples of `10 ^ e`. -/
def Interval.hitAt (r : Interval) (e : Int) : Option Decimal :=
  let below := r.mid * tenPow (-e).toNat / (r.den * tenPow e.toNat)
  let above := below + 1
  let inside (n : Nat) : Bool :=
    let (num, den) := tenScaled n e
    n != 0 && r.contains num den
  if inside above then
    if inside below then
      let (two, den) := tenScaled (below + above) e
      -- twice the value against the sum of its neighbours: nearer below only when strictly less
      if 2 * r.mid * den < two * r.den then some ⟨below, e⟩ else some ⟨above, e⟩
    else some ⟨above, e⟩
  else if inside below then some ⟨below, e⟩ else none

/-- The number of decimal digits. -/
def digitCount (n : Nat) : Nat := (Nat.toDigits 10 n).length

/-- The exponent `k` with `10 ^ (k - 1) ≤ mid / den < 10 ^ k`. -/
def Interval.magnitude (r : Interval) : Int :=
  let guess : Int := digitCount r.mid - digitCount r.den
  -- the quotient of numbers with `a` and `b` digits has `a - b` or `a - b + 1` digits
  let (num, den) := tenScaled 1 guess
  if num * r.den ≤ r.mid * den then guess + 1 else guess

/-- The decimal with the fewest digits, at most seventeen, inside the interval. -/
def Interval.shortest (r : Interval) : Decimal :=
  let top := r.magnitude
  let grids := (List.range 17).map fun (k : Nat) => top - (k + 1)
  (grids.findSome? r.hitAt).getD ⟨r.mid, 0⟩

/-- A finite double without its sign: significand and binary exponent. -/
def unpack (bits : UInt64) : Nat × Int :=
  let fraction : Nat := bits.toNat % twoPow 52
  let exponent : Nat := bits.toNat / twoPow 52 % twoPow 11
  if exponent == 0 then (fraction, -1074) else (twoPow 52 + fraction, (exponent : Int) - 1075)

/-- The shortest decimal of the magnitude of a nonzero finite double. -/
def shortestOfBits (bits : UInt64) : Decimal :=
  let (m, q) := unpack bits
  -- the least significand of a binade has its lower neighbour in the binade below
  let narrowBelow := m == twoPow 52 && q != -1074
  (Interval.ofBinary m q narrowBelow).shortest

/-- Digits without trailing zeros, with the exponent that keeps the value. -/
def stripZeros : Nat → Decimal → Decimal
  | 0, d => d
  | fuel + 1, d =>
    if d.digits != 0 && d.digits % 10 == 0 then stripZeros fuel ⟨d.digits / 10, d.exponent + 1⟩
    else d

/-- Positional text, `0.ddd`, `d.ddd` or `ddd.0`: the digits with a point and at least one place
    after it. -/
def positional (digits : List Char) (exponent : Int) : String :=
  if 0 ≤ exponent then
    String.ofList (digits ++ List.replicate exponent.toNat '0') ++ ".0"
  else
    let places := (-exponent).toNat
    let padded := List.replicate (places + 1 - digits.length) '0' ++ digits
    let whole := padded.take (padded.length - places)
    let fraction := padded.drop (padded.length - places)
    String.ofList whole ++ "." ++ String.ofList fraction

/-- Scientific text, `de7` or `d.dde-7`: the digits with a point after the first, and a power of
    ten. -/
def scientific (digits : List Char) (exponent : Int) : String :=
  let power := exponent + digits.length - 1
  let mantissa :=
    match digits with
    | [] => "0"
    | d :: [] => String.singleton d
    | d :: rest => String.singleton d ++ "." ++ String.ofList rest
  mantissa ++ "e" ++ toString power

/-- The written form of a double: the shortest digits that read back, positional from `0.0001` up
    to below ten to the sixteenth and in powers of ten beyond. -/
def render (x : Float) : String :=
  if x.isNaN then "NaN"
  else
    let bits := x.toBits
    let sign := if bits.toNat / twoPow 63 == 1 then "-" else ""
    if x.isInf then sign ++ "inf"
    else if bits.toNat % twoPow 63 == 0 then sign ++ "0.0"
    else
      let d := stripZeros 20 (shortestOfBits bits)
      let digits := Nat.toDigits 10 d.digits
      let power := d.exponent + digits.length
      -- the value lies between `10 ^ (power - 1)` and `10 ^ power`
      if -3 ≤ power && power ≤ 16 then sign ++ positional digits d.exponent
      else sign ++ scientific digits d.exponent

end SchemaQuery.Number
