/-!
# Decimals and binary64

Numbers are written in decimal and kept as binary64 where they have a point or an exponent. Reading
rounds the exact decimal once; a decimal beyond the greatest finite value is infinite. Writing takes
the fewest digits that read back to the same value and, of those, the nearest to it: the reals that
round to a value form an interval, and the digits are found by testing the two neighbours of the
value on ever finer decimal grids with exact natural arithmetic.
-/

namespace MessageBinder

/-- A decimal `digits · 10 ^ exponent`. -/
structure Decimal where
  /-- The digits, read as one number. -/
  digits : Nat
  /-- The power of ten that they are scaled by. -/
  exponent : Int
deriving DecidableEq, Repr

namespace Decimal

/-! ### Reading -/

/-- The number of decimal digits of a number. -/
def digitCount (n : Nat) : Nat := (Nat.toDigits 10 n).length

/-- The binary64 value of a decimal, rounded to nearest. Decimals far outside the range of binary64
are settled by their magnitude, so that their powers of ten are never computed. -/
def toFloat (d : Decimal) : Float :=
  let magnitude := (digitCount d.digits : Int) + d.exponent
  if d.digits = 0 ∨ magnitude < -400 then Float.ofBits 0
  else if 400 < magnitude then Float.ofBits 0x7FF0000000000000
  else Float.ofScientific d.digits (d.exponent < 0) d.exponent.natAbs

/-! ### The interval of a binary64 value -/

/-- A finite positive binary64 value `m · 2 ^ q`. -/
structure Binary where
  /-- The significand. -/
  m : Nat
  /-- The power of two that it is scaled by. -/
  q : Int
  /-- Whether the gap to the value below is half the gap to the value above. -/
  narrowBelow : Bool

/-- The significand and scale of the bits of a finite positive value. -/
def Binary.ofBits (b : UInt64) : Binary :=
  let e := ((b >>> 52) &&& 0x7FF).toNat
  let f := (b &&& 0xFFFFFFFFFFFFF).toNat
  if e = 0 then ⟨f, -1074, false⟩ else ⟨0x10000000000000 + f, (e : Int) - 1075, f = 0 && 1 < e⟩

/-- The part of a number's `base ^ e` that belongs in a numerator; that of `base ^ (-e)` belongs in
the denominator. -/
def scaleUp (base : Nat) (e : Int) : Nat := Nat.pow base e.toNat

/-- Compares `a · 10 ^ i` with `n · 2 ^ j`. -/
def compareScaled (a : Nat) (i : Int) (n : Nat) (j : Int) : Ordering :=
  compare (a * scaleUp 10 i * scaleUp 2 (-j)) (n * scaleUp 2 j * scaleUp 10 (-i))

/-- Whether a decimal rounds to the value; the two ends of the interval do exactly when the
significand is even. -/
def Binary.readsBack (x : Binary) (d : Decimal) : Bool :=
  let low := if x.narrowBelow then 4 * x.m - 1 else 4 * x.m - 2
  let inclusive := x.m % 2 = 0
  let atLow := compareScaled d.digits d.exponent low (x.q - 2)
  let atHigh := compareScaled d.digits d.exponent (4 * x.m + 2) (x.q - 2)
  (atLow = .gt || (inclusive && atLow = .eq)) && (atHigh = .lt || (inclusive && atHigh = .eq))

/-- The quotient of the value by `10 ^ e`, rounded down. -/
def Binary.onGrid (x : Binary) (e : Int) : Nat :=
  (x.m * scaleUp 2 x.q * scaleUp 10 (-e)) / (scaleUp 2 (-x.q) * scaleUp 10 e)

/-- The number of digits before the point of the value; it is not positive for values below one. -/
def Binary.scale (x : Binary) : Int := (digitCount (x.onGrid (-400)) : Int) - 400

/-- Of the two neighbours of the value on a grid, the one that reads back, the nearer if both do. -/
def Binary.candidate? (x : Binary) (e : Int) : Option Decimal :=
  let below : Decimal := ⟨x.onGrid e, e⟩
  let above : Decimal := ⟨x.onGrid e + 1, e⟩
  match x.readsBack below, x.readsBack above with
  | false, false => none
  | true, false => some below
  | false, true => some above
  | true, true =>
    match compareScaled (2 * below.digits + 1) e (2 * x.m) x.q with
    | .lt => some above
    | .gt => some below
    | .eq => some (if below.digits % 2 = 0 then below else above)

/-- The decimal with the fewest digits that reads back to the value. Seventeen digits always do. -/
def Binary.shortest (x : Binary) : Decimal :=
  ((List.range 17).findSome? fun n : Nat => x.candidate? (x.scale - (n + 1))).getD
    ⟨x.onGrid (x.scale - 17), x.scale - 17⟩

/-! ### Writing -/

/-- The digits of a decimal without the zeros at their end, and the exponent of the first digit. -/
def leading (d : Decimal) : List Char × Int :=
  let digits := Nat.toDigits 10 d.digits
  ((digits.reverse.dropWhile (· = '0')).reverse, d.exponent + digits.length - 1)

/-- The exponent part: a sign and at least two digits. -/
def exponentText (e : Int) : List Char :=
  let digits := Nat.toDigits 10 e.natAbs
  'e' :: (if e < 0 then '-' else '+') :: (if digits.length < 2 then '0' :: digits else digits)

/-- A positive decimal with a point: positional while its first digit stands from the fourth place
after the point to the sixteenth before it, otherwise scaled by a power of ten. -/
def render (d : Decimal) : List Char :=
  let (digits, e) := d.leading
  if e < -4 ∨ 16 ≤ e then
    match digits with
    | [] => []
    | [c] => c :: exponentText e
    | c :: cs => c :: '.' :: cs ++ exponentText e
  else if e < 0 then ['0', '.'] ++ List.replicate (-e - 1).toNat '0' ++ digits
  else
    let whole := digits.take (e.toNat + 1)
    let part := digits.drop (e.toNat + 1)
    whole ++ List.replicate (e.toNat + 1 - whole.length) '0' ++
      '.' :: (if part.isEmpty then ['0'] else part)

/-- The text of a finite binary64 value; zero keeps its sign. -/
def finiteText (x : Float) : String :=
  let bits := x.toBits
  let magnitude := bits &&& 0x7FFFFFFFFFFFFFFF
  let digits := if magnitude = 0 then ['0', '.', '0'] else (Binary.ofBits magnitude).shortest.render
  String.ofList (if bits = magnitude then digits else '-' :: digits)

end Decimal

/-- The words for the values that are no finite number. -/
structure NonFinite where
  /-- For a value that is no number. -/
  nan : String
  /-- For positive infinity. -/
  infinite : String
  /-- For negative infinity. -/
  negative : String

/-- The text of a binary64 value. -/
def floatText (words : NonFinite) (x : Float) : String :=
  if x.isNaN then words.nan
  else if x.isInf then if x < 0 then words.negative else words.infinite
  else Decimal.finiteText x

end MessageBinder
