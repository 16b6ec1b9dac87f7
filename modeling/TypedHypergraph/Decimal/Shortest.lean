/-
# The fewest digits that read back

Every finite positive double is `mantissa · 2 ^ exponent`.  The reals that round to it form an
interval around it, which has its ends if and only if the mantissa is even.  A decimal numeral
reads back as the double if and only if its value lies in that interval.

`Binary.shortest` gives the numeral with the fewest digits among those; of several it gives the
one nearest to the double, and of two that are equally near the greater one.  It looks at the
grids of multiples of a power of ten, the coarsest first: on a grid that meets the interval, one
of the two neighbours of the double lies in it.
-/
import Std.Data.TreeMap

namespace TypedHypergraph.Decimal

/-! ## Doubles in exact arithmetic -/

/-- The magnitude of a finite double. -/
structure Binary where
  mantissa : Nat
  exponent : Int
  /-- Whether the next smaller double is only half as far away as the next greater one. -/
  narrow : Bool
  deriving DecidableEq, Repr

/-- The magnitude that the bits of a finite double stand for. -/
def Binary.ofBits (bits : UInt64) : Binary :=
  let field := ((bits >>> 52) &&& 0x7ff).toNat
  let fraction := (bits &&& 0xfffffffffffff).toNat
  if field = 0 then ⟨fraction, -1074, false⟩
  else ⟨fraction + 0x10000000000000, (field : Int) - 1075, fraction == 0 && 1 < field⟩

/-- The decimal numeral `coefficient · 10 ^ exponent`. -/
structure Numeral where
  coefficient : Nat
  exponent : Int
  deriving DecidableEq, Repr

/-! ## The interval of a double -/

namespace Binary

/-- With `(u, v) = b.scales e`, comparing `x · 10 ^ e` with `y · 2 ^ (b.exponent - 2)` is
comparing `x * v` with `y * u`. -/
def scales (b : Binary) (e : Int) : Nat × Nat :=
  let q := b.exponent - 2
  (Nat.pow 2 q.toNat * Nat.pow 10 (-e).toNat, Nat.pow 2 (-q).toNat * Nat.pow 10 e.toNat)

/-- Whether `n` reads back as `b`. -/
def covers (b : Binary) (n : Numeral) : Bool :=
  let (u, v) := b.scales n.exponent
  let low := (4 * b.mantissa - if b.narrow then 1 else 2) * u
  let high := (4 * b.mantissa + 2) * u
  let x := n.coefficient * v
  if b.mantissa % 2 = 0 then low ≤ x && x ≤ high else low < x && x < high

/-- The numeral on the grid of multiples of `10 ^ e` that reads back as `b` and is nearest to
it, if there is one. -/
def onGrid (b : Binary) (e : Int) : Option Numeral :=
  let (u, v) := b.scales e
  let below := 4 * b.mantissa * u / v
  let down : Numeral := ⟨below, e⟩
  let up : Numeral := ⟨below + 1, e⟩
  match b.covers down, b.covers up with
  | true, true =>
    if 4 * b.mantissa * u - below * v < (below + 1) * v - 4 * b.mantissa * u then down else up
  | true, false => down
  | false, true => up
  | false, false => none

/-- The first hit on the grids `10 ^ e`, `10 ^ (e - 1)`, … -/
def firstHit (b : Binary) : Nat → Int → Numeral
  | 0, e => ⟨0, e⟩
  | fuel + 1, e => (b.onGrid e).getD (firstHit b fuel (e - 1))

/-- The numeral with the fewest digits that reads back as `b`.  No double is above `10 ^ 309`
and every double is a multiple of `10 ^ -1074`, so the grids in between are enough. -/
def shortest (b : Binary) : Numeral :=
  b.firstHit (309 + 1075) 309

end Binary

/-! ## Positional notation -/

/-- The numeral with all its places written out, and no mark of an exponent. -/
def Numeral.positional (n : Numeral) : String :=
  let digits := toString n.coefficient
  let zeros (k : Nat) : String := String.ofList (List.replicate k '0')
  if 0 ≤ n.exponent then
    if n.coefficient = 0 then "0" else digits ++ zeros n.exponent.toNat
  else
    let places := (-n.exponent).toNat
    let padded := zeros (places + 1 - digits.length) ++ digits
    let whole := padded.length - places
    String.ofList (padded.toList.take whole) ++ "." ++ String.ofList (padded.toList.drop whole)

/-- Whether the sign of a double is negative; zero and the values that are no numbers have a
sign too. -/
def isNegative (x : Float) : Bool := x.toBits >>> 63 = 1

/-- A double in its fewest digits and in positional notation: `0.1`, `1`, `-0`. -/
def text (x : Float) : String :=
  if x.isNaN then "NaN"
  else
    let magnitude :=
      if x.isInf then "inf"
      else
        let b := Binary.ofBits x.toBits
        if b.mantissa = 0 then "0" else b.shortest.positional
    if isNegative x then "-" ++ magnitude else magnitude

/-! ## Reading -/

/-- The double nearest to `coefficient · 10 ^ exponent`: infinite if no finite one is near. -/
def Numeral.toFloat (n : Numeral) : Float :=
  let leading := (toString n.coefficient).length + n.exponent
  if n.coefficient = 0 then 0
  else if 400 < leading then 1.0 / 0.0
  else if leading < -400 then 0
  else if n.exponent < 0 then Float.ofScientific n.coefficient true (-n.exponent).toNat
  else Float.ofScientific n.coefficient false n.exponent.toNat

end TypedHypergraph.Decimal
