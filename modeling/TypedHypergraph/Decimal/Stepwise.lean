/-
# Numerals read in rounded steps

The digits of a numeral are gathered in a coefficient of 64 bits, digits that no longer fit are left
out, and a double is made of the coefficient.  It is then multiplied with or divided by a power of
ten, which is a double too.

Each of these steps gives the double nearest to its result, but the last result need not be the
double nearest to the numeral: `0.11506253698710345` comes to the double below that one.  A numeral
with at most 15 digits and an exponent between -22 and 22 takes one rounded step only.
-/
namespace TypedHypergraph.Decimal

/-- Put digits behind a coefficient as long as it stays below `2 ^ 64`: the coefficient, and the
digits from the first one on that does not fit. -/
def gather (n : Nat) : List Char → Nat × List Char
  | [] => (n, [])
  | d :: ds =>
    let more := n * 10 + (d.toNat - '0'.toNat)
    if more < UInt64.size then gather more ds else (n, d :: ds)

/-- The greatest power of ten that is below some double. -/
def maxTenPower : Nat := 308

/-- The double nearest to a power of ten. -/
def tenPower (k : Nat) : Float := Float.ofScientific 1 false k

/-- What `x · 10 ^ e` comes to: infinite if it is beyond all doubles.  A divisor beyond all doubles
is taken in several steps. -/
def shift (x : Float) (e : Int) : Float :=
  if e.natAbs ≤ maxTenPower then
    if 0 ≤ e then x * tenPower e.toNat else x / tenPower (-e).toNat
  else if x == 0 then x
  else if 0 < e then 1.0 / 0.0
  else shift (x / tenPower maxTenPower) (e + maxTenPower)
termination_by (-e).toNat
decreasing_by simp only [maxTenPower] at *; omega

/-- What the digits before and behind a point and an exponent come to.  A whole digit that is left
out still counts as a place. -/
def stepwise (whole fraction : List Char) (exponent : Int) : Float :=
  let (n, unused) := gather 0 whole
  let (n, ignored) := gather n fraction
  let places : Int := fraction.length - ignored.length
  shift (Float.ofNat n) (unused.length - places + exponent)

end TypedHypergraph.Decimal
