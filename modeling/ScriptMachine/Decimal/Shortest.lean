/-
# The shortest decimal of a double

Among the decimals that read back as a given double, `shortest` picks one with the fewest digits,
and among those the nearest to the double; of two equally near ones it takes the larger.

The search is exact.  A finite double is `m * 2 ^ q`, and the reals that round to it form an interval
whose ends belong to it exactly when `m` is even.  For one digit, two digits and so on, the decimals
with that many digits form a grid, and only the two neighbours of the double on the grid have to be
tested: if any point of the grid is in the interval, one of them is.  Seventeen digits always suffice.
-/
import ScriptMachine.Number.Double

namespace ScriptMachine

/-- The decimal `digits * 10 ^ exponent`. -/
structure Decimal where
  digits : Nat
  exponent : Int
deriving DecidableEq, Inhabited

namespace Decimal

/-- The power `base ^ k`, or one if `k` is negative.  A fraction takes the powers with positive
exponents above its bar and those with negative ones below. -/
def wholePower (base : Nat) (k : Int) : Nat := Nat.pow base k.toNat

/-- A double with the interval of reals that round to it, in quarter units of its last place: the
double is `4 * m`, the interval goes from `low` to `4 * m + 2`, and the unit is `2 ^ q`. -/
structure Rounding where
  m : Nat
  low : Nat
  q : Int
  closed : Bool

/-- The interval of a finite positive double.  Below a power of two the doubles lie twice as dense,
so there the lower half of the interval is half as long. -/
def Rounding.ofDouble (x : Double) : Rounding :=
  let m := x.significand
  let atPower := x.fractionBits == 0 && x.exponentBits > 1
  { m
    low := if atPower then 4 * m - 1 else 4 * m - 2
    q := x.scale - 2
    closed := m % 2 == 0 }

/-- The numerator of a number of quarter units divided by `10 ^ e`. -/
def Rounding.numerator (r : Rounding) (e : Int) (quarters : Nat) : Nat :=
  quarters * wholePower 2 r.q * wholePower 10 (-e)

/-- The denominator that goes with `numerator`. -/
def Rounding.denominator (r : Rounding) (e : Int) : Nat :=
  wholePower 2 (-r.q) * wholePower 10 e

/-- Whether `10 ^ k` is at most the double. -/
def Rounding.reaches (r : Rounding) (k : Int) : Bool :=
  r.denominator k ≤ r.numerator k (4 * r.m)

/-- The exponent of the double's leading digit: the largest `k` with `10 ^ k` at most the double.
The first guess comes from the binary exponent and is off by one at most. -/
def Rounding.leading (r : Rounding) : Int :=
  let binary : Int := (4 * r.m).log2 + r.q
  let guess := (binary * 30103).fdiv 100000
  if r.reaches (guess + 1) then guess + 1
  else if r.reaches guess then guess
  else guess - 1

/-- The best decimal with unit `10 ^ e` in the interval, if there is one. -/
def Rounding.onGrid? (r : Rounding) (e : Int) : Option Nat :=
  let den := r.denominator e
  let num := r.numerator e (4 * r.m)
  let below := num / den
  let low := r.numerator e r.low
  let high := r.numerator e (4 * r.m + 2)
  let belowFits := if r.closed then low ≤ below * den else low < below * den
  let aboveFits := if r.closed then (below + 1) * den ≤ high else (below + 1) * den < high
  let belowNearer := 2 * (num - below * den) < den
  if belowFits && (belowNearer || !aboveFits) then some below
  else if aboveFits then some (below + 1)
  else none

/-- Search grid after grid, from coarse to fine; `more` grids remain after this one, and on the
last one the neighbour below stands in for a miss that cannot happen. -/
def Rounding.search (r : Rounding) : Nat → Int → Decimal
  | 0, e => ⟨(r.onGrid? e).getD (r.numerator e (4 * r.m) / r.denominator e), e⟩
  | more + 1, e =>
    match r.onGrid? e with
    | some d => ⟨d, e⟩
    | none => r.search more (e - 1)

/-- The same decimal without trailing zeros. -/
def trimmed (d : Decimal) : Decimal :=
  if h : d.digits ≠ 0 ∧ d.digits % 10 = 0 then
    trimmed ⟨d.digits / 10, d.exponent + 1⟩
  else d
termination_by d.digits
decreasing_by exact Nat.div_lt_self (Nat.pos_of_ne_zero h.1) (by decide)

/-- The shortest decimal of a finite positive double. -/
def shortest (x : Double) : Decimal :=
  let r := Rounding.ofDouble x
  (r.search 16 r.leading).trimmed

end Decimal

end ScriptMachine
