/-
# Reals as text

A real is written with its shortest digits: positionally while the leading digit stands near the
point, and with an exponent otherwise.  `Layout` holds the choices and `realLayout` fixes them for
this language; `writeReal` writes.
-/
import ScriptMachine.Decimal.Shortest

namespace ScriptMachine.Decimal

/-- How decimals are laid out. -/
structure Layout where
  /-- The least exponent of a leading digit that is written positionally. -/
  least : Int
  /-- The greatest such exponent. -/
  greatest : Int
  /-- What a whole number ends with. -/
  wholeEnd : String
  /-- What stands between the digits and the exponent. -/
  exponentMark : String
  infinity : String
  notANumber : String

/-- Reals from a ten-thousandth to below 10^16 are written positionally, always with a fraction. -/
def realLayout : Layout where
  least := -4
  greatest := 15
  wholeEnd := ".0"
  exponentMark := "e"
  infinity := "inf"
  notANumber := "NaN"

/-- A row of zeros. -/
def zeros (n : Nat) : String := "".pushn '0' n

/-- The digits `ds` with the point after the first `whole` of them; zeros fill what is missing on
either side. -/
def placePoint (l : Layout) (ds : List Char) (whole : Int) : String :=
  if whole ≤ 0 then "0." ++ zeros (-whole).toNat ++ String.ofList ds
  else
    let n := whole.toNat
    if ds.length ≤ n then String.ofList ds ++ zeros (n - ds.length) ++ l.wholeEnd
    else String.ofList (ds.take n) ++ "." ++ String.ofList (ds.drop n)

/-- One digit, the point and the other digits if there are any, and the exponent. -/
def withExponent (l : Layout) (ds : List Char) (leading : Int) : String :=
  let fraction := if ds.length ≤ 1 then "" else "." ++ String.ofList (ds.drop 1)
  String.ofList (ds.take 1) ++ fraction ++ l.exponentMark ++ toString leading

/-- The text of a decimal. -/
def write (d : Decimal) (l : Layout) : String :=
  let ds := Nat.toDigits 10 d.digits
  let leading : Int := d.exponent + ds.length - 1
  if l.least ≤ leading ∧ leading ≤ l.greatest then placePoint l ds (leading + 1)
  else withExponent l ds leading

/-- The text of a real under a layout. -/
def Layout.writeReal (l : Layout) (x : Double) : String :=
  if x.isNaN then l.notANumber
  else
    let sign := if x.isNegative then "-" else ""
    if x.isInf then sign ++ l.infinity
    else if x.isZero then sign ++ "0" ++ l.wholeEnd
    else sign ++ (shortest x).write l

/-- The text of a real in this language. -/
def writeReal (x : Double) : String := realLayout.writeReal x

end ScriptMachine.Decimal
