/-
# Numbers from text

* `readInteger?`: an optional sign and decimal digits, within 64 bits;
* `readCount?`: an optional plus and decimal digits, within 64 bits without a sign;
* `readReal?`: an optional sign and a decimal with optional point and exponent, rounded to the
  nearest double, or a word for infinity or NaN in any mixture of cases.

Only ASCII digits count, and nothing may stand before or after.
-/
import ScriptMachine.Number.Integer
import ScriptMachine.Number.Double

namespace ScriptMachine.Numeral

/-! ## 1. Digits and signs -/

/-- Whether a character is a decimal digit. -/
def isDigit (c : Char) : Bool := '0' ≤ c && c ≤ '9'

/-- The number that a digit stands for. -/
def digitValue (c : Char) : Nat := c.toNat - '0'.toNat

/-- The number that a row of digits writes. -/
def value (ds : List Char) : Nat := ds.foldl (fun n c => 10 * n + digitValue c) 0

/-- A row of digits without its leading zeros. -/
def significant (ds : List Char) : List Char := ds.dropWhile (· == '0')

/-- Whether a text is made of digits, of one at least. -/
def areDigits (cs : List Char) : Bool := !cs.isEmpty && cs.all isDigit

/-- Whether a text starts with a minus, and the text after its sign. -/
def signed : List Char → Bool × List Char
  | '-' :: rest => (true, rest)
  | '+' :: rest => (false, rest)
  | cs => (false, cs)

/-! ## 2. Whole numbers -/

/-- The number that a text of digits writes, if it is below 10 ^ 20, which no number within 64 bits
reaches.  Longer texts are turned down by their length. -/
def whole? (cs : List Char) : Option Nat :=
  if areDigits cs && (significant cs).length ≤ 20 then some (value (significant cs)) else none

/-- A 64-bit integer. -/
def readInteger? (cs : List Char) : Option Int64 :=
  let (negative, cs) := signed cs
  match whole? cs with
  | some n => Integer.fit? (if negative then -(n : Int) else n)
  | none => none

/-- A number of things: no minus is allowed, and 64 bits hold it. -/
def readCount? (cs : List Char) : Option Nat :=
  let (negative, cs) := signed cs
  if negative then none
  else
    match whole? cs with
    | some n => if n < 0x10000000000000000 then some n else none
    | none => none

/-! ## 3. Reals -/

/-- The double nearest to `m * 10 ^ e`. -/
def rounded (m : Nat) (e : Int) : Double := .ofFloat (Float.ofScientific m (e < 0) e.natAbs)

/-- How many digits of a decimal are looked at one by one.  The reals half way between two doubles
have fewer digits than this. -/
def precision : Nat := 800

/-- The double nearest to the number that a row of digits writes, times `10 ^ e`; the row does not
start with a zero.  Decimals far outside the range of doubles are decided by their magnitude.  Of
the digits past the precision it matters only whether one is not zero, and one digit says it. -/
def nearest (ds : List Char) (e : Int) : Double :=
  let magnitude : Int := ds.length + e
  if ds.isEmpty || magnitude < -340 then .zero
  else if magnitude > 320 then .infinity
  else if ds.length ≤ precision then rounded (value ds) e
  else
    let last := if (ds.drop precision).all (· == '0') then 0 else 1
    rounded (10 * value (ds.take precision) + last) (magnitude - (precision + 1))

/-- The exponent that a row of digits writes.  Once it has come to 65536 no more digits are added. -/
def exponentValue (ds : List Char) : Nat :=
  ds.foldl (fun n c => if n < 0x10000 then 10 * n + digitValue c else n) 0

/-- The exponent after a decimal: nothing, or a mark, an optional sign and digits. -/
def readExponent? : List Char → Option Int
  | [] => some 0
  | c :: rest =>
    if c = 'e' || c = 'E' then
      let (negative, cs) := signed rest
      if areDigits cs then
        some (if negative then -(exponentValue cs : Int) else exponentValue cs)
      else none
    else none

/-- A decimal without sign: digits, perhaps a point and more digits, perhaps an exponent.  One digit
has to stand on one side of the point. -/
def readDecimal? (cs : List Char) : Option Double :=
  let whole := cs.takeWhile isDigit
  let rest := cs.dropWhile isDigit
  let (fraction, rest) :=
    match rest with
    | '.' :: rest => (rest.takeWhile isDigit, rest.dropWhile isDigit)
    | rest => ([], rest)
  if whole.isEmpty && fraction.isEmpty then none
  else
    match readExponent? rest with
    | some e => some (nearest (significant (whole ++ fraction)) (e - fraction.length))
    | none => none

/-- The special values, by their words. -/
def readWord? (cs : List Char) : Option Double :=
  let word := String.ofList (cs.map Char.toLower)
  if word = "inf" || word = "infinity" then some .infinity
  else if word = "nan" then some .notANumber
  else none

/-- A double. -/
def readReal? (cs : List Char) : Option Double :=
  let (negative, cs) := signed cs
  match (readWord? cs).or (readDecimal? cs) with
  | some x => some (if negative then -x else x)
  | none => none

end ScriptMachine.Numeral
