/-
# Integer arithmetic

Integers have 64 bits.  Every operation is the exact one on whole numbers, and is refused when its
result does not fit (`fit?`); nothing wraps.  Division goes toward zero, and the remainder has the
sign of the dividend.
-/
namespace ScriptMachine.Integer

/-- The 64-bit integer with a given value, if there is one. -/
def fit? (n : Int) : Option Int64 :=
  if -0x8000000000000000 ≤ n ∧ n < 0x8000000000000000 then some (Int64.ofInt n) else none

/-- The sum, if it fits. -/
def add? (a b : Int64) : Option Int64 := fit? (a.toInt + b.toInt)

/-- The difference, if it fits. -/
def sub? (a b : Int64) : Option Int64 := fit? (a.toInt - b.toInt)

/-- The product, if it fits. -/
def mul? (a b : Int64) : Option Int64 := fit? (a.toInt * b.toInt)

/-- The quotient toward zero, if it fits.  Callers exclude a divisor of zero. -/
def div? (a b : Int64) : Option Int64 := fit? (a.toInt.tdiv b.toInt)

/-- The remainder of the division toward zero, refused along with a quotient that does not fit. -/
def mod? (a b : Int64) : Option Int64 :=
  match div? a b with
  | some _ => fit? (a.toInt.tmod b.toInt)
  | none => none

/-- The negative, if it fits. -/
def neg? (a : Int64) : Option Int64 := fit? (-a.toInt)

/-- The absolute value, if it fits. -/
def abs? (a : Int64) : Option Int64 := if a.toInt < 0 then neg? a else some a

/-- The accumulator of a power, with the factor that an odd exponent gives up. -/
def takeFactor? (acc base : Int64) (exponent : Nat) : Option Int64 :=
  if exponent % 2 = 1 then mul? acc base else some acc

/-- The product `acc * base ^ exponent` by repeated squaring, refused as soon as a product on the way
does not fit.  The last bit of the exponent is taken apart: a square after it would be of no use, and
might not fit. -/
def raise? (acc base : Int64) (exponent : Nat) : Option Int64 :=
  if exponent = 0 then some acc
  else if exponent = 1 then mul? acc base
  else do
    let acc ← takeFactor? acc base exponent
    let base ← mul? base base
    raise? acc base (exponent / 2)
termination_by exponent
decreasing_by omega

/-- Powers are computed for exponents of 32 bits only. -/
def exponentLimit : Nat := 0x100000000

/-- The power with a natural exponent, if it fits.  The bases 0, 1 and -1 have small powers for
every exponent; the powers of all others are too large for exponents from the limit on. -/
def pow? (base : Int64) (exponent : Nat) : Option Int64 :=
  if base = 0 ∨ base = 1 then some (if exponent = 0 then 1 else base)
  else if base = -1 then some (if exponent % 2 = 0 then 1 else -1)
  else if exponentLimit ≤ exponent then none
  else raise? 1 base exponent

end ScriptMachine.Integer
