/-
# Real arithmetic

A real is an IEEE double, held as its sixty-four bits.  On numbers and infinities the operations are
the machine's, rounded to nearest.  NaNs are told apart by their bits, which the hash of a real
shows:

* an operation on a NaN gives that NaN, made quiet, and the left one of two;
* an operation that has no value, such as zero divided by zero, gives `invalid`;
* changing and dropping the sign touch the sign bit alone, of a NaN as well.

Beside the operations stand the parts of a double, the double nearest to an integer and the remainder
of a division toward zero, both computed exactly, and equality up to a tolerance.

Powers of numbers are not computed here.  A power takes the function that computes them as its last
argument, which is the machine's own (`machinePower`) where nothing else is said.
-/
namespace ScriptMachine

/-- A real: the bits of an IEEE double. -/
structure Double where
  bits : UInt64
deriving Inhabited

namespace Double

/-! ## 1. The parts of a double -/

/-- Whether the sign bit is set. -/
def isNegative (x : Double) : Bool := x.bits >>> 63 != 0

/-- The eleven exponent bits. -/
def exponentBits (x : Double) : Nat := ((x.bits >>> 52) &&& 0x7ff).toNat

/-- The fifty-two fraction bits. -/
def fractionBits (x : Double) : Nat := (x.bits &&& 0xfffffffffffff).toNat

/-- Whether a double is no number at all. -/
def isNaN (x : Double) : Bool := exponentBits x == 0x7ff && fractionBits x != 0

/-- Whether a double is an infinity. -/
def isInf (x : Double) : Bool := exponentBits x == 0x7ff && fractionBits x == 0

/-- Whether a double is one of the two zeros. -/
def isZero (x : Double) : Bool := exponentBits x == 0 && fractionBits x == 0

/-- The absolute value of a finite double is `significand x * 2 ^ scale x`. -/
def significand (x : Double) : Nat :=
  if exponentBits x = 0 then fractionBits x else fractionBits x + 0x10000000000000

/-- The exponent of two that goes with `significand`. -/
def scale (x : Double) : Int :=
  if exponentBits x = 0 then -1074 else (exponentBits x : Int) - 1075

/-- Whether a double is an odd whole number.  One with a positive scale is even, and so neither
infinities nor NaNs are odd. -/
def isOdd (x : Double) : Bool :=
  let places := (-scale x).toNat
  let whole := significand x >>> places
  scale x ≤ 0 && whole <<< places == significand x && whole % 2 == 1

/-! ## 2. NaNs -/

/-- The bit that a quiet NaN has and a signalling one lacks. -/
def quietBit : UInt64 := 0x8000000000000

/-- Whether a double is a NaN that no operation has touched yet. -/
def isSignalling (x : Double) : Bool := x.isNaN && x.bits &&& quietBit == 0

/-- A NaN as an operation passes it on. -/
def quiet (x : Double) : Double := ⟨x.bits ||| quietBit⟩

/-- The NaN that is written as a word. -/
def notANumber : Double := ⟨0x7ff8000000000000⟩

/-- The NaN of an operation that has no value. -/
def invalid : Double := ⟨0xfff8000000000000⟩

/-! ## 3. Between doubles and machine numbers -/

/-- The machine number, for computing and comparing.  It does not tell NaNs apart. -/
def toFloat (x : Double) : Float := Float.ofBits x.bits

/-- The double of a computed number; if nothing came out of the computation, `invalid`. -/
def ofFloat (x : Float) : Double := if x.isNaN then invalid else ⟨x.toBits⟩

/-- `n` divided by `1 <<< places` and rounded to the nearest whole number, a half to the even one. -/
def roundedShift (n places : Nat) : Nat :=
  let quotient := n >>> places
  let unit := 1 <<< places
  let rest := 2 * (n % unit)
  if rest < unit ∨ rest = unit ∧ quotient % 2 = 0 then quotient else quotient + 1

/-- The double nearest to a natural number of at most 64 bits.  The leading bit of the significand
is not stored and adds one to the exponent, as does the bit that a significand of 53 ones gains when it
is rounded. -/
def ofNat (n : Nat) : Double :=
  if n = 0 then ⟨0⟩
  else
    let leading := n.log2
    let significand :=
      if leading ≤ 52 then n <<< (52 - leading) else roundedShift n (leading - 52)
    ⟨.ofNat ((leading + 1022) <<< 52 + significand)⟩

/-- Positive zero. -/
def zero : Double := ofFloat 0.0

/-- One. -/
def one : Double := ofFloat 1.0

/-- Positive infinity. -/
def infinity : Double := ⟨0x7ff0000000000000⟩

/-! ## 4. Comparison -/

/-- Equality of numbers: the two zeros are equal, and a NaN is equal to nothing. -/
instance : BEq Double := ⟨fun a b => a.toFloat == b.toFloat⟩

/-- The order of numbers, in which a NaN has no place. -/
def less (a b : Double) : Bool := a.toFloat < b.toFloat

/-- Less or equal, which a NaN is to nothing. -/
def lessOrEqual (a b : Double) : Bool := a.toFloat ≤ b.toFloat

/-- Reals closer than this count as equal. -/
def tolerance : Float := 1e-16

/-- Equality up to the tolerance.  The first test makes infinities equal to themselves. -/
def near (a b : Double) : Bool := a == b || (a.toFloat - b.toFloat).abs < tolerance

/-! ## 5. Arithmetic -/

/-- A function of one real that passes a NaN on. -/
def passing (op : Double → Double) (x : Double) : Double :=
  if x.isNaN then x.quiet else op x

/-- A function of two reals that passes the first NaN on. -/
def passingFirst (op : Double → Double → Double) (a b : Double) : Double :=
  if a.isNaN then a.quiet
  else if b.isNaN then b.quiet
  else op a b

instance : Add Double := ⟨passingFirst fun a b => ofFloat (a.toFloat + b.toFloat)⟩

instance : Sub Double := ⟨passingFirst fun a b => ofFloat (a.toFloat - b.toFloat)⟩

instance : Mul Double := ⟨passingFirst fun a b => ofFloat (a.toFloat * b.toFloat)⟩

instance : Div Double := ⟨passingFirst fun a b => ofFloat (a.toFloat / b.toFloat)⟩

/-- Negation turns the sign bit. -/
instance : Neg Double := ⟨fun x => ⟨x.bits ^^^ 0x8000000000000000⟩⟩

/-- The double nearest to an integer. -/
def ofInt (i : Int64) : Double :=
  if i.toInt < 0 then -ofNat i.toInt.natAbs else ofNat i.toInt.natAbs

/-- The absolute value, which has no sign bit. -/
def abs (x : Double) : Double := ⟨x.bits &&& 0x7fffffffffffffff⟩

/-- The square root. -/
def sqrt : Double → Double := passing fun x => ofFloat x.toFloat.sqrt

/-- The greatest whole number below. -/
def floor : Double → Double := passing fun x => ofFloat x.toFloat.floor

/-- The remainder of a division of numbers and infinities, with the quotient taken toward zero.  It
is exact: over the common power of two, the remainder of the significands has at most 53 bits. -/
def remainder (a b : Double) : Double :=
  if a.isInf || b.isZero then invalid
  else if b.isInf then a
  else
    let common := min (scale a) (scale b)
    let m := significand a <<< (scale a - common).toNat
    let n := significand b <<< (scale b - common).toNat
    let r := ofFloat ((Float.ofNat (m % n)).scaleB common)
    if a.isNegative then -r else r

instance : Mod Double := ⟨passingFirst remainder⟩

/-- A power with a NaN for base or exponent.  The power zero is one, and so is every power of one,
unless the NaN is signalling; otherwise the NaN is passed on, from a negative base to an odd power
with its sign turned. -/
def powerOfNaN (x y : Double) : Double :=
  if y.isZero && !x.isSignalling then one
  else if x == one && !y.isSignalling then one
  else if x.isNegative && y.isOdd then -x.quiet
  else x + y

/-- A function that computes powers of numbers and infinities. -/
abbrev PowerFunction := Double → Double → Double

/-- The power function of the machine. -/
def machinePower : PowerFunction := fun x y => ofFloat (x.toFloat.pow y.toFloat)

/-- A power. -/
def power (x y : Double) (pow : PowerFunction := machinePower) : Double :=
  if x.isNaN || y.isNaN then powerOfNaN x y else pow x y

/-- The whole part as an integer: toward zero, the nearest integer for values out of range, and
zero for NaN. -/
def truncate (x : Double) : Int64 := x.toFloat.toInt64

end Double

end ScriptMachine
