/-
# Operators on numbers

Integers and reals share one table of operators: two integers give an integer, and as soon as one
side is real the other is widened.  Integer results that do not fit, and integer division by zero,
are faults; reals never fault.

Powers of reals come from the machine, so the operators take its power function as their last argument.
-/
import ScriptMachine.Fault
import ScriptMachine.Tree.Operator
import ScriptMachine.Number.Integer
import ScriptMachine.Number.Double

namespace ScriptMachine

/-- A numeric operand. -/
inductive Number where
  | int (value : Int64)
  | real (value : Double)
deriving Inhabited

/-- The result of a numeric operator. -/
inductive NumericResult where
  | int (value : Int64)
  | real (value : Double)
  | bool (value : Bool)
deriving Inhabited

namespace Number

/-- The number as a real. -/
def toReal : Number → Double
  | int i => .ofInt i
  | real r => r

/-- An integer result that may not fit. -/
def checked (op : BinaryOp) : Option Int64 → Except FaultKind NumericResult
  | some i => .ok (.int i)
  | none => .error (.integerOverflow op.symbol)

/-- The exponent of a power of integers, when it is negative, as a real.  Exponents below the
32-bit range count as minus infinity. -/
def negativeExponent (e : Int64) : Double :=
  if e.toInt < -0x80000000 then -.infinity else .ofInt e

/-- A power of integers.  A negative exponent leaves the integers. -/
def power (base exponent : Int64) (pow : Double.PowerFunction := Double.machinePower) :
    Except FaultKind NumericResult :=
  if exponent.toInt < 0 then .ok (.real ((Double.ofInt base).power (negativeExponent exponent) pow))
  else checked .pow (Integer.pow? base exponent.toInt.toNat)

/-- `and` and `or` are not operators on numbers. -/
def notNumeric (op : BinaryOp) : FaultKind := .invalidOperand op.symbol "number"

/-- A binary operator on two integers. -/
def evalIntegers (op : BinaryOp) (a b : Int64)
    (pow : Double.PowerFunction := Double.machinePower) : Except FaultKind NumericResult :=
  match op with
  | .add => checked op (Integer.add? a b)
  | .sub => checked op (Integer.sub? a b)
  | .mul => checked op (Integer.mul? a b)
  | .div => if b = 0 then .error .divisionByZero else checked op (Integer.div? a b)
  | .mod => if b = 0 then .error .divisionByZero else checked op (Integer.mod? a b)
  | .pow => power a b pow
  | .eq => .ok (.bool (a == b))
  | .ne => .ok (.bool (a != b))
  | .lt => .ok (.bool (a < b))
  | .le => .ok (.bool (a ≤ b))
  | .gt => .ok (.bool (b < a))
  | .ge => .ok (.bool (b ≤ a))
  | .and | .or => .error (notNumeric op)

/-- A binary operator on two reals. -/
def evalReals (op : BinaryOp) (a b : Double)
    (pow : Double.PowerFunction := Double.machinePower) : Except FaultKind NumericResult :=
  match op with
  | .add => .ok (.real (a + b))
  | .sub => .ok (.real (a - b))
  | .mul => .ok (.real (a * b))
  | .div => .ok (.real (a / b))
  | .mod => .ok (.real (a % b))
  | .pow => .ok (.real (a.power b pow))
  | .eq => .ok (.bool (a.near b))
  | .ne => .ok (.bool (!a.near b))
  | .lt => .ok (.bool (a.less b))
  | .le => .ok (.bool (a.lessOrEqual b || a.near b))
  | .gt => .ok (.bool (b.less a))
  | .ge => .ok (.bool (b.lessOrEqual a || a.near b))
  | .and | .or => .error (notNumeric op)

/-- A binary operator on two numbers. -/
def evalBinary (op : BinaryOp) (l r : Number)
    (pow : Double.PowerFunction := Double.machinePower) : Except FaultKind NumericResult :=
  match l, r with
  | int a, int b => evalIntegers op a b pow
  | l, r => evalReals op l.toReal r.toReal pow

/-- The negative of a number. -/
def negate : Number → Except FaultKind NumericResult
  | int i =>
    match Integer.neg? i with
    | some i => .ok (.int i)
    | none => .error (.integerOverflow UnaryOp.neg.symbol)
  | real r => .ok (.real (-r))

/-- The absolute value of a number. -/
def absolute : Number → Except FaultKind NumericResult
  | int i =>
    match Integer.abs? i with
    | some i => .ok (.int i)
    | none => .error (.integerOverflow "abs")
  | real r => .ok (.real r.abs)

end Number

end ScriptMachine
