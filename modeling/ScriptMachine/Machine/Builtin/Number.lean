/-
# Methods of numbers, and the mathematics module

The operators as methods, the shared constructor of Integer and Real, and roots, absolute values and
floors.
-/
import ScriptMachine.Decimal.Numeral
import ScriptMachine.Text.Blank
import ScriptMachine.Machine.Builtin.Object

namespace ScriptMachine.Effect

/-- Place the result of a numeric operator, or raise its fault. -/
def allocateOrRaise : Except FaultKind NumericResult → Effect Ref
  | .ok result => allocateResult result
  | .error kind => raise kind

/-! ## 1. Operators as methods -/

/-- What a numeric method answers when the other operand is no number: unequal, or nil. -/
def mismatch : BinaryOp → Ref
  | .eq => .bool false
  | .ne => .bool true
  | _ => .nil

/-- A binary operator as a method. -/
def numericMethod (op : BinaryOp) (l r : Ref) : Effect Ref := do
  let a ← value l
  let b ← value r
  match a.payload.number?, b.payload.number? with
  | some a, some b => allocateOrRaise (Number.evalBinary op a b)
  | _, _ => pure (mismatch op)

/-- The minus sign as a method. -/
def negateMethod (r : Ref) : Effect Ref := do
  let v ← value r
  match v.payload.number? with
  | some n => allocateOrRaise n.negate
  | none => pure .nil

/-! ## 2. The constructor -/

/-- The number written by a text: an integer if it is one, and a real otherwise. -/
def readNumber? (s : String) : Option Number :=
  let cs := Text.trimmed s
  match Numeral.readInteger? cs with
  | some i => some (.int i)
  | none => (Numeral.readReal? cs).map Number.real

/-- The number that a payload can be converted to. -/
def toNumber? : Payload → Option Number
  | .bool b => some (.int (if b then 1 else 0))
  | .str s => readNumber? s
  | p => p.number?

/-- The number that a value can be converted to. -/
def toNumber (r : Ref) : Effect Number := do
  let v ← value r
  match toNumber? v.payload with
  | some n => pure n
  | none => raiseAbout r (.invalidOperand "new")

/-- The number to construct from: zero without an argument. -/
def constructedFrom (target : TypeId) : List Ref → Effect Number
  | [] => pure (.int 0)
  | [arg] => toNumber arg
  | args => raiseWith fun m => .arityMismatch (m.typeText target) 1 args.length

/-- Convert to a number.  Real gives a real; every other type that comes here gives an integer, for
which the fraction of a real is dropped. -/
def newNumber (receiver : Ref) (args : List Ref) : Effect Ref := do
  let target ← constructedType receiver
  let source ← constructedFrom target args
  if target = .real then allocate (.ofReal source.toReal)
  else
    match source with
    | .int i => allocate (.ofInt i)
    | .real x => allocate (.ofInt (Double.truncate x))

/-! ## 3. Mathematics -/

/-- The number that a value is; anything else is an operand that `op` cannot take. -/
def expectNumber (op : String) (r : Ref) : Effect Number := do
  let v ← value r
  match v.payload.number? with
  | some n => pure n
  | none => raiseAbout r (.invalidOperand op)

/-- The square root, as a real. -/
def squareRoot (r : Ref) : Effect Ref := do
  let n ← expectNumber "sqrt" r
  allocate (.ofReal n.toReal.sqrt)

/-- The absolute value, of the type of the number. -/
def absolute (r : Ref) : Effect Ref := do
  let n ← expectNumber "abs" r
  allocateOrRaise n.absolute

/-- The greatest whole number below, as a real. -/
def floorReal (r : Ref) : Effect Ref := do
  let n ← expectNumber "floor" r
  allocate (.ofReal n.toReal.floor)

end ScriptMachine.Effect
