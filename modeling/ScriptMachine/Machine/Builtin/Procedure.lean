/-
# Native bodies

`Procedure.run` gives each native procedure its meaning.  Arguments have been counted against the
arity of the function before.  A procedure that gets a number of arguments it has no use for answers
nil (`onOne`, `onTwo`, `onReceiver`); the few that take their first argument for granted (`onFirst`)
have a defect without one.
-/
import ScriptMachine.Machine.Builtin.Number
import ScriptMachine.Machine.Builtin.Function

namespace ScriptMachine

open Effect

/-- Run a body on the first argument.  There has to be one. -/
def onFirst (args : List Ref) (body : Ref → Effect Ref) : Effect Ref := do
  demand (!args.isEmpty) .missingArgument
  body (args.headD .nil)

/-- Run a body on the only argument; with any other number of arguments the answer is nil. -/
def onOne (args : List Ref) (body : Ref → Effect Ref) : Effect Ref :=
  match args with
  | [v] => body v
  | _ => pure .nil

/-- Run a body on the two arguments; with any other number of arguments `otherwise` is the answer. -/
def onTwo (args : List Ref) (otherwise : Ref) (body : Ref → Ref → Effect Ref) : Effect Ref :=
  match args with
  | [l, r] => body l r
  | _ => pure otherwise

/-- Run a body on the first argument and the others; without arguments the answer is nil. -/
def onReceiver (args : List Ref) (body : Ref → List Ref → Effect Ref) : Effect Ref :=
  match args with
  | receiver :: rest => body receiver rest
  | [] => pure .nil

/-- Run a native body on its arguments.  For a method the receiver comes first. -/
def Procedure.run (p : Procedure) (args : List Ref) : Effect Ref :=
  match p with
  -- every object
  | .objectNil => pure .nil
  | .objectEq => onTwo args .nil fun a b => pure (.bool (a == b))
  | .objectNe => onTwo args .nil fun a b => pure (.bool (a != b))
  | .objectStr => onOne args fun v => do allocateText (← renderBuiltin v)
  | .objectDbg => onOne args fun v => do allocateText (← renderDbg v)
  | .objectHash => onOne args hashValue
  | .objectNew => onReceiver args newObject
  -- nil and booleans
  | .nilNew => pure .nil
  | .boolNot => onOne args fun v => pure (negateBool v)
  | .boolNew => pure (.bool (args.tail.headD .nil).isTruthy)
  -- numbers
  | .numeric op => onTwo args .nil (numericMethod op)
  | .numericNeg => onOne args negateMethod
  | .numericNew => onReceiver args newNumber
  -- texts
  | .textAdd => onTwo args .nil concat
  | .textRepeat => onTwo args .nil repeatText
  | .textCompare test => onTwo args (textMismatch test) (textMethod test)
  | .textLength => onOne args lengthOfText
  | .textNew => newText args.tail
  -- vectors
  | .vectorAdd => onTwo args .nil appendVectors
  | .vectorPush => onTwo args .nil pushElement
  | .vectorLength => onOne args lengthOfVector
  | .vectorNew => allocate (.ofVector args.tail.toArray)
  -- types
  | .typeEq => onTwo args .nil fun l r => do pure (.bool (← sameType l r))
  | .typeNe => onTwo args .nil fun l r => do pure (.bool (!(← sameType l r)))
  | .typeName => onOne args nameOfType
  -- global functions
  | .print => printArgs args
  | .printLine => printLineArgs args
  | .string => onFirst args stringOf
  | .typeOf => onFirst args typeOfValue
  | .hash => onFirst args (callPlain MethodNames.hash)
  | .dbg => onFirst args debug
  | .length => onFirst args (callPlain MethodNames.len)
  | .heapDump => printReport
  | .collectorEnable => setCollector true
  | .collectorDisable => setCollector false
  | .collectorIsDisabled => do pure (.bool (← read fun m => m.heap.isDisabled))
  | .collect => collectNow
  | .liveCount => do allocateCount (← read fun m => m.heap.live)
  -- mathematics
  | .sqrt => onFirst args squareRoot
  | .abs => onFirst args absolute
  | .floor => onFirst args floorReal
  -- host procedures
  | .countArgs => allocateCount args.length
  | .packArgs => allocate (.ofVector args.toArray)
  | .firstArg => pure (args.headD .nil)
  | .failing => raise .divisionByZero
  | .apply => onReceiver args fun f rest => callValue f rest .builtin

end ScriptMachine
