/-
# Faults and refusals

Two kinds of failure are ordinary results and are kept apart:

* a *fault* is the program's failure: it is logged with its place and the calls that led there, the
  node that raised it evaluates to nil, and the program goes on;
* a *refusal* is the answer of a table (types, scopes, modules, heap) to a request it cannot honour;
  programs never see one.

Each has one inductive type for its causes and one function for its wording.
-/
import ScriptMachine.Location

namespace ScriptMachine

/-! ## 1. Refusals -/

/-- Why a table refuses a request. -/
inductive Refusal where
  /-- An argument breaks the conditions of the request. -/
  | invalidArgument
  /-- The heap has no slot, or the table of types no identity, left to hand out. -/
  | allocFailed
  /-- The key is bound in this very table. -/
  | keyAlreadyInTable
  /-- The key is not bound in the table. -/
  | keyNotInTable
  /-- No type on the inheritance chain has the method. -/
  | methodNotFound
  /-- A link of the heap's allocation list leads to a slot that is not in use. -/
  | brokenLink
deriving DecidableEq, Inhabited

/-- The wording of a refusal. -/
def Refusal.message : Refusal → String
  | invalidArgument => "invalid argument"
  | allocFailed => "allocation failed"
  | keyAlreadyInTable => "key already in table"
  | keyNotInTable => "key not in table"
  | methodNotFound => "method not found"
  | brokenLink => "allocation list links a free slot"

/-- The cause of a refusal in one word. -/
def Refusal.code : Refusal → String
  | invalidArgument => "InvalidArgument"
  | allocFailed => "AllocFailed"
  | keyAlreadyInTable => "KeyAlreadyInTable"
  | keyNotInTable => "KeyNotInTable"
  | methodNotFound => "MethodNotFound"
  | brokenLink => "BrokenLink"

/-- Why an assignment is refused. -/
inductive AssignRefusal where
  /-- The nearest binding of the name cannot be assigned. -/
  | immutable
  /-- The name is bound in no scope in sight. -/
  | undefined
deriving DecidableEq, Inhabited

/-- The wording of a refused assignment. -/
def AssignRefusal.message : AssignRefusal → String
  | immutable => "binding is immutable"
  | undefined => "binding is undefined"

/-- The cause of a refused assignment in one word. -/
def AssignRefusal.code : AssignRefusal → String
  | immutable => "Immutable"
  | undefined => "Undefined"

/-! ## 2. Faults -/

/-- What went wrong in a program.  Names are kept as texts, so a fault can be read without a table. -/
inductive FaultKind where
  | immutableBinding (name : String)
  | undefinedSymbol (name : String)
  | arityMismatch (callee : String) (expected got : Nat)
  | methodNotFound (typeName method : String)
  | notCallable (typeName : String)
  | divisionByZero
  | integerOverflow (op : String)
  | invalidOperand (op typeName : String)
  | indexOutOfBounds (index : Int64) (length : Nat)
  | unknownModule (name : String)
  | unknownMember (owner member : String)
  | unknownType (name : String)
  | alreadyDefined (name : String)
  | recursionLimit (limit : Nat)
  | sizeLimit (op : String) (limit : Nat)
deriving DecidableEq, Inhabited

/-- The wording of a fault. -/
def FaultKind.message : FaultKind → String
  | immutableBinding name => s!"cannot assign to immutable binding `{name}`"
  | undefinedSymbol name => s!"undefined symbol `{name}`"
  | arityMismatch callee expected got => s!"`{callee}` expects {expected} argument(s), got {got}"
  | methodNotFound typeName method => s!"type `{typeName}` has no method `{method}`"
  | notCallable typeName => s!"value of type `{typeName}` is not callable"
  | divisionByZero => "division by zero"
  | integerOverflow op => s!"integer overflow in `{op}`"
  | invalidOperand op typeName => s!"invalid operand of type `{typeName}` for `{op}`"
  | indexOutOfBounds index length => s!"index {index.toInt} out of bounds for length {length}"
  | unknownModule name => s!"unknown module `{name}`"
  | unknownMember owner member => s!"`{owner}` has no member `{member}`"
  | unknownType name => s!"unknown type `{name}`"
  | alreadyDefined name => s!"`{name}` is already defined in this scope"
  | recursionLimit limit => s!"maximum recursion depth exceeded ({limit})"
  | sizeLimit op limit => s!"result of `{op}` would exceed {limit} bytes"

/-- The cause of a fault in one word. -/
def FaultKind.code : FaultKind → String
  | immutableBinding _ => "ImmutableBinding"
  | undefinedSymbol _ => "UndefinedSymbol"
  | arityMismatch _ _ _ => "ArityMismatch"
  | methodNotFound _ _ => "MethodNotFound"
  | notCallable _ => "NotCallable"
  | divisionByZero => "DivisionByZero"
  | integerOverflow _ => "IntegerOverflow"
  | invalidOperand _ _ => "InvalidOperand"
  | indexOutOfBounds _ _ => "IndexOutOfBounds"
  | unknownModule _ => "UnknownModule"
  | unknownMember _ _ => "UnknownMember"
  | unknownType _ => "UnknownType"
  | alreadyDefined _ => "AlreadyDefined"
  | recursionLimit _ => "RecursionLimit"
  | sizeLimit _ _ => "SizeLimit"

/-- A call under way: who was called, and from where. -/
structure CallFrame where
  name : Name
  calledAt : Location
deriving DecidableEq, Inhabited

/-- A logged fault: what went wrong, where, and the calls under way, innermost first. -/
structure Fault where
  kind : FaultKind
  location : Location
  backtrace : List CallFrame
deriving DecidableEq, Inhabited

namespace Fault

/-- The line that a call under way adds to a fault's text. -/
def frameLine (names : NameTable) (f : CallFrame) : String :=
  s!"\n  in {names.text f.name} called at {f.calledAt.display names}"

/-- The fault for readers: place and wording, then a line for each call under way. -/
def render (f : Fault) (names : NameTable) : String :=
  f.backtrace.foldl (fun text frame => text ++ frameLine names frame)
    s!"{f.location.display names}: error: {f.kind.message}"

end Fault

end ScriptMachine
