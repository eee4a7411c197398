/-
# Values

Everything a program computes with is a `Ref`: one of the singletons nil, true and false, or a
`Handle` to a `Value` on the heap.  A value is a type and a payload; vectors and instances hold refs,
so values form a graph, and `Payload.refs` lists its edges.

A handle names a slot of the heap *and* the generation of its occupant, so a handle whose value is
gone never names what the slot holds next.

Callables are data too.  A user function is its tree and the scope it was defined in; a native one is
a `Procedure`, a member of the closed list of built-in bodies.
-/
import ScriptMachine.Tree.Node
import ScriptMachine.Number.Operator

namespace ScriptMachine

/-! ## 1. Handles and references -/

/-- A slot of the heap and the generation of its occupant. -/
structure Handle where
  index : Nat
  generation : UInt32
deriving DecidableEq, Hashable, Inhabited

namespace Handle

/-- Slot and generation, as tables show them. -/
def short (h : Handle) : String := s!"{h.index}v{h.generation.toNat}"

/-- The handle as reports about stale handles name it. -/
def display (h : Handle) : String := s!"GcRef({h.short})"

end Handle

/-- A reference to a value. -/
inductive Ref where
  | nil
  | bool (value : Bool)
  | heap (handle : Handle)
deriving DecidableEq, Inhabited

namespace Ref

/-- Whether this is the nil singleton. -/
def isNil : Ref → Bool
  | nil => true
  | bool _ | heap _ => false

/-- The boolean, for the two boolean singletons. -/
def bool? : Ref → Option Bool
  | bool b => some b
  | nil | heap _ => none

/-- The handle, for a value on the heap. -/
def handle? : Ref → Option Handle
  | heap h => some h
  | nil | bool _ => none

/-- Conditions take nil and false as false and all else as true. -/
def isTruthy : Ref → Bool
  | nil => false
  | bool b => b
  | heap _ => true

/-- The reference as tables show it. -/
def short : Ref → String
  | nil => "nil"
  | bool true => "true"
  | bool false => "false"
  | heap h => h.short

end Ref

/-! ## 2. Identities of scopes and types -/

/-- The identity of a scope frame.  Identities are handed out in order and outlive their frame. -/
structure ScopeId where
  number : UInt32
deriving DecidableEq, Inhabited

namespace ScopeId

/-- The global frame. -/
def global : ScopeId := ⟨0⟩

/-- The identity as reports show it. -/
def display (i : ScopeId) : String := s!"ScopeId({i.number.toNat})"

end ScopeId

/-- A type, as its position in the type table. -/
structure TypeId where
  index : Nat
deriving DecidableEq, Inhabited

namespace TypeId

/-- The root of all types. -/
def baseObject : TypeId := ⟨0⟩

/-- The type of nil. -/
def nil : TypeId := ⟨1⟩

/-- The type of true and false. -/
def boolean : TypeId := ⟨2⟩

/-- The type of integers. -/
def integer : TypeId := ⟨3⟩

/-- The type of reals. -/
def real : TypeId := ⟨4⟩

/-- The type of texts. -/
def string : TypeId := ⟨5⟩

/-- The type of vectors. -/
def vector : TypeId := ⟨6⟩

/-- The type of functions that a program defines. -/
def function : TypeId := ⟨7⟩

/-- The type of native functions. -/
def builtinFn : TypeId := ⟨8⟩

/-- The type of imported modules. -/
def moduleType : TypeId := ⟨9⟩

/-- The type of types. -/
def type : TypeId := ⟨10⟩

/-- The identity as faults show a type that has no name. -/
def numbered (t : TypeId) : String := s!"TypeId({t.index})"

end TypeId

/-! ## 3. Callables -/

/-- An order test on texts. -/
inductive Comparison where
  | eq | ne | lt | le | gt | ge
deriving DecidableEq, Inhabited

/-- The bodies of native functions and methods. -/
inductive Procedure where
  -- methods of every object
  | objectNil | objectEq | objectNe | objectStr | objectDbg | objectHash | objectNew
  -- nil and booleans
  | nilNew | boolNot | boolNew
  -- numbers
  | numeric (op : BinaryOp) | numericNeg | numericNew
  -- texts
  | textAdd | textRepeat | textCompare (test : Comparison) | textLength | textNew
  -- vectors
  | vectorAdd | vectorPush | vectorLength | vectorNew
  -- types
  | typeEq | typeNe | typeName
  -- global functions
  | print | printLine | string | typeOf | hash | dbg | length
  | heapDump | collectorEnable | collectorDisable | collectorIsDisabled | collect | liveCount
  -- the mathematics module
  | sqrt | abs | floor
  -- procedures a host can bind
  | countArgs | packArgs | firstArg | failing | apply
deriving DecidableEq, Inhabited

/-- A function with a native body.  `arity` is the exact number of arguments, or the least one for a
variadic function. -/
structure NativeFunction where
  name : Name
  arity : Nat
  variadic : Bool
  procedure : Procedure
deriving DecidableEq, Inhabited

namespace NativeFunction

/-- Whether a number of arguments suits the function. -/
def accepts (f : NativeFunction) (count : Nat) : Bool :=
  if f.variadic then f.arity ≤ count else count == f.arity

/-- The function as reports show it; its body stays out of sight. -/
def display (f : NativeFunction) : String :=
  "NativeFunction \x7b name: " ++ f.name.numbered ++ ", arity: " ++ toString f.arity ++
    ", variadic: " ++ toString f.variadic ++ ", .. \x7d"

end NativeFunction

/-- A function defined in a program: its tree, the scope it was defined in, and the name of its
implicit first parameter if it is a method. -/
structure UserFunction where
  routine : FunctionDef
  scope : ScopeId
  receiver : Option Name

namespace UserFunction

/-- The parameters in the order they are bound, the receiver first. -/
def params (f : UserFunction) : List Name := f.receiver.toList ++ f.routine.params

/-- How many parameters there are, the receiver included. -/
def paramCount (f : UserFunction) : Nat := f.params.length

/-- How many arguments a call has to supply: the last parameter of a variadic function may stay
without any. -/
def required (f : UserFunction) : Nat :=
  if f.routine.variadic then f.paramCount - 1 else f.paramCount

/-- Whether a number of arguments suits the function. -/
def accepts (f : UserFunction) (count : Nat) : Bool :=
  if f.routine.variadic then f.required ≤ count else count == f.required

end UserFunction

/-- What can be called and can stand in a method table. -/
inductive Callable where
  | user (f : UserFunction)
  | native (f : NativeFunction)

/-- The name a callable goes by. -/
def Callable.name : Callable → Name
  | user f => f.routine.name
  | native f => f.name

/-! ## 4. Values -/

/-- What a value holds. -/
inductive Payload where
  | nil
  | bool (value : Bool)
  | int (value : Int64)
  | real (value : Double)
  | str (value : String)
  | vector (items : Array Ref)
  | function (f : UserFunction)
  | builtin (f : NativeFunction)
  /-- An imported module, by its name. -/
  | moduleNamed (name : Name)
  /-- A type as a value; calling it makes an instance. -/
  | type (described : TypeId)
  /-- The fields of an instance of a user type, in the order of the type's members. -/
  | fields (slots : Array Ref)

instance : Inhabited Payload := ⟨.nil⟩

namespace Payload

/-- The elements of a vector or the fields of an instance. -/
def elements? : Payload → Option (Array Ref)
  | vector items => some items
  | fields slots => some slots
  | nil | bool _ | int _ | real _ | str _ | function _ | builtin _ | moduleNamed _ | type _ => none

/-- The payload with another element at a position; without such a position it stays as it is. -/
def setElement (p : Payload) (position : Nat) (value : Ref) : Payload :=
  match p with
  | vector items => vector (items.setIfInBounds position value)
  | fields slots => fields (slots.setIfInBounds position value)
  | p => p

/-- The payload with one more element; only vectors take one. -/
def push (p : Payload) (value : Ref) : Payload :=
  match p with
  | vector items => vector (items.push value)
  | p => p

/-- The handles that a payload holds, in order: the edges of the value graph. -/
def refs (p : Payload) : List Handle :=
  match p.elements? with
  | some items => items.toList.filterMap Ref.handle?
  | none => []

/-- The callable that a payload is, if it is one. -/
def callable? : Payload → Option Callable
  | function f => some (.user f)
  | builtin f => some (.native f)
  | nil | bool _ | int _ | real _ | str _ | vector _ | moduleNamed _ | type _ | fields _ => none

/-- The number that a payload is, if it is one. -/
def number? : Payload → Option Number
  | int i => some (.int i)
  | real r => some (.real r)
  | nil | bool _ | str _ | vector _ | function _ | builtin _ | moduleNamed _ | type _ | fields _ =>
    none

/-- The integer that a payload is, if it is one. -/
def int? : Payload → Option Int64
  | int i => some i
  | _ => none

/-- The real that a payload is, if it is one. -/
def real? : Payload → Option Double
  | real r => some r
  | _ => none

/-- The text that a payload is, if it is one. -/
def str? : Payload → Option String
  | str s => some s
  | _ => none

/-- The elements of a vector, if the payload is one. -/
def vector? : Payload → Option (Array Ref)
  | vector items => some items
  | _ => none

/-- The type that a payload describes, if it describes one. -/
def type? : Payload → Option TypeId
  | type t => some t
  | _ => none

end Payload

/-- A value: its type and what it holds. -/
structure Value where
  type : TypeId
  payload : Payload
deriving Inhabited

namespace Value

/-- The value of the nil singleton. -/
def ofNil : Value := ⟨.nil, .nil⟩

/-- The value of a boolean singleton. -/
def ofBool (b : Bool) : Value := ⟨.boolean, .bool b⟩

/-- An integer. -/
def ofInt (i : Int64) : Value := ⟨.integer, .int i⟩

/-- A real. -/
def ofReal (r : Double) : Value := ⟨.real, .real r⟩

/-- A text. -/
def ofStr (s : String) : Value := ⟨.string, .str s⟩

/-- A vector. -/
def ofVector (items : Array Ref) : Value := ⟨.vector, .vector items⟩

/-- A function of a program. -/
def ofFunction (f : UserFunction) : Value := ⟨.function, .function f⟩

/-- A native function. -/
def ofBuiltin (f : NativeFunction) : Value := ⟨.builtinFn, .builtin f⟩

/-- An imported module. -/
def ofModule (name : Name) : Value := ⟨.moduleType, .moduleNamed name⟩

/-- A type as a value. -/
def ofType (described : TypeId) : Value := ⟨.type, .type described⟩

/-- The handles that a value holds. -/
def refs (v : Value) : List Handle := v.payload.refs

end Value

end ScriptMachine
