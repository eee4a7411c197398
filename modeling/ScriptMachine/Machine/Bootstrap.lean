/-
# A new machine

What is there before a program runs: the built-in types with their methods, the types and the global
functions as bindings, and the mathematics module.  All of it is ordinary data afterwards: methods can
be replaced, and values on the heap are alive because they are bound.

Names are interned in a fixed order, since their numbers show in reports of malformed trees: types,
methods the machine uses, method tables, global functions, mathematics.
-/
import ScriptMachine.Machine.Run

namespace ScriptMachine

/-! ## 1. Tables of native functions -/

/-- A native function before its name is interned.  For a method the receiver counts as an
argument. -/
structure NativeSpec where
  name : String
  arity : Nat
  variadic : Bool
  procedure : Procedure

namespace NativeSpec

/-- A function with a fixed number of arguments. -/
def fixed (name : String) (arity : Nat) (procedure : Procedure) : NativeSpec :=
  ⟨name, arity, false, procedure⟩

/-- A function with a least number of arguments. -/
def atLeast (name : String) (arity : Nat) (procedure : Procedure) : NativeSpec :=
  ⟨name, arity, true, procedure⟩

/-- The function under an interned name. -/
def function (spec : NativeSpec) (name : Name) : NativeFunction :=
  ⟨name, spec.arity, spec.variadic, spec.procedure⟩

/-- Operators that an object does not know. -/
def unknownOperators : List String :=
  ["add", "sub", "mul", "div", "mod", "pow", "lt", "le", "gt", "ge", "neg", "not", "index"]

/-- Methods that every type inherits. -/
def objectMethods : List NativeSpec :=
  unknownOperators.map (atLeast · 1 .objectNil) ++
  [fixed "eq" 2 .objectEq, fixed "ne" 2 .objectNe, fixed "str" 1 .objectStr,
   fixed "dbg" 1 .objectDbg, fixed "hash" 1 .objectHash, atLeast "new" 1 .objectNew]

/-- Methods of Integer and Real. -/
def numericMethods : List NativeSpec :=
  [fixed "add" 2 (.numeric .add), fixed "sub" 2 (.numeric .sub), fixed "mul" 2 (.numeric .mul),
   fixed "div" 2 (.numeric .div), fixed "mod" 2 (.numeric .mod), fixed "pow" 2 (.numeric .pow),
   fixed "eq" 2 (.numeric .eq), fixed "ne" 2 (.numeric .ne), fixed "lt" 2 (.numeric .lt),
   fixed "le" 2 (.numeric .le), fixed "gt" 2 (.numeric .gt), fixed "ge" 2 (.numeric .ge),
   fixed "neg" 1 .numericNeg, atLeast "new" 1 .numericNew]

/-- Methods of String. -/
def textMethods : List NativeSpec :=
  [fixed "add" 2 .textAdd, fixed "mul" 2 .textRepeat, fixed "eq" 2 (.textCompare .eq),
   fixed "ne" 2 (.textCompare .ne), fixed "lt" 2 (.textCompare .lt),
   fixed "le" 2 (.textCompare .le), fixed "gt" 2 (.textCompare .gt),
   fixed "ge" 2 (.textCompare .ge), fixed "len" 1 .textLength, atLeast "new" 1 .textNew]

/-- Methods of Vector. -/
def vectorMethods : List NativeSpec :=
  [fixed "add" 2 .vectorAdd, fixed "push" 2 .vectorPush, fixed "len" 1 .vectorLength,
   atLeast "new" 1 .vectorNew]

/-- All method tables, in the order they are installed. -/
def methodTables : List (TypeId × List NativeSpec) :=
  [(.baseObject, objectMethods),
   (.nil, [atLeast "new" 1 .nilNew]),
   (.boolean, [fixed "not" 1 .boolNot, atLeast "new" 1 .boolNew]),
   (.integer, numericMethods),
   (.real, numericMethods),
   (.string, textMethods),
   (.vector, vectorMethods),
   (.type, [fixed "eq" 2 .typeEq, fixed "ne" 2 .typeNe, fixed "name" 1 .typeName])]

/-- The global functions. -/
def globals : List NativeSpec :=
  [atLeast "print" 0 .print, atLeast "println" 0 .printLine, fixed "string" 1 .string,
   fixed "type" 1 .typeOf, fixed "hash" 1 .hash, fixed "dbg" 1 .dbg, fixed "len" 1 .length,
   fixed "gc_dump" 0 .heapDump, fixed "gc_enable" 0 .collectorEnable,
   fixed "gc_disable" 0 .collectorDisable, fixed "gc_is_disabled" 0 .collectorIsDisabled,
   fixed "gc_collect" 0 .collect, fixed "gc_live" 0 .liveCount]

/-- The functions of the mathematics module. -/
def mathematics : List NativeSpec :=
  [fixed "sqrt" 1 .sqrt, fixed "abs" 1 .abs, fixed "floor" 1 .floor]

end NativeSpec

/-! ## 2. Names -/

/-- The names that the machine itself uses, interned in the order of the fields. -/
def MethodNames.intern (names : NameTable) : MethodNames × NameTable :=
  let (add, names) := names.intern "add"
  let (sub, names) := names.intern "sub"
  let (mul, names) := names.intern "mul"
  let (div, names) := names.intern "div"
  let (mod, names) := names.intern "mod"
  let (pow, names) := names.intern "pow"
  let (eq, names) := names.intern "eq"
  let (ne, names) := names.intern "ne"
  let (lt, names) := names.intern "lt"
  let (le, names) := names.intern "le"
  let (gt, names) := names.intern "gt"
  let (ge, names) := names.intern "ge"
  let (neg, names) := names.intern "neg"
  let (not, names) := names.intern "not"
  let (index, names) := names.intern "index"
  let (str, names) := names.intern "str"
  let (hash, names) := names.intern "hash"
  let (dbg, names) := names.intern "dbg"
  let (len, names) := names.intern "len"
  let (new, names) := names.intern "new"
  let (self, names) := names.intern "self"
  (⟨add, sub, mul, div, mod, pow, eq, ne, lt, le, gt, ge, neg, not, index, str, hash, dbg, len,
    new, self⟩, names)

namespace Machine

/-! ## 3. Steps of the installation -/

/-- Intern a name. -/
def intern (m : Machine) (s : String) : Name × Machine :=
  let (name, names) := m.names.intern s
  (name, { m with names })

/-- Bind a name in the global scope, from no place in the source. -/
def bindGlobal (m : Machine) (name : Name) (value : Ref) (mutability : Mutability) :
    Except Refusal Unit × Machine :=
  let (result, scopes) := m.scopes.bindGlobal name ⟨value, mutability, .builtin⟩
  (result, { m with scopes })

/-- Place a value on the heap and bind it in the global scope for good.  A value that cannot be bound
stays on the heap until the next collection. -/
def installGlobal (m : Machine) (name : Name) (v : Value) : Except Refusal Ref × Machine :=
  match m.tryAllocate v with
  | (.error why, m) => (.error why, m)
  | (.ok r, m) =>
    let (result, m) := m.bindGlobal name r .immutable
    (result.map fun () => r, m)

/-- Bind a type under its name. -/
def bindType (m : Machine) (type : TypeId) : Except Refusal Ref × Machine :=
  m.installGlobal (m.types.nameOf type) (.ofType type)

/-- Bind a native function under its name. -/
def registerNative (m : Machine) (spec : NativeSpec) : Except Refusal Ref × Machine :=
  let (name, m) := m.intern spec.name
  m.installGlobal name (.ofBuiltin (spec.function name))

/-- Install a native method. -/
def installMethod (type : TypeId) (m : Machine) (spec : NativeSpec) : Machine :=
  let (name, m) := m.intern spec.name
  { m with types := (m.types.insertMethod type (.native (spec.function name)) .builtin).2 }

/-- Take over a table of modules, unless it was refused. -/
def adoptModules (m : Machine) : Except Refusal ModuleTable → Machine
  | .ok modules => { m with modules }
  | .error _ => m

/-- Place a value on the heap as a member of a module. -/
def installMember (owner : Name) (m : Machine) (member : String) (value : Name → Value) :
    Machine :=
  let (name, m) := m.intern member
  match m.tryAllocate (value name) with
  | (.error _, m) => m
  | (.ok r, m) => m.adoptModules (m.modules.insertMember owner name r)

/-- Half the circumference of the unit circle. -/
def pi : Double := .ofFloat 3.141592653589793

/-- Set up the mathematics module. -/
def installMathematics (m : Machine) : Machine :=
  let (owner, m) := m.intern "math"
  let m := m.adoptModules (m.modules.register owner)
  let m := m.installMember owner "pi" fun _ => .ofReal pi
  NativeSpec.mathematics.foldl (fun m spec =>
    m.installMember owner spec.name fun name => .ofBuiltin (spec.function name)) m

/-! ## 4. The machine -/

/-- The choices of a host. -/
structure Settings where
  heap : HeapConfig
  /-- How many calls may be under way; no limit if there is none. -/
  depth : Option Nat
  console : Console
  /-- Whether faults are also written to the console. -/
  echo : Bool
  digest : Digest

/-- The limit on calls under way that no one chose. -/
def defaultDepth : Nat := 10000

/-- The choices of a host that makes none. -/
def Settings.default : Settings := ⟨.default, some defaultDepth, .terminal, true, .standard⟩

/-- A machine with types but nothing installed. -/
def bare (settings : Settings) (names : NameTable) : Machine :=
  let (types, names) := TypeTable.initial names
  let (methods, names) := MethodNames.intern names
  { names, methods, types
    heap := .initial settings.heap
    scopes := .initial
    modules := .initial
    temps := #[]
    faults := #[]
    calls := .initial settings.depth
    console := settings.console
    echo := settings.echo
    renderDepth := 0
    digest := settings.digest }

/-- A new machine over a table of names. -/
def boot (settings : Settings) (names : NameTable) : Machine :=
  let m := bare settings names
  let m := NativeSpec.methodTables.foldl (fun m (type, table) =>
    table.foldl (installMethod type) m) m
  let m := (List.range m.types.size).foldl (fun m i => (m.bindType ⟨i⟩).2) m
  let m := NativeSpec.globals.foldl (fun m spec => (m.registerNative spec).2) m
  m.installMathematics

end Machine

end ScriptMachine
