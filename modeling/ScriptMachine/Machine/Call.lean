/-
# Calls

Who is called: a function, a method found on the type of its receiver, or a type, which makes an
instance through its method `new`.  The call itself is a request, answered in `Machine.Run`.

Arguments are evaluated by the caller, who also keeps them alive.
-/
import ScriptMachine.Machine.Duplicate

namespace ScriptMachine.Effect

/-- Find a method, from `type` upward, and call it with the receiver as first argument. -/
def callOnType (type : TypeId) (method : Name) (receiver : Ref) (args : List Ref)
    (location : Location) : Effect Ref := do
  let callable ← readOrRaise fun m =>
    match m.types.lookupMethod type method with
    | .ok found => .ok found.entry.callable
    | .error _ => .error (.methodNotFound (m.typeText type) (m.text method))
  call callable (receiver :: args) location

/-- Call a method on a value.  `new` on a type is looked up on that type, not on the type of
types. -/
def callMethod (receiver : Ref) (method : Name) (args : List Ref) (location : Location) :
    Effect Ref := do
  let v ← value receiver
  let new ← read fun m => m.methods.new
  let type :=
    match v.payload with
    | .type described => if method = new then described else v.type
    | _ => v.type
  callOnType type method receiver args location

/-- Call a method that the machine itself knows by name. -/
def callKnown (method : MethodNames → Name) (receiver : Ref) (args : List Ref)
    (location : Location) : Effect Ref := do
  let name ← read fun m => method m.methods
  callMethod receiver name args location

/-- Call whatever a value holds. -/
def callValue (callee : Ref) (args : List Ref) (location : Location) : Effect Ref := do
  let v ← value callee
  match v.payload.callable?, v.payload with
  | some callable, _ => call callable args location
  | none, .type described => do
    let new ← read fun m => m.methods.new
    callOnType described new callee args location
  | none, _ => raiseAbout callee .notCallable

/-! ## 1. Native functions -/

/-- The fault of a wrong number of arguments. -/
def raiseArity {α : Type} (name : Name) (expected got : Nat) : Effect α :=
  raiseWith fun m => .arityMismatch (m.text name) expected got

/-- Run a native body as a call. -/
def enterNative (f : NativeFunction) (args : List Ref) (location : Location)
    (body : Effect Ref) : Effect Ref :=
  if f.accepts args.length then inCall ⟨f.name, location⟩ body
  else raiseArity f.name f.arity args.length

/-! ## 2. User functions -/

/-- Copies of the arguments, first to last, each kept alive. -/
def copyArgs : List Ref → List Ref → Effect (List Ref)
  | [], copies => pure copies.reverse
  | arg :: rest, copies => do
    let copy ← duplicate arg
    root copy
    copyArgs rest (copy :: copies)

/-- The values to bind to the parameters: a variadic function gets all arguments from its last
parameter on in one new vector. -/
def arrange (f : UserFunction) (copies : List Ref) : Effect (List Ref) :=
  if f.routine.variadic then do
    demand (f.required ≤ copies.length) .missingArgument
    let rest ← allocate (.ofVector (copies.drop f.required).toArray)
    root rest
    pure (copies.take f.required ++ [rest])
  else pure copies

/-- Bind parameters to values, as far as both go. -/
def bindParams (location : Location) : List Name → List Ref → Effect Unit
  | name :: names, value :: values => do
    bindName name ⟨value, .mutable, location⟩
    bindParams location names values
  | _, _ => pure ()

/-- Evaluate statements in the current scope; the value is that of the last one. -/
def evalStatements (last : Ref) : List Node → Effect Ref
  | [] => pure last
  | statement :: rest => do
    let v ← eval statement
    evalStatements v rest

/-- Run the body of a user function on copies of the arguments, in a scope that continues the scope
of its definition. -/
def enterUser (f : UserFunction) (args : List Ref) (location : Location) : Effect Ref :=
  if f.accepts args.length then
    inCall ⟨f.routine.name, location⟩ <| withRoots do
      let copies ← copyArgs args []
      let values ← arrange f copies
      inFunctionScope f.scope do
        bindParams f.routine.body.location f.params values
        evalStatements .nil f.routine.body.children
  else raiseArity f.routine.name f.required args.length

end ScriptMachine.Effect
