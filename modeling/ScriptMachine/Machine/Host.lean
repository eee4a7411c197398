/-
# What a host can do

Besides evaluating trees, a host defines globals and types, looks bindings up, calls values, renders
them and changes them.  Requests that a table refuses are answered with the refusal; only defects stop
a computation.
-/
import ScriptMachine.Machine.Bootstrap

namespace ScriptMachine

open Effect

namespace Machine

/-- Bind a name in the global scope. -/
def defineGlobal (m : Machine) (name : String) (value : Ref) (mutability : Mutability) :
    Except Refusal Unit × Machine :=
  let (name, m) := m.intern name
  m.bindGlobal name value mutability

/-- The value of a name as seen from the current scope.  Looking a name up does not intern it. -/
def lookup (m : Machine) (name : String) : Option Ref :=
  (m.names.get? name).bind fun n => (m.scopes.findNearest n).map Entry.value

/-- The type with a given name. -/
def findType (m : Machine) (name : String) : Option TypeId :=
  (m.names.get? name).bind m.types.find

end Machine

namespace Effect

/-- The name of a text. -/
def intern (s : String) : Effect Name := fun m =>
  let (name, m) := m.intern s
  .done m name

/-! ## 1. Types -/

/-- Add a member to a type; the answer is its offset. -/
def addMember (type : TypeId) (name : Name) (memberType : TypeId) :
    Effect (Except Refusal Nat) := fun m =>
  let (result, types) := m.types.insertMember type name memberType
  let m := { m with types }
  match result with
  | .placed offset => .done m (.ok offset)
  | .refused why => .done m (.error why)
  | .sizeOverflow => .defect m .sizeOverflow

/-- Add members to a type up to the first that is refused. -/
def addMembers (type : TypeId) : List (String × TypeId) → Effect (Except Refusal Unit)
  | [] => pure (.ok ())
  | (text, memberType) :: rest => do
    let name ← intern text
    match ← addMember type name memberType with
    | .error why => pure (.error why)
    | .ok _ => addMembers type rest

/-- Bind a type in the global scope. -/
def bindType (type : TypeId) : Effect (Except Refusal Ref) := fun m =>
  let (result, m) := m.bindType type
  .done m result

/-- Define a type with members and bind it in the global scope.  A type whose members are refused
stays in the table of types, without a binding. -/
def defineType (name : String) (parent : TypeId) (members : List (String × TypeId)) :
    Effect (Except Refusal TypeId) := do
  let name ← intern name
  match ← changeTypes fun t => t.make .object parent name with
  | .error why => pure (.error why)
  | .ok type => do
    match ← addMembers type members with
    | .error why => pure (.error why)
    | .ok () => do
      let result ← bindType type
      pure (result.map fun _ => type)

/-! ## 2. Values -/

/-- The text of a value as a program would print it.  A fault on the way is logged, and the plain
rendering stands in. -/
def display (r : Ref) : Effect String := do
  match ← attempt (render r) with
  | .ok text => pure text
  | .error kind => do
    modify fun m => m.report kind .builtin
    renderPlain r

/-- What became of a request to store into a slot. -/
inductive StoreResult where
  | stored | outOfRange | noSlots | singleton
deriving DecidableEq

/-- Store a value into an element of a vector or a field of an instance. -/
def storeElement (r : Ref) (position : Nat) (v : Ref) : Effect StoreResult := do
  let old ← value r
  match r.handle?, old.payload.elements? with
  | none, _ => pure .singleton
  | some _, none => pure .noSlots
  | some _, some items =>
    if position < items.size then do
      modify fun m => m.modifyPayload r fun p => p.setElement position v
      pure .stored
    else pure .outOfRange

end Effect

end ScriptMachine
