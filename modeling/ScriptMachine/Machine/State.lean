/-
# The machine

A `Machine` owns everything a running program touches: names, heap, types, scopes, modules, the
calls under way, the fault log and the console.  There is nothing outside it, so two machines never
share a value.

An allocation may be preceded by a collection, which keeps what can be reached from the roots: the
bindings of every frame, the members of every module, and the temporary roots.  Values that an
evaluation still needs and that nothing else holds are put on the stack of temporary roots.

A handle that does not resolve, a heap without room or with a broken list, a type whose size cannot
be told, a call that ends without having begun and a native body without the arguments it counts on
are *defects*: no program is meant to cause one, and evaluation stops there.
-/
import ScriptMachine.CallStack
import ScriptMachine.Console
import ScriptMachine.Scope
import ScriptMachine.ModuleTable
import ScriptMachine.Text.Digest
import ScriptMachine.Types.Dispatch
import ScriptMachine.Heap.Collect
import ScriptMachine.Heap.Report

namespace ScriptMachine

/-! ## 1. Names the machine itself uses -/

/-- The methods that operators, constructors and rendering call, and the receiver's name. -/
structure MethodNames where
  add : Name
  sub : Name
  mul : Name
  div : Name
  mod : Name
  pow : Name
  eq : Name
  ne : Name
  lt : Name
  le : Name
  gt : Name
  ge : Name
  neg : Name
  not : Name
  index : Name
  str : Name
  hash : Name
  dbg : Name
  len : Name
  new : Name
  self : Name
deriving Inhabited

namespace MethodNames

/-- The method of a binary operator; `and` and `or` have none. -/
def binary? (n : MethodNames) : BinaryOp → Option Name
  | .add => some n.add
  | .sub => some n.sub
  | .mul => some n.mul
  | .div => some n.div
  | .mod => some n.mod
  | .pow => some n.pow
  | .eq => some n.eq
  | .ne => some n.ne
  | .lt => some n.lt
  | .le => some n.le
  | .gt => some n.gt
  | .ge => some n.ge
  | .and | .or => none

/-- The method of a unary operator. -/
def unary (n : MethodNames) : UnaryOp → Name
  | .neg => n.neg
  | .not => n.not

end MethodNames

/-! ## 2. State -/

/-- A machine. -/
structure Machine where
  names : NameTable
  methods : MethodNames
  heap : Heap
  types : TypeTable
  scopes : ScopeStack
  modules : ModuleTable
  /-- Values that evaluations under way still need, newest last. -/
  temps : Array Ref
  /-- The faults logged so far, oldest first. -/
  faults : Array Fault
  calls : CallStack
  console : Console
  /-- Whether faults are also written to the console. -/
  echo : Bool
  /-- How many vectors are being rendered inside each other. -/
  renderDepth : Nat
  /-- How texts and handles are hashed. -/
  digest : Digest

/-- What no program is meant to cause. -/
inductive Defect where
  /-- A handle was used after its value was collected; the reason says how that came. -/
  | staleHandle (reason : String)
  /-- The heap refused a value. -/
  | heapExhausted (why : Refusal)
  /-- The size of a type passed 64 bits. -/
  | sizeOverflow
  /-- A copy visited more values than there were. -/
  | copyOverrun
  /-- A link of the heap's allocation list led to a slot that is not in use. -/
  | brokenList
  /-- A call ended while no call was under way. -/
  | noCall
  /-- A call had fewer arguments than its body counts on. -/
  | missingArgument
deriving DecidableEq, Inhabited

/-- The wording of a defect. -/
def Defect.message : Defect → String
  | staleHandle reason => reason
  | heapExhausted why => s!"heap exhausted: {why.message}"
  | sizeOverflow => "attempt to add with overflow"
  | copyOverrun => "a copy did not end"
  | brokenList => "allocation list links a free slot"
  | noCall => "a call ended on an empty call stack"
  | missingArgument => "index out of bounds"

/-- The defect of a heap that refuses a value or a collection. -/
def Defect.ofRefusal : Refusal → Defect
  | .brokenLink => brokenList
  | why => heapExhausted why

namespace Machine

/-! ## 3. Values -/

/-- The text of a name. -/
def text (m : Machine) (n : Name) : String := m.names.text n

/-- The value behind a reference.  The singletons have values that are not on the heap. -/
def resolve (m : Machine) : Ref → Except Defect Value
  | .nil => .ok .ofNil
  | .bool b => .ok (.ofBool b)
  | .heap h =>
    match m.heap.get? h with
    | some v => .ok v
    | none => .error (.staleHandle (m.heap.staleReason h))

/-- The name of a type, as a text. -/
def typeText (m : Machine) (t : TypeId) : String := m.text (m.types.nameOf t)

/-- The defect of a reference that does not resolve, if it is one. -/
def stale? (m : Machine) : Ref → Option Defect
  | .nil | .bool _ => none
  | .heap h => if m.heap.contains h then none else some (.staleHandle (m.heap.staleReason h))

/-- Change the payload of a value on the heap; singletons have none to change. -/
def modifyPayload (m : Machine) (r : Ref) (f : Payload → Payload) : Machine :=
  match r with
  | .heap h => { m with heap := m.heap.modifyPayload h f }
  | .nil | .bool _ => m

/-! ## 4. Memory -/

/-- The handles that keep values alive: temporary roots, module members and bindings. -/
def roots (m : Machine) : List Handle :=
  m.temps.toList.filterMap Ref.handle? ++ (m.modules.refs ++ m.scopes.refs)

/-- Collect, keeping what the roots and some more handles reach; tells how many values went.  There
is no result if the heap's allocation list is broken. -/
def collectKeeping? (m : Machine) (more : List Handle) : Option (Nat × Machine) :=
  let roots := more ++ m.roots
  (m.heap.collect? roots).map fun (freed, heap) => (freed, { m with heap })

/-- Collect now, whatever the threshold and the switch say. -/
def collectGarbage? (m : Machine) : Option (Nat × Machine) := m.collectKeeping? []

/-- A collection for hosts: a machine whose heap has a broken list stays as it is. -/
def collectGarbage (m : Machine) : Nat × Machine := m.collectGarbage?.getD (0, m)

/-- Collect if a collection is due, keeping what a value to be placed refers to. -/
def makeRoom? (m : Machine) (v : Value) : Option Machine :=
  if m.heap.shouldCollect then (m.collectKeeping? v.refs).map Prod.snd else some m

/-- Place a value on the heap as it is. -/
def insert (m : Machine) (v : Value) : Except Refusal Ref × Machine :=
  let (result, heap) := m.heap.insert v
  (result.map Ref.heap, { m with heap })

/-- Place a value on the heap, after a collection if one is due.  What the value itself refers to
survives that collection. -/
def tryAllocate (m : Machine) (v : Value) : Except Refusal Ref × Machine :=
  match m.makeRoom? v with
  | some m => m.insert v
  | none => (.error .brokenLink, m)

/-- Keep a value alive until the temporary roots are next released. -/
def root (m : Machine) (r : Ref) : Machine :=
  match r with
  | .heap _ => { m with temps := m.temps.push r }
  | .nil | .bool _ => m

/-- A temporary root is no change to the heap. -/
@[simp]
theorem heap_root (m : Machine) (r : Ref) : (m.root r).heap = m.heap := by
  cases r <;> rfl

/-- Release the temporary roots beyond the first `n`. -/
def releaseTo (m : Machine) (n : Nat) : Machine := { m with temps := m.temps.shrink n }

/-! ## 5. Faults -/

/-- Log a fault at a place, with the calls under way. -/
def report (m : Machine) (kind : FaultKind) (location : Location) : Machine :=
  let fault : Fault := ⟨kind, location, m.calls.capture⟩
  let console := if m.echo then m.console.error (fault.render m.names) else m.console
  { m with console, faults := m.faults.push fault }

/-- The machine with an empty fault log. -/
def clearFaults (m : Machine) : Machine := { m with faults := #[] }

end Machine

end ScriptMachine
