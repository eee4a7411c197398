/-
# Computations on a machine

Evaluating a node means evaluating other nodes and calling functions, as deep as the program likes.
To keep every definition total and the depth off the stack of the process, a computation does not
call the evaluator: it stops with a *request* ("evaluate this node", "call this function") and says
how it goes on with the answer.  `Step` is a computation up to its first stop:

* `done`: it ended with a value;
* `fault`: it ended with a fault;
* `defect`: it ended with a defect, and so does everything around it;
* `call`: it stopped with a request.

An `Effect` is a computation that starts from a machine.  Effects form a monad, so evaluation reads
like ordinary code; `Machine.Run` answers the requests.  The machine is handed over at each stop and
never kept by a computation that waits, so there is one machine at a time.
-/
import ScriptMachine.Machine.State

namespace ScriptMachine

/-- What a computation can ask for. -/
inductive Request where
  /-- Evaluate a node.  The answer is a value: faults of the node are logged there. -/
  | eval (node : Node)
  /-- Call something with evaluated arguments.  The answer is a value or a fault. -/
  | call (callable : Callable) (args : List Ref) (location : Location)

/-- A computation up to its first stop. -/
inductive Step (α : Type) where
  | done (m : Machine) (value : α)
  | fault (m : Machine) (kind : FaultKind)
  | defect (m : Machine) (d : Defect)
  | call (m : Machine) (request : Request) (resume : Machine → Except FaultKind Ref → Step α)

namespace Step

variable {α β : Type}

/-- Go on with another computation after the end of this one. -/
def bind : Step α → (α → Machine → Step β) → Step β
  | done m a, f => f a m
  | fault m k, _ => fault m k
  | defect m d, _ => defect m d
  | call m q resume, f => call m q fun m r => (resume m r).bind f

/-- Turn a fault at the end into a value. -/
def attempt : Step α → Step (Except FaultKind α)
  | done m a => done m (.ok a)
  | fault m k => done m (.error k)
  | defect m d => defect m d
  | call m q resume => call m q fun m r => (resume m r).attempt

/-- Change the machine at the end, whether with a value or with a fault. -/
def onExit (g : Machine → Machine) : Step α → Step α
  | done m a => done (g m) a
  | fault m k => fault (g m) k
  | defect m d => defect m d
  | call m q resume => call m q fun m r => (resume m r).onExit g

end Step

/-- A computation that starts from a machine. -/
def Effect (α : Type) : Type := Machine → Step α

namespace Effect

variable {α β : Type}

/-! ## 1. Effects as a monad -/

@[inline] protected def pure (a : α) : Effect α := fun m => .done m a

@[inline] protected def bind (x : Effect α) (f : α → Effect β) : Effect β :=
  fun m => (x m).bind f

instance : Monad Effect where
  pure := Effect.pure
  bind := Effect.bind

/-! ## 2. Reading and changing the machine -/

/-- A fact about the machine. -/
@[inline] def read (f : Machine → α) : Effect α := fun m => .done m (f m)

/-- Change the machine. -/
@[inline] def modify (f : Machine → Machine) : Effect Unit := fun m => .done (f m) ()

/-- Have the table of types changed.  The table that comes back is kept, whatever the answer. -/
def changeTypes (f : TypeTable → α × TypeTable) : Effect α := fun m =>
  let (answer, types) := f m.types
  .done { m with types } answer

/-- End with a fault. -/
def raise (kind : FaultKind) : Effect α := fun m => .fault m kind

/-- End with a fault whose wording depends on the machine. -/
def raiseWith (kind : Machine → FaultKind) : Effect α := fun m => .fault m (kind m)

/-- A fact about the machine that may be a fault. -/
def readOrRaise (f : Machine → Except FaultKind α) : Effect α := fun m =>
  match f m with
  | .ok a => .done m a
  | .error k => .fault m k

/-- A fact about the machine that may be a defect. -/
def readOrDefect (f : Machine → Except Defect α) : Effect α := fun m =>
  match f m with
  | .ok a => .done m a
  | .error d => .defect m d

/-- End with a defect unless a condition holds. -/
def demand (condition : Bool) (d : Defect) : Effect Unit := fun m =>
  if condition then .done m () else .defect m d

/-- The outcome of a computation, value or fault, as a value. -/
def attempt (x : Effect α) : Effect (Except FaultKind α) := fun m => (x m).attempt

/-! ## 3. Requests -/

/-- Ask for an answer and take it as the outcome. -/
def request (q : Request) : Effect Ref := fun m =>
  .call m q fun m r =>
    match r with
    | .ok v => .done m v
    | .error k => .fault m k

/-- The value of a node. -/
def eval (node : Node) : Effect Ref := request (.eval node)

/-- The outcome of a call. -/
def call (callable : Callable) (args : List Ref) (location : Location) : Effect Ref :=
  request (.call callable args location)

/-! ## 4. Values and memory -/

/-- The value behind a reference. -/
def value (r : Ref) : Effect Value := readOrDefect fun m => m.resolve r

/-- The name of a value's type, as a text. -/
def typeText (r : Ref) : Effect String := readOrDefect fun m =>
  (m.resolve r).map fun v => m.typeText v.type

/-- End with a fault that names the type of a value. -/
def raiseAbout (r : Ref) (kind : String → FaultKind) : Effect α := do
  raise (kind (← typeText r))

/-- Place a value on the heap. -/
def allocate (v : Value) : Effect Ref := fun m =>
  match m.tryAllocate v with
  | (.ok r, m) => .done m r
  | (.error why, m) => .defect m (.ofRefusal why)

/-- Place the result of a numeric operator; booleans need no place. -/
def allocateResult : NumericResult → Effect Ref
  | .int i => allocate (.ofInt i)
  | .real x => allocate (.ofReal x)
  | .bool b => pure (.bool b)

/-- Keep a value alive until the enclosing `withRoots` ends. -/
def root (r : Ref) : Effect Unit := modify fun m => m.root r

/-- Release at the end what the computation put on the stack of temporary roots. -/
def withRoots (x : Effect α) : Effect α := fun m =>
  let mark := m.temps.size
  (x m).onExit fun m => m.releaseTo mark

/-! ## 5. Scopes -/

/-- Run in a block scope of its own. -/
def inScope (x : Effect α) : Effect α := fun m =>
  (x { m with scopes := m.scopes.push }).onExit fun m => { m with scopes := m.scopes.pop }

/-- Run in a function scope that continues `parent`. -/
def inFunctionScope (parent : ScopeId) (x : Effect α) : Effect α := fun m =>
  (x { m with scopes := m.scopes.pushFunction parent }).onExit fun m =>
    { m with scopes := m.scopes.pop }

/-- Bind a name in the current scope.  A name that cannot be bound there is reported as taken. -/
def bindName (name : Name) (entry : Entry) : Effect Unit := fun m =>
  let (result, scopes) := m.scopes.bind name entry
  let m := { m with scopes }
  match result with
  | .ok () => .done m ()
  | .error _ => .fault m (.alreadyDefined (m.text name))

/-! ## 6. Calls under way -/

/-- Begin a call.  Without room for its frame that is a fault. -/
def beginCall (frame : CallFrame) : Effect Unit := fun m =>
  let (result, calls) := m.calls.push frame
  let m := { m with calls }
  match result with
  | .error k => .fault m k
  | .ok () => .done m ()

/-- End the innermost call.  There has to be one. -/
def endCall : Effect Unit := fun m =>
  if m.calls.isEmpty then .defect m .noCall
  else .done { m with calls := m.calls.pop } ()

/-- Run as a call: its frame is on the call stack until the end, whether with a value or with a
fault.  Without room for the frame the computation does not start. -/
def inCall (frame : CallFrame) (x : Effect α) : Effect α := do
  beginCall frame
  let outcome ← attempt x
  endCall
  readOrRaise fun _ => outcome

/-- Run one level deeper in the rendering of vectors. -/
def inRendering (x : Effect α) : Effect α := fun m =>
  (x { m with renderDepth := m.renderDepth + 1 }).onExit fun m =>
    { m with renderDepth := m.renderDepth - 1 }

end Effect

end ScriptMachine
