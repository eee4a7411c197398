/-
# Evaluation of nodes

One definition for each kind of node, and `evalNode`, which chooses among them.  A node that raises a
fault is reported at its place and evaluates to nil; that happens in `evalReporting`, once for every
node, so a fault never leaves the node that raised it.

What a node still needs while other nodes are evaluated is on the stack of temporary roots: operands,
callees, arguments, and the elements of a vector under construction.

A loop is not repeated here.  After a round that wants another one, the loop node asks to be evaluated
again in its own place (`Turn.again`).
-/
import ScriptMachine.Machine.Builtin.Procedure

namespace ScriptMachine

/-- What a node comes to: a value, or a node to evaluate in its place. -/
inductive Turn where
  | value (r : Ref)
  | again (node : Node)

namespace Effect

/-! ## 1. Shape -/

/-- A child that the kind of a node calls for. -/
def child (node : Node) (i : Nat) : Effect Node :=
  match node.child? i with
  | some n => pure n
  | none => raise (.invalidOperand "<node>" node.kind.word)

/-! ## 2. Constants, variables and vectors -/

/-- A constant.  Numbers and texts are placed on the heap each time. -/
def evalLiteral : Literal → Effect Ref
  | .nil => pure .nil
  | .bool b => pure (.bool b)
  | .int i => allocate (.ofInt i)
  | .real x => allocate (.ofReal x)
  | .str s => allocate (.ofStr s)

/-- The value of a variable. -/
def evalSymbol (name : Name) : Effect Ref := readOrRaise fun m =>
  match m.scopes.findNearest name with
  | some e => .ok e.value
  | none => .error (.undefinedSymbol (m.text name))

/-- Evaluate nodes from first to last, keeping every value alive. -/
def evalRooted : List Node → List Ref → Effect (List Ref)
  | [], values => pure values.reverse
  | node :: rest, values => do
    let v ← eval node
    root v
    evalRooted rest (v :: values)

/-- A vector of the values of its elements. -/
def evalVector (elements : List Node) : Effect Ref := withRoots do
  let items ← evalRooted elements []
  allocate (.ofVector items.toArray)

/-! ## 3. Bindings -/

/-- Declare a variable in the current scope. -/
def evalDeclare (name : Name) (mutability : Mutability) (init : Node) (location : Location) :
    Effect Ref := do
  let v ← eval init
  bindName name ⟨v, mutability, location⟩
  pure v

/-- The fault of a refused assignment. -/
def assignFault (m : Machine) (name : Name) : AssignRefusal → FaultKind
  | .immutable => .immutableBinding (m.text name)
  | .undefined => .undefinedSymbol (m.text name)

/-- Give the nearest binding of a name another value. -/
def assignName (name : Name) (v : Ref) : Effect Unit := fun m =>
  let (result, scopes) := m.scopes.assign name v
  let m := { m with scopes }
  match result with
  | .ok () => .done m ()
  | .error why => .fault m (assignFault m name why)

/-- Assign to a variable.  An assignment that would be refused is refused before its value is
computed. -/
def evalAssign (name : Name) (node : Node) : Effect Ref := do
  readOrRaise fun m =>
    match m.scopes.checkAssign name with
    | .ok () => .ok ()
    | .error why => .error (assignFault m name why)
  let v ← eval node
  assignName name v
  pure v

/-! ## 4. Operators -/

/-- A binary operator as a method of the left operand. -/
def binaryMethod (op : BinaryOp) (l r : Ref) (location : Location) : Effect Ref := do
  match ← read fun m => m.methods.binary? op with
  | some method => callMethod l method [r] location
  | none => raiseAbout l (.invalidOperand op.symbol)

/-- A binary operator on two values: at once if both are numbers, and as a method otherwise. -/
def binaryOp (op : BinaryOp) (l r : Ref) (location : Location) : Effect Ref := do
  let a ← value l
  let b ← value r
  match a.payload.number?, b.payload.number? with
  | some a, some b => allocateOrRaise (Number.evalBinary op a b)
  | _, _ => binaryMethod op l r location

/-- A boolean operand of `and` or `or`. -/
def expectBool (op : BinaryOp) (r : Ref) : Effect Bool :=
  match r.bool? with
  | some b => pure b
  | none => raiseAbout r (.invalidOperand op.symbol)

/-- `and` and `or`: the right side is evaluated only if the left one does not decide. -/
def evalLogical (op : BinaryOp) (left right : Node) (decisive : Bool) : Effect Ref := do
  let l ← eval left
  let a ← expectBool op l
  if a = decisive then pure (.bool a)
  else do
    let r ← eval right
    let b ← expectBool op r
    pure (.bool b)

/-- A binary operator on two nodes. -/
def evalBinary (op : BinaryOp) (left right : Node) (location : Location) : Effect Ref :=
  match op with
  | .and => evalLogical op left right false
  | .or => evalLogical op left right true
  | op => withRoots do
    let l ← eval left
    root l
    let r ← eval right
    root r
    binaryOp op l r location

/-- A unary operator on a value. -/
def unaryOp (op : UnaryOp) (r : Ref) (location : Location) : Effect Ref := do
  let v ← value r
  match op, v.payload.number? with
  | .neg, some n => allocateOrRaise n.negate
  | _, _ => callKnown (MethodNames.unary · op) r [] location

/-- A unary operator on a node. -/
def evalUnary (op : UnaryOp) (operand : Node) (location : Location) : Effect Ref := withRoots do
  let v ← eval operand
  root v
  unaryOp op v location

/-! ## 5. Calls and members -/

/-- Call the value of the first child with the values of the others. -/
def evalCall (callee : Node) (args : List Node) (location : Location) : Effect Ref := withRoots do
  let f ← eval callee
  root f
  let args ← evalRooted args []
  callValue f args location

/-- A member of a module. -/
def moduleMember (name member : Name) : Effect Ref := readOrRaise fun m =>
  match m.modules.get? name with
  | none => .error (.unknownModule (m.text name))
  | some table =>
    match table.get? member with
    | some v => .ok v
    | none => .error (.unknownMember s!"<module {m.text name}>" (m.text member))

/-- Call a method of a value.  On a module that is a call of one of its members. -/
def evalMethodCall (method : Name) (receiver : Node) (args : List Node) (location : Location) :
    Effect Ref := withRoots do
  let r ← eval receiver
  root r
  let args ← evalRooted args []
  let v ← value r
  match v.payload with
  | .moduleNamed name => do
    let f ← moduleMember name method
    callValue f args location
  | _ => callMethod r method args location

/-- A field of an instance, by the name of its member. -/
def fieldOf (m : Machine) (v : Value) (member : Name) : Option Ref :=
  match v.payload with
  | .fields slots => (m.types.lookupMember v.type member).bind fun (position, _) => slots[position]?
  | _ => none

/-- A member of an instance, given with its value. -/
def instanceMember (r : Ref) (v : Value) (member : Name) : Effect Ref := do
  match ← read fun m => fieldOf m v member with
  | some field => pure field
  | none => do
    let owner ← renderPlain r
    raiseWith fun m => .unknownMember owner (m.text member)

/-- A member of an instance or of a module. -/
def evalMember (object : Node) (member : Name) : Effect Ref := do
  let r ← eval object
  let v ← value r
  match v.payload with
  | .moduleNamed name => moduleMember name member
  | _ => instanceMember r v member

/-! ## 6. Elements -/

/-- The position that an index stands for in a sequence, if it is inside. -/
def position? (index : Int64) (length : Nat) : Option Nat :=
  if 0 ≤ index.toInt ∧ index.toInt < length then some index.toInt.toNat else none

/-- An element of a sequence of `length` elements. -/
def elementAt {α : Type} (index : Int64) (length : Nat) (get : Nat → Option α) : Effect α :=
  match (position? index length).bind get with
  | some a => pure a
  | none => raise (.indexOutOfBounds index length)

/-- Index into a value: at once for an integer into a vector or a text, and as a method otherwise. -/
def indexOp (object index : Ref) (location : Location) : Effect Ref := do
  let dispatch := callKnown MethodNames.index object [index] location
  let i ← value index
  match i.payload.int? with
  | none => dispatch
  | some i => do
    let v ← value object
    match v.payload with
    | .vector items => elementAt i items.size fun p => items[p]?
    | .str s => do
      let cs := s.toList
      let c ← elementAt i cs.length fun p => cs[p]?
      allocateText c.toString
    | _ => dispatch

/-- Index into the value of a node. -/
def evalIndex (object index : Node) (location : Location) : Effect Ref := withRoots do
  let o ← eval object
  root o
  let i ← eval index
  root i
  indexOp o i location

/-! ## 7. Control -/

/-- A choice, in a scope of its own. -/
def evalBranch (condition consequence : Node) (alternative : Option Node) : Effect Ref :=
  inScope do
    let c ← eval condition
    if c.isTruthy then eval consequence
    else
      match alternative with
      | some node => eval node
      | none => pure .nil

/-- One round of a loop, in a scope of its own; tells whether the loop goes on. -/
def evalRound (condition body : Node) : Effect Bool :=
  inScope do
    let c ← eval condition
    if c.isTruthy then do
      let _ ← eval body
      pure true
    else pure false

/-! ## 8. Declarations of functions, methods and imports -/

/-- Declare a function: its scope is the current one. -/
def evalFunction (routine : FunctionDef) (location : Location) : Effect Ref := do
  let scope ← read fun m => m.scopes.current
  let v ← allocate (.ofFunction ⟨routine, scope, none⟩)
  bindName routine.name ⟨v, .immutable, location⟩
  pure v

/-- Declare a method on a type.  A method that the type refuses is reported like a type that is not
there. -/
def evalMethod (typeName : Name) (routine : FunctionDef) (location : Location) : Effect Ref := do
  match ← read fun m => m.types.find typeName with
  | none => raiseWith fun m => .unknownType (m.text typeName)
  | some type => do
    let f ← read fun m => (⟨routine, m.scopes.current, some m.methods.self⟩ : UserFunction)
    match ← changeTypes fun t => t.insertMethod type (.user f) location with
    | .error _ => raiseWith fun m => .unknownType (m.text typeName)
    | .ok () => pure .nil

/-- Import a module under its own name. -/
def evalImport (name : Name) (location : Location) : Effect Ref := do
  readOrRaise fun m =>
    if m.modules.contains name then .ok () else .error (.unknownModule (m.text name))
  let v ← allocate (.ofModule name)
  bindName name ⟨v, .immutable, location⟩
  pure v

/-! ## 9. Nodes -/

/-- What a node comes to.  A loop comes to itself again as long as its rounds go on, and to nil in
the end; every other node comes to a value. -/
def evalNode (node : Node) : Effect Turn :=
  match node.kind with
  | .program => .value <$> evalStatements .nil node.children
  | .block => .value <$> inScope (evalStatements .nil node.children)
  | .literal value => .value <$> evalLiteral value
  | .symbol name => .value <$> evalSymbol name
  | .vector => .value <$> evalVector node.children
  | .declare name mutability => do
    let init ← child node 0
    .value <$> evalDeclare name mutability init node.location
  | .assign name => do
    let value ← child node 0
    .value <$> evalAssign name value
  | .binary op => do
    let left ← child node 0
    let right ← child node 1
    .value <$> evalBinary op left right node.location
  | .unary op => do
    let operand ← child node 0
    .value <$> evalUnary op operand node.location
  | .call => do
    let callee ← child node 0
    .value <$> evalCall callee node.children.tail node.location
  | .methodCall method => do
    let receiver ← child node 0
    .value <$> evalMethodCall method receiver node.children.tail node.location
  | .member name => do
    let object ← child node 0
    .value <$> evalMember object name
  | .index => do
    let object ← child node 0
    let index ← child node 1
    .value <$> evalIndex object index node.location
  | .branch => do
    let condition ← child node 0
    let consequence ← child node 1
    .value <$> evalBranch condition consequence (node.child? 2)
  | .loop => do
    let condition ← child node 0
    let body ← child node 1
    let goesOn ← evalRound condition body
    pure (if goesOn then .again node else .value .nil)
  | .function routine => .value <$> evalFunction routine node.location
  | .method typeName routine => .value <$> evalMethod typeName routine node.location
  | .importModule name => .value <$> evalImport name node.location

/-- What a node comes to, with its fault logged at its place and nil in its stead. -/
def evalReporting (node : Node) : Effect Turn := do
  match ← attempt (evalNode node) with
  | .ok turn => pure turn
  | .error kind => do
    modify fun m => m.report kind node.location
    pure (.value .nil)

end Effect

end ScriptMachine
