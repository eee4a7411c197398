/-
# Building trees

A `Sketch` is a tree whose names are still texts and whose nodes have no places yet.  `Builder.build`
turns it into a `Node`, interning names and stamping each node with the builder's current place.

Names are numbered in the order they are met, and the numbers show in some reports, so the order is
part of the rule: the children of a node first, from left to right, then the names of the node
itself, then its place.  A call by name is the one exception: its arguments come before its callee,
although the callee is its first child.
-/
import ScriptMachine.Tree.Node

namespace ScriptMachine

/-- A tree to be built. -/
inductive Sketch where
  /-- A node of any kind with any children. -/
  | node (kind : NodeKind String Sketch) (children : List Sketch)
  /-- A call of the function bound to a name. -/
  | call (callee : String) (args : List Sketch)
  /-- Move to a place, and stay there for this tree and all that follow. -/
  | moveTo (line column : Nat) (tree : Sketch)

namespace Sketch

/-- A node without children. -/
def leaf (kind : NodeKind String Sketch) : Sketch := node kind []

/-- A constant. -/
def literal (value : Literal) : Sketch := leaf (.literal value)

/-- The variable `name`. -/
def symbol (name : String) : Sketch := leaf (.symbol name)

/-- The vector of the given elements. -/
def vector (elements : List Sketch) : Sketch := node .vector elements

/-- The declaration of `name` with a first value. -/
def declare (name : String) (mutability : Mutability) (value : Sketch) : Sketch :=
  node (.declare name mutability) [value]

/-- The assignment of a new value to `name`. -/
def assign (name : String) (value : Sketch) : Sketch := node (.assign name) [value]

/-- A binary operator between two trees. -/
def binary (op : BinaryOp) (left right : Sketch) : Sketch := node (.binary op) [left, right]

/-- A unary operator before a tree. -/
def unary (op : UnaryOp) (operand : Sketch) : Sketch := node (.unary op) [operand]

/-- A call of whatever `callee` evaluates to. -/
def callValue (callee : Sketch) (args : List Sketch) : Sketch := node .call (callee :: args)

/-- A method call on `receiver`. -/
def methodCall (receiver : Sketch) (method : String) (args : List Sketch) : Sketch :=
  node (.methodCall method) (receiver :: args)

/-- The member `name` of an object. -/
def member (object : Sketch) (name : String) : Sketch := node (.member name) [object]

/-- The element of `object` at `position`. -/
def index (object position : Sketch) : Sketch := node .index [object, position]

/-- A choice, with or without an alternative. -/
def branch (condition consequence : Sketch) (alternative : Option Sketch) : Sketch :=
  node .branch ([condition, consequence] ++ alternative.toList)

/-- A loop. -/
def loop (condition body : Sketch) : Sketch := node .loop [condition, body]

/-- Statements in a scope of their own. -/
def block (statements : List Sketch) : Sketch := node .block statements

/-- Statements in the scope around them. -/
def program (statements : List Sketch) : Sketch := node .program statements

/-- The declaration of a function whose body is a block of statements. -/
def function (name : String) (params : List String) (variadic : Bool) (body : List Sketch) :
    Sketch :=
  leaf (.function ⟨name, params, variadic, block body⟩)

/-- The declaration of a method on the type `typeName`. -/
def method (typeName name : String) (params : List String) (body : List Sketch) : Sketch :=
  leaf (.method typeName ⟨name, params, false, block body⟩)

/-- The import of a module. -/
def importModule (name : String) : Sketch := leaf (.importModule name)

end Sketch

/-- Builds trees: the names met so far and the place that the next node gets. -/
structure Builder where
  names : NameTable
  file : Name
  line : Nat
  column : Nat

namespace Builder

/-- A builder at the start of a file, whose name is interned first. -/
def start (names : NameTable) (file : String) : Builder :=
  let (file, names) := names.intern file
  ⟨names, file, 1, 1⟩

/-- The place that the next node gets. -/
def location (b : Builder) : Location := ⟨b.file, b.line, b.column⟩

/-- The builder at another place of its file. -/
def moveTo (b : Builder) (line column : Nat) : Builder := { b with line, column }

/-- The name of a text. -/
def intern (b : Builder) (s : String) : Name × Builder :=
  let (n, names) := b.names.intern s
  (n, { b with names })

/-- The names of several texts, first to last. -/
def internAll (b : Builder) (ss : List String) : List Name × Builder :=
  let (ns, names) := b.names.internAll ss
  (ns, { b with names })

/-- A node at the current place. -/
def stamp (b : Builder) (kind : NodeKind Name Node) (children : List Node) : Node :=
  .mk kind children b.location

mutual

/-- The tree of a sketch. -/
def build (b : Builder) : Sketch → Node × Builder
  | .node kind children =>
    let (children, b) := buildAll b children
    let (kind, b) := buildKind b kind
    (b.stamp kind children, b)
  | .call callee args =>
    let (args, b) := buildAll b args
    let (name, b) := b.intern callee
    (b.stamp .call (b.stamp (.symbol name) [] :: args), b)
  | .moveTo line column tree => build (b.moveTo line column) tree

/-- The trees of several sketches, first to last. -/
def buildAll (b : Builder) : List Sketch → List Node × Builder
  | [] => ([], b)
  | s :: rest =>
    let (n, b) := build b s
    let (ns, b) := buildAll b rest
    (n :: ns, b)

/-- The kind of a sketch over interned names.  The body of a routine comes before its names, the
type of a method before the method's name. -/
def buildKind (b : Builder) : NodeKind String Sketch → NodeKind Name Node × Builder
  | .program => (.program, b)
  | .block => (.block, b)
  | .literal v => (.literal v, b)
  | .symbol n => let (n, b) := b.intern n; (.symbol n, b)
  | .vector => (.vector, b)
  | .declare n m => let (n, b) := b.intern n; (.declare n m, b)
  | .assign n => let (n, b) := b.intern n; (.assign n, b)
  | .binary op => (.binary op, b)
  | .unary op => (.unary op, b)
  | .call => (.call, b)
  | .methodCall n => let (n, b) := b.intern n; (.methodCall n, b)
  | .member n => let (n, b) := b.intern n; (.member n, b)
  | .index => (.index, b)
  | .branch => (.branch, b)
  | .loop => (.loop, b)
  | .function ⟨name, params, variadic, body⟩ =>
    let (body, b) := build b body
    let (name, b) := b.intern name
    let (params, b) := b.internAll params
    (.function ⟨name, params, variadic, body⟩, b)
  | .method typeName ⟨name, params, variadic, body⟩ =>
    let (body, b) := build b body
    let (typeName, b) := b.intern typeName
    let (name, b) := b.intern name
    let (params, b) := b.internAll params
    (.method typeName ⟨name, params, variadic, body⟩, b)
  | .importModule n => let (n, b) := b.intern n; (.importModule n, b)

end

end Builder

end ScriptMachine
