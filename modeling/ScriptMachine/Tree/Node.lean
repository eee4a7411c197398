/-
# Syntax trees

A tree is a `Node`: a kind, child nodes and a place.  The kind says what the children mean but
does not force their number: a tree may lack children that its kind calls for, and evaluation
then reports the node as malformed (`NodeKind.word` is its name in that report).

Kinds are generic in the names and the nodes they mention, so that the same kinds serve trees over
plain texts (`Sketch`) and trees over interned names (`Node`).
-/
import ScriptMachine.Location
import ScriptMachine.Number.Double
import ScriptMachine.Tree.Operator

namespace ScriptMachine

/-- Whether a binding can be assigned again. -/
inductive Mutability where
  | mutable | immutable
deriving DecidableEq, Inhabited

namespace Mutability

/-- Holds of bindings that can be assigned again. -/
def isMutable : Mutability → Bool
  | mutable => true
  | immutable => false

/-- The choice as a flag. -/
def ofFlag (isMutable : Bool) : Mutability := if isMutable then mutable else immutable

/-- The word in faults about malformed trees. -/
def word : Mutability → String
  | mutable => "Mutable"
  | immutable => "Immutable"

end Mutability

/-- A constant written in the source. -/
inductive Literal where
  | nil
  | bool (value : Bool)
  | int (value : Int64)
  | real (value : Double)
  | str (value : String)
deriving BEq, Inhabited

/-- A function as it is written: its parameters and its body.  A variadic one collects surplus
arguments in its last parameter. -/
structure Routine (α ν : Type) where
  name : α
  params : List α
  variadic : Bool
  body : ν

/-- What a node is, over names `α` and nodes `ν`. -/
inductive NodeKind (α ν : Type) where
  | program
  | block
  | literal (value : Literal)
  | symbol (name : α)
  | vector
  | declare (name : α) (mutability : Mutability)
  | assign (name : α)
  | binary (op : BinaryOp)
  | unary (op : UnaryOp)
  | call
  | methodCall (method : α)
  | member (name : α)
  | index
  | branch
  | loop
  | function (routine : Routine α ν)
  | method (typeName : α) (routine : Routine α ν)
  | importModule (name : α)

/-- A syntax tree. -/
inductive Node where
  | mk (kind : NodeKind Name Node) (children : List Node) (location : Location)

namespace Literal

/-- The label of a constant. -/
def label : Literal → String
  | nil => "Nil"
  | bool _ => "Bool"
  | int _ => "Int"
  | real _ => "Real"
  | str _ => "Str"

end Literal

namespace NodeKind

/-- The label of a kind. -/
def label {α ν : Type} : NodeKind α ν → String
  | program => "Program"
  | block => "Block"
  | literal value => value.label
  | symbol _ => "Symbol"
  | vector => "VectorLit"
  | declare _ _ => "VarDecl"
  | assign _ => "Assign"
  | binary _ => "Binary"
  | unary _ => "Unary"
  | call => "Call"
  | methodCall _ => "MethodCall"
  | member _ => "Member"
  | index => "Index"
  | branch => "If"
  | loop => "While"
  | function _ => "FnDecl"
  | method _ _ => "MethodDecl"
  | importModule _ => "Import"

/-- A label with what belongs to it in brackets. -/
def labelled (label detail : String) : String := s!"{label}({detail})"

/-- The kind as the report of a malformed node shows it.  Only kinds that need children can be
malformed; of the others the label is enough. -/
def word {ν : Type} (k : NodeKind Name ν) : String :=
  match k with
  | declare name m =>
    k.label ++ " \x7b name: " ++ name.numbered ++ ", mutability: " ++ m.word ++ " \x7d"
  | assign name => k.label ++ " \x7b name: " ++ name.numbered ++ " \x7d"
  | binary op => labelled k.label op.word
  | unary op => labelled k.label op.word
  | methodCall name | member name => labelled k.label name.numbered
  | _ => k.label

end NodeKind

namespace Node

/-- What the node is. -/
def kind : Node → NodeKind Name Node
  | mk k _ _ => k

/-- The nodes below, first to last. -/
def children : Node → List Node
  | mk _ cs _ => cs

/-- Where the node was written. -/
def location : Node → Location
  | mk _ _ l => l

/-- The child at a position, if there is one. -/
def child? (n : Node) (i : Nat) : Option Node := n.children[i]?

mutual

/-- Equality of trees, places included.  Real literals are compared as numbers, so a tree with a
NaN in it differs from itself and the two zeros count as one. -/
def equal : Node → Node → Bool
  | mk k cs l, mk k' cs' l' => l == l' && equalKind k k' && equalAll cs cs'

/-- Equality of lists of trees. -/
def equalAll : List Node → List Node → Bool
  | [], [] => true
  | n :: ns, n' :: ns' => equal n n' && equalAll ns ns'
  | _, _ => false

/-- Equality of kinds; routines are compared with their bodies. -/
def equalKind : NodeKind Name Node → NodeKind Name Node → Bool
  | .function r, .function r' => equalRoutine r r'
  | .method t r, .method t' r' => t == t' && equalRoutine r r'
  | .program, .program | .block, .block | .vector, .vector | .call, .call | .index, .index
  | .branch, .branch | .loop, .loop => true
  | .literal v, .literal v' => v == v'
  | .symbol n, .symbol n' | .assign n, .assign n' | .methodCall n, .methodCall n'
  | .member n, .member n' | .importModule n, .importModule n' => n == n'
  | .declare n m, .declare n' m' => n == n' && m == m'
  | .binary op, .binary op' => op == op'
  | .unary op, .unary op' => op == op'
  | _, _ => false

/-- Equality of routines. -/
def equalRoutine : Routine Name Node → Routine Name Node → Bool
  | ⟨n, ps, v, b⟩, ⟨n', ps', v', b'⟩ => n == n' && ps == ps' && v == v' && equal b b'

end

instance : BEq Node := ⟨equal⟩

end Node

/-- A function of a program, over interned names. -/
abbrev FunctionDef := Routine Name Node

end ScriptMachine
