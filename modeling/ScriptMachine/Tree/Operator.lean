/-
# Operators

The binary and unary operators of the language, how they are written, and the method that an
operator stands for when its operands are not both numbers.  `and` and `or` stand for no method:
they decide which operands are evaluated at all.
-/
namespace ScriptMachine

/-- A binary operator. -/
inductive BinaryOp where
  | add | sub | mul | div | mod | pow
  | eq | ne | lt | le | gt | ge
  | and | or
deriving DecidableEq, Inhabited

namespace BinaryOp

/-- Every binary operator, in the order of the tables that list them. -/
def all : List BinaryOp :=
  [add, sub, mul, div, mod, pow, eq, ne, lt, le, gt, ge, and, or]

/-- How the operator is written. -/
def symbol : BinaryOp → String
  | add => "+"
  | sub => "-"
  | mul => "*"
  | div => "/"
  | mod => "%"
  | pow => "**"
  | eq => "=="
  | ne => "!="
  | lt => "<"
  | le => "<="
  | gt => ">"
  | ge => ">="
  | and => "and"
  | or => "or"

/-- The method an operator calls on its left operand. -/
def method? : BinaryOp → Option String
  | add => some "add"
  | sub => some "sub"
  | mul => some "mul"
  | div => some "div"
  | mod => some "mod"
  | pow => some "pow"
  | eq => some "eq"
  | ne => some "ne"
  | lt => some "lt"
  | le => some "le"
  | gt => some "gt"
  | ge => some "ge"
  | and | or => none

/-- Comparisons answer with a boolean. -/
def isComparison : BinaryOp → Bool
  | eq | ne | lt | le | gt | ge => true
  | add | sub | mul | div | mod | pow | and | or => false

/-- The operator's word in faults about malformed trees. -/
def word : BinaryOp → String
  | add => "Add"
  | sub => "Sub"
  | mul => "Mul"
  | div => "Div"
  | mod => "Mod"
  | pow => "Pow"
  | eq => "Eq"
  | ne => "NotEq"
  | lt => "Lt"
  | le => "LtEq"
  | gt => "Gt"
  | ge => "GtEq"
  | and => "And"
  | or => "Or"

end BinaryOp

/-- A unary operator. -/
inductive UnaryOp where
  | neg | not
deriving DecidableEq, Inhabited

namespace UnaryOp

/-- Every unary operator, in the order of the tables that list them. -/
def all : List UnaryOp := [neg, not]

/-- How the operator is written. -/
def symbol : UnaryOp → String
  | neg => "-"
  | not => "not"

/-- The method an operator calls on its operand. -/
def method : UnaryOp → String
  | neg => "neg"
  | not => "not"

/-- The operator's word in faults about malformed trees. -/
def word : UnaryOp → String
  | neg => "Neg"
  | not => "Not"

end UnaryOp

end ScriptMachine
