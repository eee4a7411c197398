/-
# Methods of texts and vectors
-/
import ScriptMachine.Machine.Builtin.Object

namespace ScriptMachine.Effect

/-- The length of something, as an integer on the heap. -/
def allocateCount (n : Nat) : Effect Ref :=
  allocate (.ofInt ((Integer.fit? n).getD Int64.maxValue))

/-! ## 1. Texts -/

/-- The most bytes a repeated text may have: 2^30. -/
def maxTextBytes : Nat := 0x40000000

/-- Both operands, if both are texts.  The right one is looked at only if the left one is a text. -/
def textPair (l r : Ref) : Effect (Option (String × String)) := do
  let a ← value l
  match a.payload.str? with
  | none => pure none
  | some a => do
    let b ← value r
    pure (b.payload.str?.map fun b => (a, b))

/-- One text after another; what is no text is rendered first. -/
def concat (l r : Ref) : Effect Ref := do
  let a ← value l
  match a.payload.str? with
  | none => pure .nil
  | some left => do
    let b ← value r
    let right ←
      match b.payload.str? with
      | some s => pure s
      | none => render r
    allocateText (left ++ right)

/-- A text `n` times over, by doubling. -/
def repeated (s : String) (n : Nat) : String :=
  if n = 0 then ""
  else
    let half := repeated s (n / 2)
    if n % 2 = 0 then half ++ half else half ++ half ++ s

/-- A text several times over.  Its bytes are counted beforehand. -/
def repeatText (l r : Ref) : Effect Ref := do
  let a ← value l
  let b ← value r
  match a.payload.str?, b.payload.int? with
  | some s, some n =>
    if n.toInt < 0 then raise (.invalidOperand "*" "negative Integer")
    else if maxTextBytes < s.utf8ByteSize * n.toInt.toNat then raise (.sizeLimit "*" maxTextBytes)
    else allocateText (repeated s n.toInt.toNat)
  | _, _ => pure .nil

/-- An order test on texts, by code points. -/
def compareTexts (test : Comparison) (a b : String) : Bool :=
  match test with
  | .eq => a == b
  | .ne => a != b
  | .lt => a < b
  | .le => !(b < a)
  | .gt => b < a
  | .ge => !(a < b)

/-- What an order test answers when one side is no text: unequal, or nil. -/
def textMismatch : Comparison → Ref
  | .eq => .bool false
  | .ne => .bool true
  | .lt | .le | .gt | .ge => .nil

/-- An order test on texts as a method. -/
def textMethod (test : Comparison) (l r : Ref) : Effect Ref := do
  match ← textPair l r with
  | some (a, b) => pure (.bool (compareTexts test a b))
  | none => pure (textMismatch test)

/-- How many characters a text has. -/
def lengthOfText (r : Ref) : Effect Ref := do
  let v ← value r
  match v.payload.str? with
  | some s => allocateCount s.length
  | none => pure .nil

/-- The text of the first argument; the empty text without one. -/
def newText : List Ref → Effect Ref
  | [] => allocateText ""
  | arg :: _ => do
    let text ← render arg
    allocateText text

/-! ## 2. Vectors -/

/-- The elements of one vector and then of another, in a new vector. -/
def appendVectors (l r : Ref) : Effect Ref := do
  let a ← value l
  let b ← value r
  match a.payload.vector?, b.payload.vector? with
  | some left, some right => allocate (.ofVector (left ++ right))
  | _, _ => pure .nil

/-- Add an element to a vector itself. -/
def pushElement (r item : Ref) : Effect Ref := do
  let v ← value r
  match r, v.payload with
  | .heap _, .vector _ => do
    modify fun m => m.modifyPayload r fun p => p.push item
    pure r
  | _, _ => pure .nil

/-- How many elements a vector has. -/
def lengthOfVector (r : Ref) : Effect Ref := do
  let v ← value r
  match v.payload.vector? with
  | some items => allocateCount items.size
  | none => pure .nil

end ScriptMachine.Effect
