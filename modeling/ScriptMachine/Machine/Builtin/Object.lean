/-
# Methods of every object

What all types inherit, unless they have a method of their own: operators that answer nil, equality
by identity, rendering, hashing, and the constructor of user types.  With them come the few methods
of nil, of booleans and of types.
-/
import ScriptMachine.Machine.Render

namespace ScriptMachine.Effect

/-- Place a text on the heap. -/
def allocateText (s : String) : Effect Ref := allocate (.ofStr s)

/-! ## 1. Hashing -/

/-- The hash of a value.  Numbers and texts are hashed by what they are, all else by its handle.
Adding zero makes the two zeros one, and NaNs quiet. -/
def hashOf (digest : Digest) (r : Ref) (v : Value) : Int64 :=
  match v.payload, r with
  | .nil, _ => 0
  | .bool b, _ => if b then 1 else 0
  | .int i, _ => i
  | .real x, _ => (x + .zero).bits.toInt64
  | .str s, _ => digest.text s
  | _, .heap h => digest.words [3, h.index.toUInt64, h.generation.toUInt64]
  | _, .nil | _, .bool _ => 0

/-- Place the hash of a value on the heap. -/
def hashValue (r : Ref) : Effect Ref := do
  let v ← value r
  let digest ← read fun m => m.digest
  allocate (.ofInt (hashOf digest r v))

/-! ## 2. Constructors -/

/-- The type that a constructor makes values of: the receiver, if it describes a type, and the type
of the receiver otherwise. -/
def constructedType (receiver : Ref) : Effect TypeId := do
  let v ← value receiver
  pure (v.payload.type?.getD v.type)

/-- Make an instance of a user type.  Arguments fill the members in order, and members without an
argument are nil.  The type takes no further members from then on. -/
def newObject (receiver : Ref) (args : List Ref) : Effect Ref := do
  let type ← constructedType receiver
  match ← read fun m => m.types.get? type with
  | none => pure .nil
  | some info =>
    let expected := info.members.size
    if info.kind ≠ .object ∨ type = .baseObject then
      raiseWith fun m => .invalidOperand "new" (m.text info.name)
    else if expected < args.length then raiseArity info.name expected args.length
    else do
      let slots := args.toArray ++ Array.replicate (expected - args.length) Ref.nil
      match ← changeTypes fun t => t.close type with
      | .error _ => raise (.unknownType type.numbered)
      | .ok () => pure ()
      allocate ⟨type, .fields slots⟩

/-! ## 3. Booleans and types -/

/-- The opposite of a boolean; nil for anything else. -/
def negateBool (r : Ref) : Ref :=
  match r.bool? with
  | some b => .bool !b
  | none => .nil

/-- Whether two values describe the same type.  A value that describes none equals nothing. -/
def sameType (l r : Ref) : Effect Bool := do
  let a ← value l
  match a.payload.type? with
  | none => pure false
  | some type => do
    let b ← value r
    pure (b.payload.type? == some type)

/-- The name of the type that a value describes, as a text on the heap; nil if it describes none. -/
def nameOfType (r : Ref) : Effect Ref := do
  let v ← value r
  match v.payload.type? with
  | none => pure .nil
  | some type => do
    let text ← read fun m => m.typeText type
    allocateText text

end ScriptMachine.Effect
