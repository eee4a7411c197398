/-
# Values as text

There are two renderings.  `render` asks the value itself, through its method `str`; that method may
be any function of the program.  `renderPlain` asks no one: it is used where a program must not be
run, in faults and as the last resort for a `str` that does not answer with a text.

Vectors can contain themselves, so both stop at a fixed depth.
-/
import ScriptMachine.Decimal.Written
import ScriptMachine.Text.Quoted
import ScriptMachine.Machine.Call

namespace ScriptMachine

/-- How deep vectors are rendered; the next one inside shows as `[...]`. -/
def maxRenderDepth : Nat := 32

/-- The rendering of a vector from those of its elements. -/
def bracketed (items : List String) : String := "[" ++ ", ".intercalate items ++ "]"

/-- The rendering of a vector that is too deep inside others. -/
def tooDeep : String := "[...]"

/-! ## 1. Without running anything -/

/-- A value that is not a vector. -/
def Machine.renderScalar (m : Machine) (v : Value) : String :=
  match v.payload with
  | .nil => "nil"
  | .bool b => if b then "true" else "false"
  | .int i => toString i.toInt
  | .real x => Decimal.writeReal x
  | .str s => s
  | .vector _ => tooDeep
  | .function f => s!"<fn {m.text f.routine.name}>"
  | .builtin f => s!"<builtin {m.text f.name}>"
  | .moduleNamed name => s!"<module {m.text name}>"
  | .type described => m.typeText described
  | .fields _ => s!"<{m.typeText v.type} instance>"

/-- The rendering that never runs a method, for vectors nested up to `depth` deep. -/
def Machine.renderNested (m : Machine) : Nat → Ref → Except Defect String
  | depth, r =>
    match m.resolve r with
    | .error d => .error d
    | .ok v =>
      match depth, v.payload with
      | depth + 1, .vector items => do
        let texts ← items.toList.mapM fun item => m.renderNested depth item
        return bracketed texts
      | _, _ => .ok (m.renderScalar v)

/-- The rendering that never runs a method. -/
def Machine.renderPlain (m : Machine) (r : Ref) : Except Defect String :=
  m.renderNested maxRenderDepth r

namespace Effect

/-- The rendering that never runs a method. -/
def renderPlain (r : Ref) : Effect String := readOrDefect fun m => m.renderPlain r

/-! ## 2. Through the method `str` -/

/-- The text of a value: its own if it is a text, and the plain rendering otherwise. -/
def textOrPlain (r : Ref) : Effect String := do
  let v ← value r
  match v.payload.str? with
  | some s => pure s
  | none => renderPlain r

/-- The text of a value, as its method `str` gives it. -/
def render (r : Ref) : Effect String := do
  let method ← read fun m => m.methods.str
  let text ← withRoots do
    root r
    callMethod r method [] .builtin
  textOrPlain text

/-- The texts of several values, first to last. -/
def renderAll : List Ref → List String → Effect (List String)
  | [], texts => pure texts.reverse
  | r :: rest, texts => do
    let text ← render r
    renderAll rest (text :: texts)

/-- What the built-in method `str` answers.  The elements of a vector are rendered through their own
methods. -/
def renderBuiltin (r : Ref) : Effect String := do
  let v ← value r
  match v.payload with
  | .vector items => do
    let depth ← read fun m => m.renderDepth
    if maxRenderDepth ≤ depth then pure tooDeep
    else
      let texts ← inRendering (renderAll items.toList [])
      pure (bracketed texts)
  | _ => renderPlain r

/-- A type and the text of a value of it, with texts in quotes. -/
def renderDbg (r : Ref) : Effect String := do
  let type ← typeText r
  let v ← value r
  match v.payload.str? with
  | some s => pure s!"{type}({Text.quoted s})"
  | none => do
    let text ← render r
    pure s!"{type}({text})"

end Effect

end ScriptMachine
