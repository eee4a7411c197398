/-
# Global functions

Output, rendering, reflection, and the controls of the collector.
-/
import ScriptMachine.Machine.Builtin.Sequence

namespace ScriptMachine.Effect

/-! ## 1. Output -/

/-- The texts of all arguments with a blank between them. -/
def joined (args : List Ref) : Effect String := do
  let texts ← renderAll args []
  pure (" ".intercalate texts)

/-- Write the texts of all arguments. -/
def printArgs (args : List Ref) : Effect Ref := do
  let text ← joined args
  modify fun m => { m with console := m.console.print text }
  pure .nil

/-- Write the texts of all arguments as a line. -/
def printLineArgs (args : List Ref) : Effect Ref := do
  let text ← joined args
  modify fun m => { m with console := m.console.printLine text }
  pure .nil

/-! ## 2. Functions that stand for methods -/

/-- The text of a value, on the heap. -/
def stringOf (r : Ref) : Effect Ref := do
  let text ← render r
  allocateText text

/-- The type of a value, as a value. -/
def typeOfValue (r : Ref) : Effect Ref := do
  let v ← value r
  allocate (.ofType v.type)

/-- Call a method without arguments, from no place in the source. -/
def callPlain (method : MethodNames → Name) (r : Ref) : Effect Ref :=
  callKnown method r [] .builtin

/-- Write what the method `dbg` answers as a line, and pass the value on. -/
def debug (r : Ref) : Effect Ref := do
  let shown ← callPlain MethodNames.dbg r
  let text ← textOrPlain shown
  modify fun m => { m with console := m.console.printLine text }
  pure r

/-! ## 3. The collector -/

/-- Write the report of the heap. -/
def printReport : Effect Ref := do
  modify fun m => { m with console := m.console.print (m.heap.report m.types m.names) }
  pure .nil

/-- Turn automatic collection on or off. -/
def setCollector (enabled : Bool) : Effect Ref := do
  modify fun m => { m with heap := m.heap.setEnabled enabled }
  pure .nil

/-- Collect, and tell how many values went. -/
def collectGarbage : Effect Nat := fun m =>
  match m.collectGarbage? with
  | some (freed, m) => .done m freed
  | none => .defect m .brokenList

/-- Collect, and place the number of values that went on the heap. -/
def collectNow : Effect Ref := do
  allocateCount (← collectGarbage)

end ScriptMachine.Effect
