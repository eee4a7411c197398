/-
# Places in the source

A node, a binding and a call remember where they were written.  Line 0 marks what no source text
wrote: builtins and host calls.
-/
import ScriptMachine.Name

namespace ScriptMachine

/-- A place: file, line and column, lines and columns counted from 1. -/
structure Location where
  file : Name
  line : Nat
  column : Nat
deriving DecidableEq, Inhabited

namespace Location

/-- The place of what was not written in any source text. -/
def builtin : Location := ⟨Name.empty, 0, 0⟩

/-- Line 0 is no line of a source text, whatever the file and column say. -/
def isBuiltin (l : Location) : Bool := l.line == 0

/-- The form for readers: `file:line:column`. -/
def display (l : Location) (names : NameTable) : String :=
  if l.isBuiltin then "<builtin>"
  else
    let file := names.text l.file
    let file := if file.isEmpty then "<input>" else file
    s!"{file}:{l.line}:{l.column}"

/-- The form that needs no table: the file stays a number. -/
def numbered (l : Location) : String := s!"{l.file.numbered}:{l.line}:{l.column}"

end Location

end ScriptMachine
