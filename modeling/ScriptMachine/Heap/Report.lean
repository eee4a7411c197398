/-
# The heap as text

One line for the heap and one for each live value, oldest first.
-/
import ScriptMachine.Heap.Basic
import ScriptMachine.Types.Basic

namespace ScriptMachine

/-- A text filled up with blanks on the right. -/
def Text.padRight (s : String) (width : Nat) : String := s.pushn ' ' (width - s.length)

namespace Heap

/-- The line of a live value: slot, generation, type and mark. -/
def reportLine (types : TypeTable) (names : NameTable) (h : Handle) (r : Record) : String :=
  let index := Text.padRight (toString h.index) 4
  let generation := Text.padRight (toString h.generation.toNat) 3
  let type := Text.padRight (names.text (types.nameOf r.value.type)) 12
  let mark := if r.marked then "marked" else "-"
  s!"  #{index} gen {generation} {type} {mark}\n"

/-- The heap with all its live values. -/
def report (h : Heap) (types : TypeTable) (names : NameTable) : String :=
  let state := if h.config.enabled then "enabled" else "disabled"
  h.entries.foldl (fun text (handle, r) => text ++ reportLine types names handle r)
    s!"heap: {h.live} live, threshold {h.config.threshold}, {state}\n"

end Heap

end ScriptMachine
