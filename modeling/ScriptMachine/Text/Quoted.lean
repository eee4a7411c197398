/-
# Quoted text

A text between double quotes in which every character shows: quotes and backslashes get a backslash,
the usual controls have letters, and any other character that does not show is written as its code
point.  An apostrophe stands for itself.
-/
import ScriptMachine.Text.Hidden

namespace ScriptMachine.Text

/-- A code point as lower-case hexadecimal digits between braces. -/
def codePoint (c : Char) : String :=
  "\\u\x7b" ++ String.ofList (Nat.toDigits 16 c.toNat) ++ "\x7d"

/-- A character inside quotes. -/
def escaped (c : Char) : String :=
  match c with
  | '\x22' => "\\\""
  | '\\' => "\\\\"
  | '\n' => "\\n"
  | '\r' => "\\r"
  | '\t' => "\\t"
  | '\x00' => "\\0"
  | c => if isShown c then c.toString else codePoint c

/-- A text in quotes. -/
def quoted (s : String) : String :=
  s.foldl (fun text c => text ++ escaped c) "\"" ++ "\""

end ScriptMachine.Text
