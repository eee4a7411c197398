/-
# The console

Where a program's output and its faults go.  A buffer keeps both streams for the host to read;
the other consoles keep nothing.
-/
namespace ScriptMachine

/-- A console. -/
inductive Console where
  /-- Keeps what was written, one text for output and one for faults. -/
  | buffer (output errors : String)
  /-- Drops all that is written. -/
  | silent
  /-- Stands for the terminal of the process: nothing written there can be read back. -/
  | terminal
deriving Inhabited

namespace Console

/-- A buffer nothing was written to. -/
def emptyBuffer : Console := buffer "" ""

/-- Write to the output stream. -/
def print : Console → String → Console
  | buffer out err, text => buffer (out ++ text) err
  | silent, _ => silent
  | terminal, _ => terminal

/-- Write a line to the output stream. -/
def printLine (c : Console) (text : String) : Console := c.print (text ++ "\n")

/-- Write a line to the error stream. -/
def error : Console → String → Console
  | buffer out err, text => buffer out (err ++ text ++ "\n")
  | silent, _ => silent
  | terminal, _ => terminal

/-- What was written to the output stream, as far as the console keeps it. -/
def output : Console → String
  | buffer out _ => out
  | silent | terminal => ""

/-- What was written to the error stream, as far as the console keeps it. -/
def errors : Console → String
  | buffer _ err => err
  | silent | terminal => ""

/-- Forget what was written. -/
def clear : Console → Console
  | buffer _ _ => emptyBuffer
  | silent => silent
  | terminal => terminal

end Console

end ScriptMachine
