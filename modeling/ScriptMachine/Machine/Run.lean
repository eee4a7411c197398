/-
# Running a machine

`perform` gives each request its computation, and a `Run` answers requests until none is left.  The
computations that wait for an answer are kept on a list, the one that waits for the next answer in
front, so the depth of a program is bounded by memory only.

A program may loop for ever, so a run is given a number of steps.  The four ways it can end are kept
apart: with a value, with a fault, with a defect, or out of steps.  After a defect nothing goes on;
the scopes entered since the run began are left.
-/
import ScriptMachine.Machine.Eval

namespace ScriptMachine

open Effect

/-- The computation that answers a request. -/
def Request.perform : Request → Effect Turn
  | .eval node => evalReporting node
  | .call (.native f) args location => do
    let v ← enterNative f args location (f.procedure.run args)
    pure (.value v)
  | .call (.user f) args location => do
    let v ← enterUser f args location
    pure (.value v)

/-- A computation that waits for an answer. -/
abbrev Continuation := Machine → Except FaultKind Ref → Step Turn

/-- How a run ends. -/
inductive Outcome (α : Type) where
  | value (m : Machine) (a : α)
  | fault (m : Machine) (kind : FaultKind)
  | defect (m : Machine) (d : Defect)
  | outOfSteps (m : Machine)

/-- A run under way: the computation at work, and those that wait for it, innermost first. -/
structure Run where
  current : Step Turn
  waiting : List Continuation

namespace Run

/-- The machine of a run. -/
def machine (run : Run) : Machine :=
  match run.current with
  | .done m _ | .fault m _ | .defect m _ | .call m _ _ => m

/-- One step of a run: how it ends, or how it goes on. -/
def next : Run → Outcome Ref ⊕ Run
  | ⟨.done m (.again node), waiting⟩ => .inr ⟨(Request.eval node).perform m, waiting⟩
  | ⟨.call m q resume, waiting⟩ => .inr ⟨q.perform m, resume :: waiting⟩
  | ⟨.done m (.value r), resume :: waiting⟩ => .inr ⟨resume m (.ok r), waiting⟩
  | ⟨.fault m k, resume :: waiting⟩ => .inr ⟨resume m (.error k), waiting⟩
  | ⟨.done m (.value r), []⟩ => .inl (.value m r)
  | ⟨.fault m k, []⟩ => .inl (.fault m k)
  | ⟨.defect m d, _⟩ => .inl (.defect m d)

/-- Go on for at most `n` steps; tells also how many of them are left. -/
def finish : Nat → Run → Nat × Outcome Ref
  | 0, run => (0, .outOfSteps run.machine)
  | n + 1, run =>
    match run.next with
    | .inl outcome => (n, outcome)
    | .inr run => run.finish n

end Run

/-- Answer all requests of a computation. -/
def Step.run {α : Type} (n : Nat) : Step α → Outcome α
  | .done m a => .value m a
  | .fault m k => .fault m k
  | .defect m d => .defect m d
  | .call m q resume =>
    match (Run.mk (q.perform m) []).finish n with
    | (n, .value m r) => (resume m (.ok r)).run n
    | (n, .fault m k) => (resume m (.error k)).run n
    | (_, .defect m d) => .defect m d
    | (_, .outOfSteps m) => .outOfSteps m

/-- The machine of an outcome. -/
def Outcome.machine {α : Type} : Outcome α → Machine
  | value m _ | fault m _ | defect m _ | outOfSteps m => m

namespace Machine

/-- Run a computation on a machine.  A defect leaves the scopes that the computation had entered. -/
def run {α : Type} (m : Machine) (n : Nat) (x : Effect α) : Outcome α :=
  let depth := m.scopes.depth
  match (x m).run n with
  | .defect m d => .defect { m with scopes := m.scopes.unwindTo depth } d
  | outcome => outcome

/-- Evaluate a node in the current scope. -/
def evaluate (m : Machine) (n : Nat) (node : Node) : Outcome Ref := m.run n (eval node)

end Machine

end ScriptMachine
