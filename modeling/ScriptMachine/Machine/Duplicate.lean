/-
# Copies

A call binds its parameters to copies of the arguments.  A copy goes all the way down: vectors and
instances are copied element by element, and a value that is met twice is copied once, so shared and
cyclic structure keeps its shape.  Singletons are shared.

The copy of a container (its *shell*) is allocated before its elements are copied.  It starts out
with the elements themselves, which keeps them alive, and is known before the first element is
visited, so a cycle leads back to it.  Every copy is put on the stack of temporary roots.

Containers under way are kept on a list, not on the stack of the process.  `store` works along that
list as long as the next element is a singleton or has a copy already; each visit of `copyFrom` makes
one new copy, and there are no more of them than live values at the start.
-/
import Std.Data.HashMap
import ScriptMachine.Machine.Step

namespace ScriptMachine

/-- The copies made so far, by the handle of what was copied. -/
abbrev Copies := Std.HashMap Handle Ref

/-- The copy that needs no visit: of a singleton, or of a value that was visited. -/
def Copies.known? (copies : Copies) : Ref → Option Ref
  | .heap h => copies[h]?
  | .nil => some .nil
  | .bool b => some (.bool b)

/-- A container whose copy is under way: the shell, the position of the next element to copy, and
the elements from there on. -/
structure Pending where
  shell : Ref
  position : Nat
  rest : List Ref

/-- How many stores a list of containers under way still needs, and one more for each container. -/
def Pending.work : List Pending → Nat
  | [] => 0
  | p :: pending => p.rest.length + 1 + work pending

/-- Where a copy stands: at its end, before a value that has to be visited, or at a defect. -/
inductive CopyState where
  | finished (copy : Ref)
  | visit (element : Ref) (pending : List Pending)
  | stuck (d : Defect)

namespace Machine

/-- Store a copy into the innermost container under way, and go on from there: a container without
further elements is itself a copy for the container around it. -/
def store (m : Machine) (copies : Copies) (copy : Ref) (pending : List Pending) :
    CopyState × Machine :=
  match pending with
  | [] => (.finished copy, m)
  | ⟨shell, position, elements⟩ :: outer =>
    match m.stale? shell with
    | some d => (.stuck d, m)
    | none =>
      let m := m.modifyPayload shell fun payload => payload.setElement position copy
      match elements with
      | [] | [_] => m.store copies shell outer
      | _ :: next :: rest =>
        let pending := ⟨shell, position + 1, next :: rest⟩ :: outer
        match copies.known? next with
        | some copy => m.store copies copy pending
        | none => (.visit next pending, m)
termination_by Pending.work pending
decreasing_by
  all_goals simp [Pending.work]

/-- Copy the value that has to be visited, then the rest.  At most `budget` values are visited. -/
def copyFrom (m : Machine) (copies : Copies) : Nat → CopyState → Step Ref
  | _, .finished copy => .done m copy
  | _, .stuck d => .defect m d
  | 0, .visit _ _ => .defect m .copyOverrun
  | budget + 1, .visit element pending =>
    match m.resolve element with
    | .error d => .defect m d
    | .ok value =>
      match m.tryAllocate value with
      | (.error why, m) => .defect m (.ofRefusal why)
      | (.ok copy, m) =>
        let m := m.root copy
        let copies :=
          match element with
          | .heap h => copies.insert h copy
          | .nil | .bool _ => copies
        match (value.payload.elements?.getD #[]).toList with
        | [] =>
          let (state, m) := m.store copies copy pending
          m.copyFrom copies budget state
        | first :: rest =>
          let pending := ⟨copy, 0, first :: rest⟩ :: pending
          match copies.known? first with
          | none => m.copyFrom copies budget (.visit first pending)
          | some known =>
            let (state, m) := m.store copies known pending
            m.copyFrom copies budget state

/-- An independent copy of a value. -/
def duplicate (m : Machine) (r : Ref) : Step Ref :=
  match r with
  | .heap _ => m.copyFrom ∅ m.heap.live (.visit r [])
  | .nil | .bool _ => .done m r

end Machine

/-- An independent copy of a value, kept alive until the enclosing `withRoots` ends. -/
def Effect.duplicate (r : Ref) : Effect Ref := fun m => m.duplicate r

end ScriptMachine
