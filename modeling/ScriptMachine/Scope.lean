/-
# Scopes

Frames of bindings on a stack.  Each frame but the global one has a lexical parent further down: a
block continues the frame on top, a function body the frame in which the function was defined.
Looking a name up follows the parents, so a body never sees the bindings of its caller.

Frame identities are handed out in ascending order and frames leave in the opposite order, so the
stack is sorted by identity and a frame is found by bisection (`position?`).  A function whose
defining frame is gone continues the global frame.

A stack carries the proof that it has a frame and that parents lie below, so every position that is
followed is a position of the stack.

* `bind` and `bindGlobal` add a binding to one frame and refuse a second one of the same name;
* `findLocal`, `findNearest` look a binding up;
* `assign` changes the nearest binding, and `checkAssign` tells beforehand whether it would.
-/
import ScriptMachine.Value

namespace ScriptMachine

/-! ## 1. Frames -/

/-- A binding: what a name stands for, whether that can change, and where it was declared. -/
structure Entry where
  value : Ref
  mutability : Mutability
  location : Location
deriving DecidableEq, Inhabited

/-- The bindings of a frame, newest first; no name is bound twice. -/
abbrev Bindings := List (Name × Entry)

namespace Bindings

/-- The binding of a name. -/
def get? : Bindings → Name → Option Entry
  | [], _ => none
  | (n, e) :: rest, name => if n = name then some e else get? rest name

/-- The bindings with another value for one name. -/
def setValue : Bindings → Name → Ref → Bindings
  | [], _, _ => []
  | (n, e) :: rest, name, value =>
    if n = name then (n, { e with value }) :: rest else (n, e) :: setValue rest name value

end Bindings

/-- A frame: its identity, the position of its lexical parent (none for the global frame only), and
its bindings. -/
structure Frame where
  id : ScopeId
  parent : Option Nat
  entries : Bindings
deriving Inhabited

/-! ## 2. The stack -/

/-- The frames, the global one first, and the number of the next identity.  There is always a frame,
and the parent of a frame lies below it, so no position met on the way is outside the stack. -/
@[ext]
structure ScopeStack where
  frames : Array Frame
  next : UInt32
  nonempty : 0 < frames.size
  below : ∀ i (h : i < frames.size) p, frames[i].parent = some p → p < i

namespace ScopeStack

/-- Only the global frame, without bindings. -/
def initial : ScopeStack where
  frames := #[⟨.global, none, []⟩]
  next := 1
  nonempty := by simp
  below := by simp

/-- How many frames there are. -/
def depth (s : ScopeStack) : Nat := s.frames.size

/-- The position of the innermost frame. -/
def top (s : ScopeStack) : Nat := s.depth - 1

/-- The innermost frame is on the stack. -/
theorem top_lt (s : ScopeStack) : s.top < s.frames.size := Nat.sub_one_lt_of_lt s.nonempty

/-- The identity of the innermost frame. -/
def current (s : ScopeStack) : ScopeId :=
  have := s.top_lt
  s.frames[s.top].id

/-- A new innermost frame below which lookups go on at position `parent`. -/
def pushAt (s : ScopeStack) (parent : Nat) (h : parent < s.frames.size) : ScopeStack where
  frames := s.frames.push ⟨⟨s.next⟩, some parent, []⟩
  next := s.next + 1
  nonempty := by simp
  below := by
    intro i hi p hp
    rw [Array.getElem_push] at hp
    split at hp
    · exact s.below i _ p hp
    · have hsize : (s.frames.push ⟨⟨s.next⟩, some parent, []⟩).size = s.frames.size + 1 := by simp
      obtain rfl : parent = p := by simpa using hp
      omega

/-- Enter a block: the new frame continues the innermost one. -/
def push (s : ScopeStack) : ScopeStack := s.pushAt s.top s.top_lt

/-- The position of the frame with a given identity among positions `lo` to `hi - 1`, by
bisection. -/
def bisect (frames : Array Frame) (id : ScopeId) (lo hi : Nat) (h : hi ≤ frames.size) :
    Option (Fin frames.size) :=
  if _h : lo < hi then
    let mid := (lo + hi) / 2
    have : mid < frames.size := by omega
    let f := frames[mid]
    if f.id = id then some ⟨mid, this⟩
    else if f.id.number < id.number then bisect frames id (mid + 1) hi h
    else bisect frames id lo mid (by omega)
  else none
termination_by hi - lo
decreasing_by
  all_goals omega

/-- The position of the frame with a given identity, if it is still on the stack. -/
def position? (s : ScopeStack) (id : ScopeId) : Option (Fin s.frames.size) :=
  bisect s.frames id 0 s.depth (Nat.le_refl _)

/-- Enter a function body: the new frame continues the frame `parent`, or the global one if that
frame is gone. -/
def pushFunction (s : ScopeStack) (parent : ScopeId) : ScopeStack :=
  let position := (s.position? parent).getD ⟨0, s.nonempty⟩
  s.pushAt position position.isLt

/-- The first frames of a stack, at least the global one. -/
def keep (s : ScopeStack) (depth : Nat) (h : 0 < depth) : ScopeStack where
  frames := s.frames.shrink depth
  next := s.next
  nonempty := by
    have := s.nonempty
    simp
    omega
  below := by
    intro i hi p hp
    rw [Array.getElem_shrink] at hp
    exact s.below i _ p hp

/-- Leave the innermost frame.  The global frame stays. -/
def pop (s : ScopeStack) : ScopeStack :=
  if h : 1 < s.depth then s.keep (s.depth - 1) (by omega) else s

/-- Leave frames until at most `depth` are left.  The global frame stays. -/
def unwindTo (s : ScopeStack) (depth : Nat) : ScopeStack := s.keep (max 1 depth) (by omega)

/-! ## 3. Bindings -/

/-- Change the bindings of the frame at a position. -/
def modifyEntries (s : ScopeStack) (position : Nat) (f : Bindings → Bindings) : ScopeStack where
  frames := s.frames.modify position fun frame => { frame with entries := f frame.entries }
  next := s.next
  nonempty := by
    rw [Array.size_modify]
    exact s.nonempty
  below := by
    intro i hi p hp
    rw [Array.getElem_modify] at hp
    split at hp <;> exact s.below i _ p hp

/-- Add a binding to the frame at a position.  A stack that refuses it stays as it is. -/
def bindAt (s : ScopeStack) (position : Nat) (h : position < s.frames.size) (name : Name)
    (entry : Entry) : Except Refusal Unit × ScopeStack :=
  if name.isEmpty then (.error .invalidArgument, s)
  else
    match s.frames[position].entries.get? name with
    | some _ => (.error .keyAlreadyInTable, s)
    | none => (.ok (), s.modifyEntries position fun entries => (name, entry) :: entries)

/-- Add a binding to the innermost frame.  Bindings of the same name further out do not matter. -/
def bind (s : ScopeStack) (name : Name) (entry : Entry) : Except Refusal Unit × ScopeStack :=
  s.bindAt s.top s.top_lt name entry

/-- Add a binding to the global frame. -/
def bindGlobal (s : ScopeStack) (name : Name) (entry : Entry) : Except Refusal Unit × ScopeStack :=
  s.bindAt 0 s.nonempty name entry

/-- The binding of a name in the innermost frame. -/
def findLocal (s : ScopeStack) (name : Name) : Option Entry :=
  have := s.top_lt
  s.frames[s.top].entries.get? name

/-- The position and binding of a name in the first frame that binds it, from `position` outward. -/
def resolveFrom (s : ScopeStack) (name : Name) (position : Nat) (h : position < s.frames.size) :
    Option (Nat × Entry) :=
  match s.frames[position].entries.get? name with
  | some e => some (position, e)
  | none =>
    match hp : s.frames[position].parent with
    | none => none
    | some parent => resolveFrom s name parent (Nat.lt_trans (s.below position h parent hp) h)
termination_by position
decreasing_by exact s.below position h parent hp

/-- The nearest binding of a name, with the position of its frame. -/
def resolve (s : ScopeStack) (name : Name) : Option (Nat × Entry) :=
  s.resolveFrom name s.top s.top_lt

/-- The nearest binding of a name. -/
def findNearest (s : ScopeStack) (name : Name) : Option Entry := (s.resolve name).map Prod.snd

/-- Give the nearest binding of a name another value.  A stack that refuses it stays as it is. -/
def assign (s : ScopeStack) (name : Name) (value : Ref) : Except AssignRefusal Unit × ScopeStack :=
  match s.resolve name with
  | none => (.error .undefined, s)
  | some (position, e) =>
    if e.mutability.isMutable then
      (.ok (), s.modifyEntries position fun entries => entries.setValue name value)
    else (.error .immutable, s)

/-- Whether the nearest binding of a name can be assigned right now. -/
def checkAssign (s : ScopeStack) (name : Name) : Except AssignRefusal Unit :=
  match s.findNearest name with
  | none => .error .undefined
  | some e => if e.mutability.isMutable then .ok () else .error .immutable

/-- The handles bound in any frame, whether in sight or not: a caller's bindings live on while a
callee runs. -/
def refs (s : ScopeStack) : List Handle :=
  s.frames.foldl (fun acc f => f.entries.foldl (fun acc (_, e) =>
    match e.value with
    | .heap h => h :: acc
    | .nil | .bool _ => acc) acc) []

end ScopeStack

end ScriptMachine
