/-
# The heap

Values live in the slots of an arena.  Slots in use form a doubly linked list in the order of
allocation; free slots form a list of their own, last freed first, and are used again before the
arena grows.  Freeing a slot raises its generation, so a handle to the old occupant stops resolving
and never resolves again.

* `insert` places a value and returns its handle;
* `get?` gives the value behind a handle that still resolves, and `staleReason` says why one does not;
* `entries` lists what is live, oldest first.

Collection is in `Heap.Collect`.
-/
import ScriptMachine.Value
import ScriptMachine.Decimal.Numeral
import ScriptMachine.Text.Blank

namespace ScriptMachine

/-! ## 1. Settings and counters -/

/-- When to collect: automatically at all, and above how many live values. -/
structure HeapConfig where
  threshold : Nat
  enabled : Bool
deriving DecidableEq, Inhabited

namespace HeapConfig

/-- The threshold that no one chose. -/
def defaultThreshold : Nat := 50

/-- The settings that no one chose. -/
def default : HeapConfig := ⟨defaultThreshold, true⟩

/-- The settings as two optional texts give them: a count for the threshold, ignored if it is none,
and a switch that turns collection off unless it is empty or `0`. -/
def ofSettings (threshold disable : Option String) : HeapConfig where
  threshold := (threshold.bind fun s => Numeral.readCount? (Text.trimmed s)).getD defaultThreshold
  enabled :=
    match disable with
    | some s => s.isEmpty || s == "0"
    | none => true

end HeapConfig

/-- What happened on a heap so far. -/
structure HeapStats where
  allocations : Nat
  collections : Nat
  freed : Nat
deriving DecidableEq, Inhabited

/-! ## 2. Slots -/

/-- A slot in use.  The mark is only set between the two phases of a collection. -/
structure Record where
  value : Value
  generation : UInt32
  marked : Bool
  prev : Option Nat
  next : Option Nat
deriving Inhabited

/-- A slot: in use, or free with the generation of its next occupant, the next free slot and the
number of the collection that freed it. -/
inductive Slot where
  | live (record : Record)
  | free (generation : UInt32) (nextFree : Option Nat) (freedIn : Nat)
deriving Inhabited

namespace Slot

/-- Change the record of a slot in use. -/
def mapRecord (f : Record → Record) : Slot → Slot
  | live r => live (f r)
  | free g n c => free g n c

/-- The visits that a record without a mark still causes: its own, and one for each reference in its
value. -/
def visits : Slot → Nat
  | live r => if r.marked then 0 else r.value.refs.length + 1
  | free _ _ _ => 0

end Slot

/-! ## 3. The arena -/

/-- The heap: its slots, the two ends of the allocation list, the first free slot, and the number of
slots in use. -/
structure Heap where
  slots : Array Slot
  head : Option Nat
  tail : Option Nat
  free : Option Nat
  live : Nat
  config : HeapConfig
  stats : HeapStats
deriving Inhabited

namespace Heap

/-- A heap without values. -/
def initial (config : HeapConfig) : Heap := ⟨#[], none, none, none, 0, config, ⟨0, 0, 0⟩⟩

/-- The slots with another successor for the one at `i`, if there is an `i`. -/
def linkNext (slots : Array Slot) (i next : Option Nat) : Array Slot :=
  match i with
  | some i => slots.modify i (Slot.mapRecord fun r => { r with next })
  | none => slots

/-- The slots with another predecessor for the one at `i`, if there is an `i`. -/
def linkPrev (slots : Array Slot) (i prev : Option Nat) : Array Slot :=
  match i with
  | some i => slots.modify i (Slot.mapRecord fun r => { r with prev })
  | none => slots

/-- Whether a link leads nowhere or to a slot in use, as every link of the allocation list must. -/
def isSoundLink (slots : Array Slot) (link : Option Nat) : Bool :=
  match link with
  | none => true
  | some i =>
    match slots[i]? with
    | some (.live _) => true
    | some (.free _ _ _) | none => false

/-- Put a value into the free slot `i`, at the end of the allocation list. -/
def place (h : Heap) (i : Nat) (generation : UInt32) (free : Option Nat) (v : Value) : Heap :=
  let slots := h.slots.setIfInBounds i (.live ⟨v, generation, false, h.tail, none⟩)
  { h with
    slots := linkNext slots h.tail (some i)
    head := if h.tail.isNone then some i else h.head
    tail := some i
    free
    live := h.live + 1
    stats := { h.stats with allocations := h.stats.allocations + 1 } }

/-- Put a value into the free slot `i`, unless the end of the allocation list is no slot in use. -/
def settle (h : Heap) (i : Nat) (generation : UInt32) (free : Option Nat) (v : Value) :
    Except Refusal Handle × Heap :=
  if isSoundLink h.slots h.tail then (.ok ⟨i, generation⟩, h.place i generation free v)
  else (.error .brokenLink, h)

/-- The most slots an arena may have: 2^32. -/
def maxSlots : Nat := 0x100000000

/-- Place a value in the first free slot, or in a new one at the end of the arena.  A full arena
refuses the value and stays as it is. -/
def insert (h : Heap) (v : Value) : Except Refusal Handle × Heap :=
  match h.free with
  | some i =>
    match h.slots[i]? with
    | some (.free generation nextFree _) => h.settle i generation nextFree v
    | some (.live _) | none => (.error .allocFailed, h)
  | none =>
    let i := h.slots.size
    if i < maxSlots then
      let h := { h with slots := h.slots.push (.free 0 none 0) }
      h.settle i 0 none v
    else (.error .allocFailed, h)

/-- The record behind a handle, if the handle still resolves. -/
def record? (h : Heap) (r : Handle) : Option Record :=
  match h.slots[r.index]? with
  | some (.live record) => if record.generation = r.generation then some record else none
  | some (.free _ _ _) | none => none

/-- The value behind a handle, if the handle still resolves. -/
def get? (h : Heap) (r : Handle) : Option Value := (h.record? r).map Record.value

/-- Whether a handle still resolves. -/
def contains (h : Heap) (r : Handle) : Bool := (h.record? r).isSome

/-- The mark of the value behind a handle, if the handle still resolves. -/
def isMarked? (h : Heap) (r : Handle) : Option Bool := (h.record? r).map Record.marked

/-- Change the value behind a handle; a handle that no longer resolves changes nothing. -/
def modifyValue (h : Heap) (r : Handle) (f : Value → Value) : Heap :=
  { h with slots := h.slots.modify r.index (Slot.mapRecord fun record =>
    if record.generation = r.generation then { record with value := f record.value }
    else record) }

/-- Change the payload behind a handle; a handle that no longer resolves changes nothing. -/
def modifyPayload (h : Heap) (r : Handle) (f : Payload → Payload) : Heap :=
  h.modifyValue r fun v => { v with payload := f v.payload }

/-- Why a handle does not resolve. -/
def staleReason (h : Heap) (r : Handle) : String :=
  let problem :=
    match h.slots[r.index]? with
    | none => "was never allocated"
    | some (.live record) => s!"was reused as generation {record.generation.toNat}"
    | some (.free _ _ freedIn) => s!"was freed by collection {freedIn}"
  s!"use of collected value: {r.display} {problem}"

/-- The records of `n` steps along the allocation list from `cursor` on, with their handles. -/
def entriesFrom (h : Heap) : Nat → Option Nat → List (Handle × Record)
  | 0, _ | _, none => []
  | n + 1, some i =>
    match h.slots[i]? with
    | some (.live r) => (⟨i, r.generation⟩, r) :: entriesFrom h n r.next
    | some (.free _ _ _) | none => []

/-- All records, oldest first.  The allocation list is no longer than the arena. -/
def entries (h : Heap) : List (Handle × Record) := h.entriesFrom h.slots.size h.head

/-- Whether an allocation should be preceded by a collection. -/
def shouldCollect (h : Heap) : Bool := h.config.enabled && h.config.threshold < h.live

/-- Turn automatic collection on or off. -/
def setEnabled (h : Heap) (enabled : Bool) : Heap := { h with config := { h.config with enabled } }

/-- Whether automatic collection is off. -/
def isDisabled (h : Heap) : Bool := !h.config.enabled

end Heap

end ScriptMachine
