/-
# Collection

A collection has two phases.  `mark` sets the mark of every record that can be reached from a list
of roots; `sweep` walks the allocation list once, frees the records without a mark and clears the
marks of the others.

Marking keeps a list of handles still to visit.  It ends on every graph, cyclic ones included: the
visits in the list and those that the unmarked records may still add to it get fewer each time, as a
record adds its references only once.  The order of visits does not matter to the outcome.
-/
import ScriptMachine.Heap.Basic

namespace ScriptMachine.Heap

/-! ## 1. Marking -/

/-- How many visits the records without a mark still cause. -/
def visitsLeft : List Slot → Nat
  | [] => 0
  | s :: slots => s.visits + visitsLeft slots

/-- Marking a record takes its visits off. -/
theorem visitsLeft_set {slots : List Slot} {i : Nat} {r : Record} (hr : slots[i]? = some (.live r))
    (hm : r.marked = false) :
    visitsLeft (slots.set i (.live { r with marked := true })) + (r.value.refs.length + 1) =
      visitsLeft slots := by
  induction slots generalizing i with
  | nil => cases hr
  | cons s slots ih =>
    cases i with
    | zero =>
      obtain rfl : s = .live r := Option.some.inj hr
      simp only [List.set_cons_zero, visitsLeft, Slot.visits, hm, if_true, Bool.false_eq_true,
        if_false]
      omega
    | succ i =>
      have hrest := ih (i := i) hr
      rw [List.set_cons_succ, visitsLeft, visitsLeft]
      omega

/-- Mark all that can be reached from the handles in a list.  Handles that do not resolve are
skipped, and so are records that have a mark. -/
def markFrom (slots : Array Slot) (work : List Handle) : Array Slot :=
  match work with
  | [] => slots
  | r :: rest =>
    if h : r.index < slots.size then
      match hs : slots[r.index] with
      | .live record =>
        if hm : record.generation = r.generation ∧ record.marked = false then
          let work := record.value.refs ++ rest
          markFrom (slots.set r.index (.live { record with marked := true })) work
        else markFrom slots rest
      | .free _ _ _ => markFrom slots rest
    else markFrom slots rest
termination_by visitsLeft slots.toList + work.length
decreasing_by
  · have hleft := visitsLeft_set (by rw [Array.getElem?_toList, Array.getElem?_eq_getElem h, hs]) hm.2
    rw [Array.toList_set, List.length_append, List.length_cons]
    omega
  all_goals simp

/-- Mark all that can be reached from the roots. -/
def mark (h : Heap) (roots : List Handle) : Heap := { h with slots := markFrom h.slots roots }

/-! ## 2. Sweeping -/

/-- Take the record at `i` off the allocation list and put its slot on the free list. -/
def release (h : Heap) (i : Nat) (r : Record) : Heap :=
  let slots := linkPrev (linkNext h.slots r.prev r.next) r.next r.prev
  { h with
    slots := slots.setIfInBounds i (.free (r.generation + 1) h.free h.stats.collections)
    head := if r.prev.isNone then r.next else h.head
    tail := if r.next.isNone then r.prev else h.tail
    free := some i }

/-- Clear the mark of the record at `i`. -/
def unmark (h : Heap) (i : Nat) : Heap :=
  { h with slots := h.slots.modify i (Slot.mapRecord fun r => { r with marked := false }) }

/-- Sweep `n` steps along the allocation list from `cursor` on, counting what is freed.  There is no
result if a link leads to a slot that is not in use, or if the list is longer than `n`. -/
def sweepFrom? (h : Heap) (freed : Nat) : Nat → Option Nat → Option (Nat × Heap)
  | _, none => some (freed, h)
  | 0, some _ => none
  | n + 1, some i =>
    match h.slots[i]? with
    | some (.live r) =>
      let next := r.next
      if r.marked then sweepFrom? (h.unmark i) freed n next
      else if isSoundLink h.slots r.prev && isSoundLink h.slots r.next then
        sweepFrom? (h.release i r) (freed + 1) n next
      else none
    | some (.free _ _ _) | none => none

/-- Free every record without a mark, clear all marks, and tell how many were freed; no result if
the allocation list is broken. -/
def sweep? (h : Heap) : Option (Nat × Heap) :=
  let steps := h.slots.size
  let cursor := h.head
  (sweepFrom? h 0 steps cursor).map fun (freed, h) =>
    (freed, { h with
      live := h.live - freed
      stats := { h.stats with freed := h.stats.freed + freed } })

/-- A sweep for hosts: a heap with a broken list stays as it is. -/
def sweep (h : Heap) : Nat × Heap := h.sweep?.getD (0, h)

/-! ## 3. Collecting -/

/-- Free all that cannot be reached from the roots, and tell how many values that were; no result if
the allocation list is broken. -/
def collect? (h : Heap) (roots : List Handle) : Option (Nat × Heap) :=
  let h := { h with stats := { h.stats with collections := h.stats.collections + 1 } }
  (h.mark roots).sweep?

/-- A collection for hosts: a heap with a broken list stays as it is. -/
def collect (h : Heap) (roots : List Handle) : Nat × Heap := (h.collect? roots).getD (0, h)

end ScriptMachine.Heap
