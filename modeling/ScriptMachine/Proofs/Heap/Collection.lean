/-
# Heaps between collections

`Layout h used free` is the invariant of a heap on which nothing is under way: the two lists of
`Arranged` begin where the heap says, no record is marked, and the counters agree with the lists.
Each operation keeps it, and each has one statement that says who lives where afterwards:

* `Layout.insert`: an insertion fails only on an arena of the full size without a free slot; else
  the value is the last on the allocation list, in a slot that was empty;
* `Layout.write`: a write changes one value;
* `Layout.collect`: a collection always has a result, and keeps exactly what can be reached;
* `Arranged.mem_listing_iff`: the allocation list, read in order, gives each handle that resolves once.
-/
import ScriptMachine.Proofs.Heap.Marking

namespace ScriptMachine.Heap

/-! ## 1. The invariant -/

/-- A heap between collections: its allocation list is `used`, its free list `free`. -/
structure Layout (h : Heap) (used free : List Nat) : Prop extends Arranged h used free where
  free_eq : h.free = free.head?
  live_eq : h.live = used.length
  unmarked : ∀ i, markAt h.slots i = false
  counted : h.stats.freed + h.live = h.stats.allocations

/-- The heap without values. -/
theorem Layout.initial (config : HeapConfig) : Layout (initial config) [] [] where
  linked := by
    intro before i after h
    simp at h
  unused := by
    intro before i after h
    simp at h
  head_eq := rfl
  tail_eq := rfl
  nodup := by simp
  cover := by simp [Heap.initial]
  free_eq := rfl
  live_eq := rfl
  unmarked := by simp [Heap.initial, markAt]
  counted := rfl

section Arranged

variable {h : Heap} {used free : List Nat}

/-- The two lists hold slots of the arena only. -/
theorem Arranged.mem_iff (ha : Arranged h used free) {i : Nat} :
    i ∈ used ++ free ↔ i < h.slots.size := by
  refine ⟨fun hi => ?_, ha.cover i⟩
  rcases List.mem_append.1 hi with hi | hi
  · obtain ⟨r, hr⟩ := ha.linked.record hi
    exact (Array.getElem?_eq_some_iff.1 hr).1
  · obtain ⟨before, after, hsplit⟩ := List.append_of_mem hi
    obtain ⟨g, c, hg⟩ := ha.unused before i after hsplit
    exact (Array.getElem?_eq_some_iff.1 hg).1

/-- Every slot is on exactly one of the two lists. -/
theorem Arranged.perm (ha : Arranged h used free) : (used ++ free).Perm (List.range h.slots.size) :=
  (List.perm_ext_iff_of_nodup ha.nodup List.nodup_range).2 fun i => by
    rw [ha.mem_iff, List.mem_range]

/-- The lengths of the two lists add up to that of the arena. -/
theorem Arranged.length_add (ha : Arranged h used free) :
    used.length + free.length = h.slots.size := by
  simpa using ha.perm.length_eq

/-- A slot is on the allocation list exactly when someone lives there. -/
theorem Arranged.mem_used_iff (ha : Arranged h used free) {i : Nat} :
    i ∈ used ↔ (occupant h.slots i).isSome := by
  constructor
  · intro hi
    obtain ⟨r, hr⟩ := ha.linked.record hi
    simp [occupant, hr]
  · intro ho
    have hsize : i < h.slots.size := by
      by_contra hge
      simp [occupant, Array.getElem?_eq_none (Nat.le_of_not_lt hge)] at ho
    refine (List.mem_append.1 (ha.cover i hsize)).resolve_right fun hi => ?_
    obtain ⟨before, after, hsplit⟩ := List.append_of_mem hi
    obtain ⟨g, c, hg⟩ := ha.unused before i after hsplit
    simp [occupant, hg] at ho

/-- A slot without an occupant has no mark. -/
theorem markAt_of_vacant {slots : Array Slot} {i : Nat} (ho : occupant slots i = none) :
    markAt slots i = false := by
  unfold occupant at ho
  unfold markAt
  split at ho <;> simp_all

end Arranged

/-! ## 2. Insertion -/

/-- What an insertion makes of a heap. -/
structure Inserted (h : Heap) (v : Value) (r : Handle) (h' : Heap) : Prop where
  vacant : occupant h.slots r.index = none
  occupant_eq : ∀ j, occupant h'.slots j =
    if r.index = j then some (r.generation, v) else occupant h.slots j
  /-- The arena grows only if all its slots are in use. -/
  size_eq : h'.slots.size = max h.slots.size h'.live
  live_eq : h'.live = h.live + 1
  config_eq : h'.config = h.config
  stats_eq : h'.stats = { h.stats with allocations := h.stats.allocations + 1 }

/-- The marks after a value was placed. -/
theorem markAt_place {h : Heap} (hu : ∀ i, markAt h.slots i = false) (i : Nat) (g : UInt32)
    (free : Option Nat) (v : Value) (j : Nat) : markAt (h.place i g free v).slots j = false := by
  rw [place, markAt_linkNext]
  have hj := hu j
  unfold markAt at hj ⊢
  rw [Array.getElem?_setIfInBounds]
  by_cases hij : i = j
  · rw [if_pos hij]
    by_cases hi : i < h.slots.size <;> simp [hi]
  · rw [if_neg hij]
    exact hj

/-- A value settled in a slot off the free list. -/
theorem Arranged.settle {h : Heap} {used free : List Nat} {i : Nat}
    (ha : Arranged h used (i :: free)) (hlive : h.live = used.length)
    (hu : ∀ i, markAt h.slots i = false) (hc : h.stats.freed + h.live = h.stats.allocations)
    (g : UInt32) (v : Value) :
    ∃ h', h.settle i g free.head? v = (.ok ⟨i, g⟩, h') ∧ Layout h' (used ++ [i]) free ∧
      Inserted h v ⟨i, g⟩ h' := by
  have hi : i < h.slots.size := ha.mem_iff.1 (by simp)
  have hlink : isSoundLink h.slots h.tail = true := ha.linked.isSoundLink fun j hj => by
    rw [ha.tail_eq] at hj
    exact List.mem_of_getLast? hj
  have hlen := ha.length_add
  simp only [List.length_cons] at hlen
  refine ⟨h.place i g free.head? v, ?_, ?_, ?_⟩
  · rw [Heap.settle, if_pos hlink]
  · refine ⟨ha.place hi g v, rfl, ?_, markAt_place hu i g _ v, ?_⟩
    · simp [Heap.place, hlive]
    · simp only [Heap.place]
      omega
  · refine ⟨?_, occupant_place h hi g _ v, ?_, rfl, rfl, rfl⟩
    · obtain ⟨g', c, hg⟩ := ha.unused [] i free rfl
      simp [occupant, hg]
    · simp only [Heap.place, size_linkNext, Array.size_setIfInBounds, hlive]
      omega

/-- One more slot at the end of a full arena. -/
theorem Arranged.grow {h : Heap} {used : List Nat} (ha : Arranged h used []) :
    Arranged { h with slots := h.slots.push (.free 0 none 0) } used [h.slots.size] := by
  have hnew : h.slots.size ∉ used := fun hi => by
    have := ha.mem_iff.1 (List.mem_append_left [] hi)
    omega
  refine ⟨ha.linked.congr fun i hi r hr => ⟨r, ?_, rfl, rfl⟩, fun before i after hsplit => ?_,
    ha.head_eq, ha.tail_eq, ?_, fun i hi => ?_⟩
  · have hlt : i < h.slots.size := (Array.getElem?_eq_some_iff.1 hr).1
    rw [Array.getElem?_push, if_neg (by omega)]
    exact hr
  · cases before with
    | nil =>
      obtain ⟨rfl, rfl⟩ := List.cons.inj hsplit
      exact ⟨0, 0, by simp⟩
    | cons k before => simp at hsplit
  · have hused : used.Nodup := by simpa using ha.nodup
    simpa using hused.append (List.nodup_singleton _) (by simpa using hnew)
  · simp only [Array.size_push] at hi
    rcases Nat.lt_succ_iff_lt_or_eq.1 hi with hi | rfl
    · exact List.mem_append_left _ (by simpa using ha.cover i hi)
    · simp

/-- Adding a free slot moves no one. -/
theorem occupant_push (slots : Array Slot) (j : Nat) :
    occupant (slots.push (.free 0 none 0)) j = occupant slots j := by
  unfold occupant
  rw [Array.getElem?_push]
  by_cases hj : j = slots.size
  · simp [hj]
  · rw [if_neg hj]

/-- Adding a free slot marks no one. -/
theorem markAt_push (slots : Array Slot) (j : Nat) :
    markAt (slots.push (.free 0 none 0)) j = markAt slots j := by
  unfold markAt
  rw [Array.getElem?_push]
  by_cases hj : j = slots.size
  · simp [hj]
  · rw [if_neg hj]

/-- **An insertion fails only on a full arena**: 2^32 slots, all of them in use.  Otherwise the value
is the newest on the allocation list. -/
theorem Layout.insert {h : Heap} {used free : List Nat} (hl : Layout h used free) (v : Value) :
    (∃ r h' free', h.insert v = (.ok r, h') ∧ Layout h' (used ++ [r.index]) free' ∧
      Inserted h v r h') ∨
    (h.insert v = (.error .allocFailed, h) ∧ maxSlots ≤ h.slots.size ∧ h.live = h.slots.size) := by
  unfold Heap.insert
  rw [hl.free_eq]
  cases free with
  | cons i free =>
    obtain ⟨g, c, hg⟩ := hl.unused [] i free rfl
    obtain ⟨h', he, hl', hi'⟩ := hl.toArranged.settle hl.live_eq hl.unmarked hl.counted g v
    refine Or.inl ⟨⟨i, g⟩, h', free, ?_, hl', hi'⟩
    simp only [List.head?_cons, hg]
    exact he
  | nil =>
    have hlen := hl.length_add
    simp only [List.length_nil] at hlen
    simp only [List.head?_nil]
    by_cases hsize : h.slots.size < maxSlots
    · rw [if_pos hsize]
      have hu : ∀ i, markAt (h.slots.push (.free 0 none 0)) i = false := fun i => by
        rw [markAt_push, hl.unmarked]
      obtain ⟨h', he, hl', hi'⟩ := hl.toArranged.grow.settle hl.live_eq hu hl.counted 0 v
      simp only [hl.free_eq, List.head?_nil] at he
      refine Or.inl ⟨⟨h.slots.size, 0⟩, h', [], he, hl', ?_, fun j => ?_, ?_, hi'.live_eq,
        hi'.config_eq, hi'.stats_eq⟩
      · have := hi'.vacant
        rwa [occupant_push] at this
      · rw [hi'.occupant_eq, occupant_push]
      · have hsz := hi'.size_eq
        have hlv := hi'.live_eq
        have := hl.live_eq
        simp only [Array.size_push] at hsz
        simp only at hlv
        omega
    · rw [if_neg hsize]
      exact Or.inr ⟨rfl, Nat.le_of_not_lt hsize, by have := hl.live_eq; omega⟩

section Inserted

variable {h h' : Heap} {v : Value} {r : Handle}

/-- The handle of a new value did not resolve before. -/
theorem Inserted.fresh (hi : Inserted h v r h') : h.get? r = none := by
  simp [get?_eq, hi.vacant]

/-- What resolves after an insertion. -/
theorem Inserted.get?_eq (hi : Inserted h v r h') (a : Handle) :
    h'.get? a = if a = r then some v else h.get? a := by
  rw [Heap.get?_eq, hi.occupant_eq]
  by_cases har : a = r
  · subst har
    simp
  · rw [if_neg har]
    by_cases hidx : r.index = a.index
    · -- the slot of the new value: its other handles resolve neither before nor after
      have hgen : r.generation ≠ a.generation := fun hg => har (by cases a; cases r; simp_all)
      rw [if_pos hidx, Heap.get?_eq, ← hidx, hi.vacant]
      simp [hgen]
    · rw [if_neg hidx, Heap.get?_eq]

end Inserted

/-! ## 3. Writes -/

/-- Who lives where after a write. -/
theorem occupant_modifyValue (h : Heap) (r : Handle) (f : Value → Value) (j : Nat) :
    occupant (h.modifyValue r f).slots j =
      (occupant h.slots j).map fun (g, v) =>
        if r = ⟨j, g⟩ then (g, f v) else (g, v) := by
  unfold occupant
  rw [modifyValue, getElem?_mapRecord]
  cases hs : h.slots[j]? with
  | none => simp
  | some s =>
    cases s with
    | free g n c => by_cases hj : r.index = j <;> simp [hj, Slot.mapRecord]
    | live record =>
      by_cases hj : r.index = j
      · subst hj
        by_cases hg : record.generation = r.generation
        · have hr : r = ⟨r.index, record.generation⟩ := by cases r; simp_all
          rw [if_pos rfl, Option.map_some, Slot.mapRecord, if_pos hg]
          simp [← hr]
        · have hr : r ≠ ⟨r.index, record.generation⟩ := fun he => hg (by rw [he])
          rw [if_pos rfl, Option.map_some, Slot.mapRecord, if_neg hg]
          simp [hr]
      · have hr : r ≠ ⟨j, record.generation⟩ := fun he => hj (by rw [he])
        simp [hj, hr]

/-- What resolves after a write: the same handles, one of them to another value. -/
theorem get?_modifyValue (h : Heap) (r : Handle) (f : Value → Value) (a : Handle) :
    (h.modifyValue r f).get? a = if a = r then (h.get? a).map f else h.get? a := by
  rw [get?_eq, get?_eq, occupant_modifyValue]
  cases ho : occupant h.slots a.index with
  | none => simp
  | some gv =>
    obtain ⟨g, v⟩ := gv
    by_cases hg : g = a.generation
    · subst hg
      by_cases har : r = a
      · simp [har]
      · simp [har, Ne.symm har]
    · have hnone : ∀ w : Value, (if g = a.generation then some w else none) = none :=
        fun w => if_neg hg
      by_cases hr : r = ⟨a.index, g⟩
      · simp [hr, hnone]
      · simp [hr, hnone]

/-- A write leaves the lists alone. -/
theorem Arranged.write {h : Heap} {used free : List Nat} (ha : Arranged h used free) (r : Handle)
    (f : Value → Value) : Arranged (h.modifyValue r f) used free := by
  refine ⟨ha.linked.congr fun i _ record hr => ?_, fun before i after hsplit => ?_, ha.head_eq,
    ha.tail_eq, ha.nodup, fun i hi => ha.cover i (by simpa [modifyValue] using hi)⟩
  · rw [modifyValue, getElem?_mapRecord, hr]
    by_cases hi : r.index = i
    · by_cases hg : record.generation = r.generation
      · exact ⟨{ record with value := f record.value }, by simp [hi, hg, Slot.mapRecord], rfl, rfl⟩
      · exact ⟨record, by simp [hi, hg, Slot.mapRecord], rfl, rfl⟩
    · exact ⟨record, by simp [hi], rfl, rfl⟩
  · obtain ⟨g, c, hg⟩ := ha.unused before i after hsplit
    refine ⟨g, c, ?_⟩
    rw [modifyValue, getElem?_mapRecord, hg]
    by_cases hi : r.index = i <;> simp [hi, Slot.mapRecord]

/-- A write changes no mark. -/
theorem markAt_modifyValue (h : Heap) (r : Handle) (f : Value → Value) (i : Nat) :
    markAt (h.modifyValue r f).slots i = markAt h.slots i := by
  have hs := getElem?_mapRecord h.slots r.index i fun record =>
    if record.generation = r.generation then { record with value := f record.value } else record
  split at hs
  · exact markAt_mapRecord hs fun record => by split <;> rfl
  · unfold markAt
    rw [modifyValue, hs]

/-- A write leaves the lists and the counters alone. -/
theorem Layout.write {h : Heap} {used free : List Nat} (hl : Layout h used free) (r : Handle)
    (f : Value → Value) : Layout (h.modifyValue r f) used free :=
  ⟨hl.toArranged.write r f, hl.free_eq, hl.live_eq,
    fun i => (markAt_modifyValue h r f i).trans (hl.unmarked i), hl.counted⟩

/-- Turning automatic collection on or off leaves the lists and the counters alone. -/
theorem Layout.setEnabled {h : Heap} {used free : List Nat} (hl : Layout h used free)
    (enabled : Bool) : Layout (h.setEnabled enabled) used free :=
  ⟨⟨hl.linked, hl.unused, hl.head_eq, hl.tail_eq, hl.nodup, hl.cover⟩, hl.free_eq, hl.live_eq,
    hl.unmarked, hl.counted⟩

/-! ## 4. Collection -/

/-- What a collection that frees `n` records makes of a heap with the allocation list `used`. -/
structure Collected (h : Heap) (used : List Nat) (roots : List Handle) (n : Nat) (h' : Heap) :
    Prop where
  layout : ∃ free', Layout h' (used.filter (markAt (markFrom h.slots roots))) free'
  get?_iff : ∀ r v, h'.get? r = some v ↔ h.get? r = some v ∧ Reach h.get? roots r
  occupant_eq : ∀ i, markAt (markFrom h.slots roots) i = true →
    occupant h'.slots i = occupant h.slots i
  size_eq : h'.slots.size = h.slots.size
  freed_eq : n = (used.filter fun i => !markAt (markFrom h.slots roots) i).length
  live_eq : n + h'.live = h.live
  config_eq : h'.config = h.config
  stats_eq : h'.stats = ⟨h.stats.allocations, h.stats.collections + 1, h.stats.freed + n⟩

/-- A sweep of the whole allocation list. -/
theorem Arranged.sweep {h : Heap} {used free : List Nat} (ha : Arranged h used free)
    (hf : h.free = free.head?) :
    ∃ h', h.sweep? = some ((used.filter fun i => !markAt h.slots i).length,
        { h' with
          live := h'.live - (used.filter fun i => !markAt h.slots i).length
          stats := { h'.stats with
            freed := h'.stats.freed + (used.filter fun i => !markAt h.slots i).length } }) ∧
      Swept h [] used free h' := by
  have hn : used.length ≤ h.slots.size := by
    have := ha.length_add
    omega
  have ha' : Arranged h ([] ++ used) free := ha
  obtain ⟨h', he, hs⟩ := ha'.sweepFrom 0 hf hn
  rw [← ha.head_eq, Nat.zero_add] at he
  exact ⟨h', by rw [sweep?, he]; rfl, hs⟩

/-- **A collection always has a result, and keeps exactly what can be reached.** -/
theorem Layout.collect {h : Heap} {used free : List Nat} (hl : Layout h used free)
    (roots : List Handle) : ∃ n h', h.collect? roots = some (n, h') ∧ Collected h used roots n h' := by
  -- the heap that is swept: one more collection is counted, and marks are set
  let marked : Heap := { h with
    slots := markFrom h.slots roots
    stats := { h.stats with collections := h.stats.collections + 1 } }
  have hm : MarksOnly h.slots (markFrom h.slots roots) := marksOnly_markFrom h.slots roots
  have ha : Arranged marked used free := hl.toArranged.of_marksOnly hm rfl rfl
  obtain ⟨h', he, hs⟩ := ha.sweep hl.free_eq
  have hlen := List.length_eq_length_filter_add (l := used) (markAt (markFrom h.slots roots))
  have hlive : h'.live = used.length := hs.live_eq.trans hl.live_eq
  have hstats : h'.stats = { h.stats with collections := h.stats.collections + 1 } := hs.stats_eq
  have hcount := hl.counted
  have hlive' := hl.live_eq
  refine ⟨_, _, he, ⟨_, ⟨hs.arranged.linked, hs.arranged.unused, hs.arranged.head_eq,
    hs.arranged.tail_eq, hs.arranged.nodup, hs.arranged.cover⟩, hs.free_eq, ?_, fun i => ?_, ?_⟩,
    fun r v => ?_, fun i hi => ?_, ?_, rfl, ?_, hs.config_eq, ?_⟩
  · simp only [marked, hlive]
    omega
  · rw [hs.markAt_eq]
    split
    · rfl
    · next hi =>
      rw [ha.mem_used_iff] at hi
      exact markAt_of_vacant (by simpa using hi)
  · simp only [marked, hlive, hstats]
    omega
  · -- a handle resolves afterwards if its slot was marked
    have hget : ∀ w, h'.get? r = some w ↔ h.get? r = some w ∧
        markAt (markFrom h.slots roots) r.index = true := by
      intro w
      have hocc := hs.occupant_eq r.index
      rw [hm.occupant_eq] at hocc
      by_cases hmark : markAt (markFrom h.slots roots) r.index = true
      · have hkeep : occupant h'.slots r.index = occupant h.slots r.index := by
          rw [hocc, if_neg (by simp [marked, hmark])]
        rw [get?_congr hkeep]
        simp [hmark]
      · have hgone : occupant h'.slots r.index = none := by
          rw [hocc]
          split
          · rfl
          · next hused =>
            rw [ha.mem_used_iff] at hused
            simpa [marked, hmark, hm.occupant_eq] using hused
        simp [get?_eq, hgone, hmark]
    show h'.get? r = some v ↔ _
    rw [hget]
    constructor
    · rintro ⟨hv, hmark⟩
      exact ⟨hv, (reach_iff_markAt hl.unmarked roots hv).2 hmark⟩
    · rintro ⟨hv, hreach⟩
      exact ⟨hv, (reach_iff_markAt hl.unmarked roots hv).1 hreach⟩
  · show occupant h'.slots i = _
    rw [hs.occupant_eq, if_neg (by simp [marked, hi]), hm.occupant_eq]
  · exact hs.size_eq.trans hm.size_eq
  · simp only [marked, hlive]
    omega
  · simp [marked, hstats]

/-! ## 5. The records in order -/

/-- The live handles with their values, oldest first. -/
def listing (h : Heap) : List (Handle × Value) := h.entries.map fun (r, record) => (r, record.value)

/-- The handle and the value of a slot in use. -/
def entryAt (slots : Array Slot) (i : Nat) : Option (Handle × Value) :=
  (occupant slots i).map fun (g, v) => (⟨i, g⟩, v)

/-- A walk along the allocation list meets its slots in order. -/
theorem Linked.entriesFrom {h : Heap} {before after : List Nat} {n : Nat}
    (hl : Linked h.slots (before ++ after)) (hn : after.length ≤ n) :
    (h.entriesFrom n after.head?).map (fun (r, record) => (r, record.value)) =
      after.filterMap (entryAt h.slots) := by
  induction after generalizing before n with
  | nil => cases n <;> simp [Heap.entriesFrom]
  | cons i after ih =>
    obtain ⟨n, rfl⟩ : ∃ k, n = k + 1 := ⟨n - 1, by simp at hn; omega⟩
    obtain ⟨r, hr, -, hnext⟩ := hl before i after rfl
    have hl' : Linked h.slots ((before ++ [i]) ++ after) := by simpa using hl
    have hi : entryAt h.slots i = some (⟨i, r.generation⟩, r.value) := by
      simp [entryAt, occupant, hr]
    simp only [List.head?_cons, Heap.entriesFrom, hr, hnext, List.map_cons]
    rw [ih hl' (by simpa using hn), List.filterMap_cons_some hi]

/-- The listing of an arranged heap. -/
theorem Arranged.listing_eq {h : Heap} {used free : List Nat} (ha : Arranged h used free) :
    h.listing = used.filterMap (entryAt h.slots) := by
  have hl : Linked h.slots ([] ++ used) := ha.linked
  have hn : used.length ≤ h.slots.size := by
    have := ha.length_add
    omega
  rw [listing, entries, ha.head_eq, hl.entriesFrom hn]

/-- Each slot in use has one entry. -/
theorem Arranged.entryAt_of_mem {h : Heap} {used free : List Nat} (ha : Arranged h used free)
    {i : Nat} (hi : i ∈ used) : ∃ g v, entryAt h.slots i = some (⟨i, g⟩, v) := by
  obtain ⟨⟨g, v⟩, hgv⟩ := Option.isSome_iff_exists.1 (ha.mem_used_iff.1 hi)
  exact ⟨g, v, by simp [entryAt, hgv]⟩

/-- The slots of the listing are the allocation list. -/
theorem Arranged.map_index_listing {h : Heap} {used free : List Nat} (ha : Arranged h used free) :
    h.listing.map (fun e => e.1.index) = used := by
  rw [ha.listing_eq, List.map_filterMap]
  have hid : ∀ i ∈ used, (entryAt h.slots i).map (fun e => e.1.index) = some i := by
    intro i hi
    obtain ⟨g, v, hgv⟩ := ha.entryAt_of_mem hi
    simp [hgv]
  rw [List.filterMap_congr hid, List.filterMap_some]

/-- The listing is as long as the allocation list. -/
theorem Arranged.length_listing {h : Heap} {used free : List Nat} (ha : Arranged h used free) :
    h.listing.length = used.length := by
  rw [← congrArg List.length ha.map_index_listing, List.length_map]

/-- No handle is listed twice. -/
theorem Arranged.nodup_listing {h : Heap} {used free : List Nat} (ha : Arranged h used free) :
    (h.listing.map Prod.fst).Nodup := by
  have hused : used.Nodup := (List.nodup_append.1 ha.nodup).1
  rw [← ha.map_index_listing] at hused
  refine List.Nodup.of_map Handle.index ?_
  rwa [List.map_map]

/-- The listing holds exactly the handles that resolve, with their values. -/
theorem Arranged.mem_listing_iff {h : Heap} {used free : List Nat} (ha : Arranged h used free)
    (r : Handle) (v : Value) : (r, v) ∈ h.listing ↔ h.get? r = some v := by
  rw [ha.listing_eq, List.mem_filterMap, get?_eq]
  constructor
  · rintro ⟨i, -, he⟩
    simp only [entryAt, Option.map_eq_some_iff, Prod.mk.injEq, Prod.exists] at he
    obtain ⟨g, w, ho, rfl, rfl⟩ := he
    simp [ho]
  · intro hv
    simp only [Option.bind_eq_some_iff, Prod.exists, Option.ite_none_right_eq_some,
      Option.some.injEq] at hv
    obtain ⟨g, w, ho, rfl, rfl⟩ := hv
    refine ⟨r.index, ha.mem_used_iff.2 (by simp [ho]), ?_⟩
    simp [entryAt, ho]

/-- There are no more handles that resolve than live values. -/
theorem Layout.length_le_live {h : Heap} {used free : List Nat} (hl : Layout h used free)
    {rs : List Handle} (hn : rs.Nodup) (hr : ∀ r ∈ rs, ∃ v, h.get? r = some v) :
    rs.length ≤ h.live := by
  have hsub : rs ⊆ h.listing.map Prod.fst := by
    intro r hmem
    obtain ⟨v, hv⟩ := hr r hmem
    exact List.mem_map.2 ⟨(r, v), (hl.mem_listing_iff r v).2 hv, rfl⟩
  have hlen := (hn.subperm hsub).length_le
  rwa [List.length_map, hl.length_listing, ← hl.live_eq] at hlen

end ScriptMachine.Heap
