/-
# The two lists in the arena

The slots of a heap carry two lists that are threaded through the slots themselves: the allocation
list, linked both ways through the records in use, and the free list, linked one way through the
free slots.  `Arranged h used free` says that these are the lists `used` and `free` of slot indices,
and that each slot is on exactly one of them.

Links are described by position and not by recursion: whenever the allocation list splits as
`before ++ i :: after`, the record at `i` points back to the end of `before` and on to the start of
`after`.  With that reading a record can be taken out of the middle, or put at the end, without
walking there.

* `Arranged.place`: a value placed in a free slot is the new end of the allocation list;
* `Arranged.release`: a record that is released leaves the allocation list and heads the free list;
* `Arranged.sweepFrom`: a sweep meets no broken link, and what it leaves is arranged again;
* `occupant_*`: who lives in a slot after each operation.
-/
import Mathlib.Data.List.Nodup
import Mathlib.Data.List.Perm.Subperm
import ScriptMachine.Heap.Collect

namespace ScriptMachine.Heap

open scoped List

/-! ## 1. Who lives in a slot -/

/-- The generation and the value in a slot in use. -/
def occupant (slots : Array Slot) (i : Nat) : Option (UInt32 × Value) :=
  match slots[i]? with
  | some (.live r) => some (r.generation, r.value)
  | some (.free _ _ _) | none => none

/-- Whether a slot is in use and marked. -/
def markAt (slots : Array Slot) (i : Nat) : Bool :=
  match slots[i]? with
  | some (.live r) => r.marked
  | some (.free _ _ _) | none => false

/-- A handle resolves to the occupant of its slot, if the generations agree. -/
theorem get?_eq (h : Heap) (r : Handle) :
    h.get? r = (occupant h.slots r.index).bind fun (g, v) =>
      if g = r.generation then some v else none := by
  unfold get? record? occupant
  cases h.slots[r.index]? with
  | none => rfl
  | some slot =>
    cases slot with
    | free g n c => rfl
    | live record =>
      simp only [Option.bind_some]
      split <;> rfl

/-- Who lives in a slot decides what resolves. -/
theorem get?_congr {h h' : Heap} {r : Handle}
    (ho : occupant h'.slots r.index = occupant h.slots r.index) : h'.get? r = h.get? r := by
  rw [get?_eq, get?_eq, ho]

/-- A handle resolves exactly when it has a value. -/
theorem contains_eq (h : Heap) (r : Handle) : h.contains r = (h.get? r).isSome := by
  simp [contains, get?]

section Links

variable (slots : Array Slot) (i j : Nat) (link target : Option Nat)

/-- Slots after a change of one record. -/
theorem getElem?_mapRecord (f : Record → Record) :
    (slots.modify i (Slot.mapRecord f))[j]? =
      if i = j then slots[j]?.map (Slot.mapRecord f) else slots[j]? :=
  Array.getElem?_modify

/-- A new successor changes one slot at most. -/
theorem getElem?_linkNext :
    (linkNext slots link target)[j]? =
      if link = some j then slots[j]?.map (Slot.mapRecord fun r => { r with next := target })
      else slots[j]? := by
  cases link with
  | none => simp [linkNext]
  | some i => simp [linkNext, getElem?_mapRecord]

/-- A new predecessor changes one slot at most. -/
theorem getElem?_linkPrev :
    (linkPrev slots link target)[j]? =
      if link = some j then slots[j]?.map (Slot.mapRecord fun r => { r with prev := target })
      else slots[j]? := by
  cases link with
  | none => simp [linkPrev]
  | some i => simp [linkPrev, getElem?_mapRecord]

/-- Changing a record in ways other than its value and generation changes no occupant. -/
theorem occupant_mapRecord {slots slots' : Array Slot} {f : Record → Record} {j : Nat}
    (hs : slots'[j]? = slots[j]?.map (Slot.mapRecord f))
    (hf : ∀ r, (f r).generation = r.generation ∧ (f r).value = r.value) :
    occupant slots' j = occupant slots j := by
  unfold occupant
  rw [hs]
  cases slots[j]? with
  | none => rfl
  | some s =>
    cases s with
    | live r => simp [Slot.mapRecord, hf r]
    | free g n c => rfl

@[simp] theorem occupant_linkNext : occupant (linkNext slots link target) j = occupant slots j := by
  have hs := getElem?_linkNext slots j link target
  split at hs
  · exact occupant_mapRecord hs fun _ => ⟨rfl, rfl⟩
  · unfold occupant
    rw [hs]

@[simp] theorem occupant_linkPrev : occupant (linkPrev slots link target) j = occupant slots j := by
  have hs := getElem?_linkPrev slots j link target
  split at hs
  · exact occupant_mapRecord hs fun _ => ⟨rfl, rfl⟩
  · unfold occupant
    rw [hs]

@[simp] theorem size_linkNext : (linkNext slots link target).size = slots.size := by
  cases link <;> simp [linkNext]

@[simp] theorem size_linkPrev : (linkPrev slots link target).size = slots.size := by
  cases link <;> simp [linkPrev]

end Links

/-! ## 2. The lists -/

/-- `used` lists slots in use, linked both ways in this order. -/
def Linked (slots : Array Slot) (used : List Nat) : Prop :=
  ∀ before i after, used = before ++ i :: after →
    ∃ r, slots[i]? = some (.live r) ∧ r.prev = before.getLast? ∧ r.next = after.head?

/-- `free` lists free slots, linked one way in this order. -/
def Unused (slots : Array Slot) (free : List Nat) : Prop :=
  ∀ before i after, free = before ++ i :: after →
    ∃ g c, slots[i]? = some (.free g after.head? c)

/-- The allocation list is `used`, the slots on neither end of it are `free`, and each slot is on
exactly one of the two.  Where the free list begins is left open: an insertion takes its slot off
that list before it places the value. -/
structure Arranged (h : Heap) (used free : List Nat) : Prop where
  linked : Linked h.slots used
  unused : Unused h.slots free
  head_eq : h.head = used.head?
  tail_eq : h.tail = used.getLast?
  nodup : (used ++ free).Nodup
  cover : ∀ i, i < h.slots.size → i ∈ used ++ free

/-- What stands in the middle of a list without repetitions stands nowhere else. -/
theorem not_mem_of_split {before after : List Nat} {i : Nat}
    (hn : (before ++ i :: after).Nodup) : i ∉ before ∧ i ∉ after := by
  have h := (List.nodup_cons.1 (List.nodup_middle.1 hn)).1
  rw [List.mem_append] at h
  exact ⟨fun hb => h (Or.inl hb), fun ha => h (Or.inr ha)⟩

/-- Every slot on the allocation list is in use. -/
theorem Linked.record {slots : Array Slot} {used : List Nat} (hl : Linked slots used) {i : Nat}
    (hi : i ∈ used) : ∃ r, slots[i]? = some (.live r) := by
  obtain ⟨before, after, rfl⟩ := List.append_of_mem hi
  obtain ⟨r, hr, -, -⟩ := hl before i after rfl
  exact ⟨r, hr⟩

/-- Links to slots on the allocation list are sound. -/
theorem Linked.isSoundLink {slots : Array Slot} {used : List Nat} (hl : Linked slots used)
    {link : Option Nat} (hlink : ∀ i, link = some i → i ∈ used) :
    isSoundLink slots link = true := by
  cases link with
  | none => rfl
  | some i =>
    obtain ⟨r, hr⟩ := hl.record (hlink i rfl)
    simp [Heap.isSoundLink, hr]

/-- Links only depend on the links of the slots on the list. -/
theorem Linked.congr {slots slots' : Array Slot} {used : List Nat} (hl : Linked slots used)
    (hs : ∀ i ∈ used, ∀ r, slots[i]? = some (.live r) →
      ∃ r', slots'[i]? = some (.live r') ∧ r'.prev = r.prev ∧ r'.next = r.next) :
    Linked slots' used := by
  intro before i after hsplit
  obtain ⟨r, hr, hp, hn⟩ := hl before i after hsplit
  obtain ⟨r', hr', hp', hn'⟩ := hs i (by simp [hsplit]) r hr
  exact ⟨r', hr', hp'.trans hp, hn'.trans hn⟩

/-- The free list only depends on the slots on it. -/
theorem Unused.congr {slots slots' : Array Slot} {free : List Nat} (hu : Unused slots free)
    (hs : ∀ i ∈ free, slots'[i]? = slots[i]?) : Unused slots' free := by
  intro before i after hsplit
  obtain ⟨g, c, hg⟩ := hu before i after hsplit
  exact ⟨g, c, (hs i (by simp [hsplit])).trans hg⟩

/-- A free slot put in front of the free list. -/
theorem Unused.cons {slots : Array Slot} {free : List Nat} {i : Nat} {g : UInt32} {c : Nat}
    (hu : Unused slots free) (hi : slots[i]? = some (.free g free.head? c)) :
    Unused slots (i :: free) := by
  intro before j after hsplit
  cases before with
  | nil =>
    obtain ⟨rfl, rfl⟩ := List.cons.inj hsplit
    exact ⟨g, c, hi⟩
  | cons k before => exact hu before j after (List.cons.inj hsplit).2

/-- The rest of a free list is a free list. -/
theorem Unused.tail {slots : Array Slot} {free : List Nat} {i : Nat}
    (hu : Unused slots (i :: free)) : Unused slots free := by
  intro before j after hsplit
  exact hu (i :: before) j after (by rw [hsplit]; rfl)

/-! ## 3. Placing a value -/

/-- A record placed in a slot that is not on the list becomes its new end. -/
theorem Linked.append {slots : Array Slot} {used : List Nat} {i : Nat} (hl : Linked slots used)
    (hn : used.Nodup) (hi : i ∉ used) (hsize : i < slots.size) (g : UInt32) (v : Value) :
    Linked (linkNext (slots.setIfInBounds i (.live ⟨v, g, false, used.getLast?, none⟩))
      used.getLast? (some i)) (used ++ [i]) := by
  intro before j after hsplit
  rcases List.eq_nil_or_concat after with rfl | ⟨after, k, rfl⟩
  · -- the new record itself
    obtain ⟨rfl, hj⟩ := List.append_inj' hsplit rfl
    obtain rfl : i = j := by simpa using hj
    have hne : used.getLast? ≠ some i := fun h => hi (List.mem_of_getLast? h)
    refine ⟨⟨v, g, false, used.getLast?, none⟩, ?_, rfl, rfl⟩
    rw [getElem?_linkNext, if_neg hne, Array.getElem?_setIfInBounds, if_pos rfl, if_pos hsize]
  · -- a record that was on the list before
    have hcat : used ++ [i] = (before ++ j :: after) ++ [k] := by simpa using hsplit
    obtain ⟨rfl, hk⟩ := List.append_inj' hcat rfl
    obtain rfl : i = k := by simpa using hk
    obtain ⟨r, hr, hp, hnext⟩ := hl before j after rfl
    have hij : i ≠ j := by
      rintro rfl
      exact hi (by simp)
    rw [getElem?_linkNext, Array.getElem?_setIfInBounds, if_neg hij, hr]
    cases after with
    | nil =>
      -- the old end now points to the new record
      rw [if_pos (by simp)]
      exact ⟨{ r with next := some i }, rfl, hp, rfl⟩
    | cons a after =>
      have hlast : (before ++ j :: a :: after).getLast? ≠ some j := by
        intro h
        have hmem : j ∈ a :: after := by
          have h' : (a :: after).getLast? = some j := by simpa [List.getLast?_append] using h
          exact List.mem_of_getLast? h'
        exact (not_mem_of_split hn).2 hmem
      rw [if_neg hlast]
      exact ⟨r, rfl, hp, hnext⟩

/-- Who lives where after a value was placed. -/
theorem occupant_place (h : Heap) {i : Nat} (hi : i < h.slots.size) (g : UInt32)
    (free : Option Nat) (v : Value) (j : Nat) :
    occupant (h.place i g free v).slots j = if i = j then some (g, v) else occupant h.slots j := by
  rw [place, occupant_linkNext]
  unfold occupant
  rw [Array.getElem?_setIfInBounds]
  by_cases hij : i = j
  · rw [if_pos hij, if_pos hi, if_pos hij]
  · rw [if_neg hij, if_neg hij]

/-- A value placed in a free slot is the new end of the allocation list. -/
theorem Arranged.place {h : Heap} {used free : List Nat} {i : Nat}
    (ha : Arranged h used (i :: free)) (hi : i < h.slots.size) (g : UInt32) (v : Value) :
    Arranged (h.place i g free.head? v) (used ++ [i]) free := by
  have hmid := List.nodup_cons.1 (List.nodup_middle.1 ha.nodup)
  have hiused : i ∉ used := (not_mem_of_split ha.nodup).1
  have hifree : i ∉ free := (not_mem_of_split ha.nodup).2
  refine ⟨?_, ?_, ?_, ?_, ?_, ?_⟩
  · rw [Heap.place, ha.tail_eq]
    exact ha.linked.append (List.nodup_append.1 ha.nodup).1 hiused hi g v
  · refine ha.unused.tail.congr fun j hj => ?_
    have hij : i ≠ j := fun h => hifree (h ▸ hj)
    have htail : h.tail ≠ some j := by
      rw [ha.tail_eq]
      intro hlast
      exact (List.nodup_append.1 ha.nodup).2.2 j (List.mem_of_getLast? hlast) j
        (List.mem_cons_of_mem _ hj) rfl
    rw [Heap.place, getElem?_linkNext, if_neg htail, Array.getElem?_setIfInBounds, if_neg hij]
  · rw [Heap.place, ha.tail_eq, ha.head_eq]
    cases used <;> simp
  · simp [Heap.place]
  · rw [List.append_assoc]
    exact List.nodup_middle.2 (List.nodup_cons.2 hmid)
  · intro j hj
    have hj' : j < h.slots.size := by simpa [Heap.place] using hj
    have hmem := ha.cover j hj'
    simp only [List.mem_append, List.mem_cons] at hmem ⊢
    tauto

/-! ## 4. Releasing a record -/

/-- A record taken out of the middle of the allocation list: its neighbours are linked to each
other. -/
theorem Linked.remove {slots : Array Slot} {before after : List Nat} {i : Nat} {r : Record}
    (hl : Linked slots (before ++ i :: after)) (hn : (before ++ i :: after).Nodup)
    (hp : r.prev = before.getLast?) (hnext : r.next = after.head?) (s : Slot) :
    Linked ((linkPrev (linkNext slots r.prev r.next) r.next r.prev).setIfInBounds i s)
      (before ++ after) := by
  intro a j b hsplit
  have hij : i ≠ j := by
    rintro rfl
    have hmem : i ∈ before ++ after := by simp [hsplit]
    exact (List.nodup_cons.1 (List.nodup_middle.1 hn)).1 hmem
  rw [Array.getElem?_setIfInBounds, if_neg hij, getElem?_linkPrev, getElem?_linkNext]
  -- the record is behind the one that goes, or in front of it
  rcases List.append_eq_append_iff.1 hsplit with ⟨c, rfl, rfl⟩ | ⟨c, rfl, hc⟩
  · have hn' : ((before ++ i :: c) ++ j :: b).Nodup := by simpa using hn
    obtain ⟨hjfront, -⟩ := not_mem_of_split hn'
    have hjprev : r.prev ≠ some j := by
      rw [hp]
      intro h
      exact hjfront (List.mem_append_left _ (List.mem_of_getLast? h))
    obtain ⟨r', hr', hp', hnext'⟩ := hl (before ++ i :: c) j b (by simp)
    rw [if_neg hjprev, hr']
    cases c with
    | nil =>
      rw [if_pos (by simp [hnext])]
      exact ⟨{ r' with prev := r.prev }, rfl, by simpa using hp, hnext'⟩
    | cons x c =>
      have hxj : x ≠ j := fun h => hjfront (by simp [h])
      rw [if_neg (by simpa [hnext] using hxj)]
      exact ⟨r', rfl, by simpa [List.getLast?_append] using hp', hnext'⟩
  · cases c with
    | nil =>
      -- the record follows the one that goes, and the split is at the seam
      obtain rfl : j :: b = after := by simpa using hc
      obtain ⟨r', hr', -, hn'⟩ := hl (a ++ [i]) j b (by simp)
      have hsplit' : ((a ++ [i]) ++ j :: b).Nodup := by simpa using hn
      have hjprev : r.prev ≠ some j := by
        rw [hp]
        intro h
        have hja : j ∈ a := by simpa using List.mem_of_getLast? h
        exact (not_mem_of_split hsplit').1 (List.mem_append_left _ hja)
      rw [if_neg hjprev, hr', if_pos (by simp [hnext])]
      exact ⟨{ r' with prev := r.prev }, rfl, by simpa using hp, hn'⟩
    | cons x c =>
      obtain ⟨rfl, rfl⟩ := List.cons.inj hc
      have hn' : (a ++ j :: (c ++ i :: after)).Nodup := by simpa using hn
      obtain ⟨-, hjback⟩ := not_mem_of_split hn'
      have hjnext : r.next ≠ some j := by
        rw [hnext]
        intro h
        exact hjback (by simp [List.mem_of_head? h])
      obtain ⟨r', hr', hp', hn'⟩ := hl a j (c ++ i :: after) (by simp)
      rw [if_neg hjnext, hr']
      cases c with
      | nil =>
        rw [if_pos (by simp [hp])]
        exact ⟨{ r' with next := r.next }, rfl, hp', by simpa using hnext⟩
      | cons y c =>
        have hlast : r.prev ≠ some j := by
          rw [hp]
          intro h
          have hmem : (y :: c).getLast? = some j := by simpa [List.getLast?_append] using h
          exact hjback (List.mem_append_left _ (List.mem_of_getLast? hmem))
        rw [if_neg hlast]
        exact ⟨r', rfl, hp', by simpa using hn'⟩

/-- No one lives in a slot that was made free. -/
theorem occupant_setFree (slots : Array Slot) (i j : Nat) (g : UInt32) (n : Option Nat) (c : Nat) :
    occupant (slots.setIfInBounds i (.free g n c)) j = if i = j then none else occupant slots j := by
  unfold occupant
  rw [Array.getElem?_setIfInBounds]
  by_cases hij : i = j
  · rw [if_pos hij, if_pos hij]
    by_cases hi : i < slots.size <;> simp [hi]
  · rw [if_neg hij, if_neg hij]

/-- Who lives where after a release. -/
theorem occupant_release (h : Heap) (i : Nat) (r : Record) (j : Nat) :
    occupant (h.release i r).slots j = if i = j then none else occupant h.slots j := by
  rw [release, occupant_setFree, occupant_linkPrev, occupant_linkNext]

/-- Changing a record in ways other than its mark changes no mark. -/
theorem markAt_mapRecord {slots slots' : Array Slot} {f : Record → Record} {j : Nat}
    (hs : slots'[j]? = slots[j]?.map (Slot.mapRecord f)) (hf : ∀ r, (f r).marked = r.marked) :
    markAt slots' j = markAt slots j := by
  unfold markAt
  rw [hs]
  cases slots[j]? with
  | none => rfl
  | some s =>
    cases s with
    | live r => exact hf r
    | free g n c => rfl

@[simp] theorem markAt_linkNext (slots : Array Slot) (j : Nat) (link target : Option Nat) :
    markAt (linkNext slots link target) j = markAt slots j := by
  have hs := getElem?_linkNext slots j link target
  split at hs
  · exact markAt_mapRecord hs fun _ => rfl
  · unfold markAt
    rw [hs]

@[simp] theorem markAt_linkPrev (slots : Array Slot) (j : Nat) (link target : Option Nat) :
    markAt (linkPrev slots link target) j = markAt slots j := by
  have hs := getElem?_linkPrev slots j link target
  split at hs
  · exact markAt_mapRecord hs fun _ => rfl
  · unfold markAt
    rw [hs]

/-- A slot that was made free has no mark. -/
theorem markAt_setFree (slots : Array Slot) (i j : Nat) (g : UInt32) (n : Option Nat) (c : Nat) :
    markAt (slots.setIfInBounds i (.free g n c)) j = if i = j then false else markAt slots j := by
  unfold markAt
  rw [Array.getElem?_setIfInBounds]
  by_cases hij : i = j
  · rw [if_pos hij, if_pos hij]
    by_cases hi : i < slots.size <;> simp [hi]
  · rw [if_neg hij, if_neg hij]

/-- The marks after a release. -/
theorem markAt_release (h : Heap) (i : Nat) (r : Record) (j : Nat) :
    markAt (h.release i r).slots j = if i = j then false else markAt h.slots j := by
  rw [release, markAt_setFree, markAt_linkPrev, markAt_linkNext]

/-- A record that is released leaves the allocation list and heads the free list. -/
theorem Arranged.release {h : Heap} {before after free : List Nat} {i : Nat} {r : Record}
    (ha : Arranged h (before ++ i :: after) free) (hf : h.free = free.head?)
    (hr : h.slots[i]? = some (.live r)) :
    Arranged (h.release i r) (before ++ after) (i :: free) := by
  obtain ⟨r', hr', hp, hnext⟩ := ha.linked before i after rfl
  obtain rfl : r' = r := by simpa [hr] using hr'.symm
  have hused : (before ++ i :: after).Nodup := (List.nodup_append.1 ha.nodup).1
  have hi : i < h.slots.size := (Array.getElem?_eq_some_iff.1 hr).1
  have hdisj := (List.nodup_append.1 ha.nodup).2.2
  refine ⟨?_, ?_, ?_, ?_, ?_, ?_⟩
  · exact ha.linked.remove hused hp hnext _
  · have hslot : (h.release i r').slots[i]? = some (.free (r'.generation + 1) free.head?
        h.stats.collections) := by
      simp [Heap.release, hi, hf]
    refine (ha.unused.congr fun j hj => ?_).cons hslot
    -- the free slots keep their links: neither the record nor its neighbours are among them
    have hij : i ≠ j := by
      rintro rfl
      exact hdisj i (by simp) i hj rfl
    have hjprev : r'.prev ≠ some j := by
      rw [hp]
      intro h
      exact hdisj j (List.mem_append_left _ (List.mem_of_getLast? h)) j hj rfl
    have hjnext : r'.next ≠ some j := by
      rw [hnext]
      intro h
      exact hdisj j (by simp [List.mem_of_head? h]) j hj rfl
    rw [Heap.release, Array.getElem?_setIfInBounds, if_neg hij, getElem?_linkPrev, if_neg hjnext,
      getElem?_linkNext, if_neg hjprev]
  · rw [Heap.release, hp, hnext, ha.head_eq]
    cases before <;> simp
  · rw [Heap.release, hp, hnext, ha.tail_eq]
    rcases List.eq_nil_or_concat after with rfl | ⟨after, k, rfl⟩
    · simp
    · cases after <;> simp [List.getLast?_append]
  · have hperm : (before ++ i :: after ++ free).Perm (before ++ after ++ i :: free) := by
      calc before ++ i :: after ++ free
          = before ++ i :: (after ++ free) := by simp
        _ ~ i :: (before ++ (after ++ free)) := List.perm_middle
        _ = i :: (before ++ after ++ free) := by simp
        _ ~ before ++ after ++ i :: free := List.perm_middle.symm
    exact hperm.nodup ha.nodup
  · intro j hj
    have hj' : j < h.slots.size := by simpa [Heap.release] using hj
    have hmem := ha.cover j hj'
    simp only [List.mem_append, List.mem_cons] at hmem ⊢
    tauto

/-! ## 5. A sweep -/

/-- Clearing a mark changes no occupant. -/
theorem occupant_unmark (h : Heap) (i j : Nat) :
    occupant (h.unmark i).slots j = occupant h.slots j := by
  have hs := getElem?_mapRecord h.slots i j fun r => { r with marked := false }
  split at hs
  · exact occupant_mapRecord hs fun _ => ⟨rfl, rfl⟩
  · unfold occupant
    rw [unmark, hs]

/-- The marks after one of them was cleared. -/
theorem markAt_unmark (h : Heap) (i j : Nat) :
    markAt (h.unmark i).slots j = if i = j then false else markAt h.slots j := by
  have hs := getElem?_mapRecord h.slots i j fun r => { r with marked := false }
  unfold markAt
  rw [unmark, hs]
  by_cases hij : i = j
  · rw [if_pos hij, if_pos hij]
    cases h.slots[j]? with
    | none => rfl
    | some s => cases s <;> rfl
  · rw [if_neg hij, if_neg hij]

/-- Clearing a mark leaves the lists alone. -/
theorem Arranged.unmark {h : Heap} {used free : List Nat} (ha : Arranged h used free) {i : Nat}
    (hi : i ∈ used) : Arranged (h.unmark i) used free := by
  refine ⟨ha.linked.congr fun j _ r hr => ?_, ha.unused.congr fun j hj => ?_, ha.head_eq,
    ha.tail_eq, ha.nodup, fun j hj => ha.cover j (by simpa [Heap.unmark] using hj)⟩
  · rw [Heap.unmark, getElem?_mapRecord, hr]
    split
    · exact ⟨{ r with marked := false }, rfl, rfl, rfl⟩
    · exact ⟨r, rfl, rfl, rfl⟩
  · have hij : i ≠ j := (List.nodup_append.1 ha.nodup).2.2 i hi j hj
    rw [Heap.unmark, getElem?_mapRecord, if_neg hij]

/-- What a sweep along `rest` makes of a heap: the marked records of `rest` stay in their order
behind `kept` and lose their marks, and the others head the free list, the last one first. -/
structure Swept (h : Heap) (kept rest free : List Nat) (h' : Heap) : Prop where
  arranged : Arranged h' (kept ++ rest.filter (markAt h.slots))
    ((rest.filter fun i => !markAt h.slots i).reverse ++ free)
  free_eq : h'.free = ((rest.filter fun i => !markAt h.slots i).reverse ++ free).head?
  occupant_eq : ∀ j, occupant h'.slots j =
    if j ∈ rest ∧ markAt h.slots j = false then none else occupant h.slots j
  markAt_eq : ∀ j, markAt h'.slots j = if j ∈ rest then false else markAt h.slots j
  size_eq : h'.slots.size = h.slots.size
  live_eq : h'.live = h.live
  config_eq : h'.config = h.config
  stats_eq : h'.stats = h.stats

/-- Clearing the mark of a slot outside `rest` leaves the same slots of `rest` marked. -/
theorem filter_markAt_cleared {slots slots' : Array Slot} {i : Nat} {rest : List Nat} (hi : i ∉ rest)
    (hmarks : ∀ j, markAt slots' j = if i = j then false else markAt slots j) :
    rest.filter (markAt slots') = rest.filter (markAt slots) ∧
      (rest.filter fun j => !markAt slots' j) = rest.filter fun j => !markAt slots j := by
  have hrest : ∀ j ∈ rest, markAt slots' j = markAt slots j := by
    intro j hj
    have hij : i ≠ j := fun h => hi (h ▸ hj)
    rw [hmarks, if_neg hij]
  exact ⟨List.filter_congr hrest, List.filter_congr fun j hj => by rw [hrest j hj]⟩

/-- A first record that is marked is kept, and the rest is swept. -/
theorem Swept.keep {h h' : Heap} {kept rest free : List Nat} {i : Nat} (hi : i ∉ rest)
    (hm : markAt h.slots i = true) (hs : Swept (h.unmark i) (kept ++ [i]) rest free h') :
    Swept h kept (i :: rest) free h' := by
  obtain ⟨hkeep, hdrop⟩ := filter_markAt_cleared hi (markAt_unmark h i)
  refine ⟨?_, ?_, fun j => ?_, fun j => ?_, by simpa [unmark] using hs.size_eq, hs.live_eq,
    hs.config_eq, hs.stats_eq⟩
  · have := hs.arranged
    rw [hkeep, hdrop] at this
    simpa [hm] using this
  · have := hs.free_eq
    rw [hdrop] at this
    simpa [hm] using this
  · rw [hs.occupant_eq, occupant_unmark, markAt_unmark]
    by_cases hij : i = j
    · subst hij
      simp [hi, hm]
    · simp [hij, Ne.symm hij]
  · rw [hs.markAt_eq, markAt_unmark]
    by_cases hij : i = j
    · simp [hij]
    · simp [hij, Ne.symm hij]

/-- A first record that is not marked is released, and the rest is swept. -/
theorem Swept.drop {h h' : Heap} {kept rest free : List Nat} {i : Nat} {r : Record}
    (hi : i ∉ rest) (hm : markAt h.slots i = false)
    (hs : Swept (h.release i r) kept rest (i :: free) h') : Swept h kept (i :: rest) free h' := by
  obtain ⟨hkeep, hdrop⟩ := filter_markAt_cleared hi (markAt_release h i r)
  refine ⟨?_, ?_, fun j => ?_, fun j => ?_, by simpa [release] using hs.size_eq, hs.live_eq,
    hs.config_eq, hs.stats_eq⟩
  · have := hs.arranged
    rw [hkeep, hdrop] at this
    simpa [hm] using this
  · have := hs.free_eq
    rw [hdrop] at this
    simpa [hm] using this
  · rw [hs.occupant_eq, occupant_release, markAt_release]
    by_cases hij : i = j
    · subst hij
      simp [hi, hm]
    · simp [hij, Ne.symm hij]
  · rw [hs.markAt_eq, markAt_release]
    by_cases hij : i = j
    · simp [hij]
    · simp [hij, Ne.symm hij]

/-- **A sweep meets no broken link.**  It walks the list that it rewires: the part behind the cursor
is `kept`, the part before it `rest`, and each step moves one record over or takes it out. -/
theorem Arranged.sweepFrom {h : Heap} {kept rest free : List Nat} {n : Nat} (freed : Nat)
    (ha : Arranged h (kept ++ rest) free) (hf : h.free = free.head?) (hn : rest.length ≤ n) :
    ∃ h', sweepFrom? h freed n rest.head? =
        some (freed + (rest.filter fun i => !markAt h.slots i).length, h') ∧
      Swept h kept rest free h' := by
  induction rest generalizing h kept free n freed with
  | nil =>
    refine ⟨h, by simp [sweepFrom?], ?_, ?_, ?_, ?_, rfl, rfl, rfl, rfl⟩
    · simpa using ha
    · simpa using hf
    · simp
    · simp
  | cons i rest ih =>
    obtain ⟨n, rfl⟩ : ∃ k, n = k + 1 := ⟨n - 1, by simp at hn; omega⟩
    have hn' : rest.length ≤ n := by simpa using hn
    have hused : (kept ++ i :: rest).Nodup := (List.nodup_append.1 ha.nodup).1
    have hi : i ∉ rest := (not_mem_of_split hused).2
    obtain ⟨r, hr, hp, hnext⟩ := ha.linked kept i rest rfl
    simp only [List.head?_cons, sweepFrom?, hr, hnext]
    have hmark : markAt h.slots i = r.marked := by simp [markAt, hr]
    by_cases hm : r.marked = true
    · rw [if_pos hm]
      have ha' : Arranged (h.unmark i) ((kept ++ [i]) ++ rest) free := by
        simpa using ha.unmark (i := i) (by simp)
      obtain ⟨h', he, hs⟩ := ih freed ha' hf hn'
      have hsw := Swept.keep hi (hmark.trans hm) hs
      refine ⟨h', ?_, hsw⟩
      rw [he, (filter_markAt_cleared hi (markAt_unmark h i)).2]
      simp [hmark, hm]
    · have hm' : r.marked = false := by simpa using hm
      have hprev : isSoundLink h.slots r.prev = true :=
        ha.linked.isSoundLink fun j hj => by
          rw [hp] at hj
          exact List.mem_append_left _ (List.mem_of_getLast? hj)
      have hnextOk : isSoundLink h.slots rest.head? = true :=
        ha.linked.isSoundLink fun j hj => by simp [List.mem_of_head? hj]
      rw [if_neg hm, hprev, hnextOk, Bool.and_self, if_pos rfl]
      have ha' := ha.release hf hr
      obtain ⟨h', he, hs⟩ := ih (freed + 1) ha' rfl hn'
      refine ⟨h', ?_, Swept.drop hi (hmark.trans hm') hs⟩
      rw [he, (filter_markAt_cleared hi (markAt_release h i r)).2]
      simp [hmark, hm']
      omega

end ScriptMachine.Heap
