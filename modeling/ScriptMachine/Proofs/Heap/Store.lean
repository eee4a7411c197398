/-
# The heap as an ordered store

Seen from outside, a heap is a list of handles with their values, in the order in which the values
came: an insertion adds an entry at the end, a write changes one entry in its place, and a collection
drops the entries that cannot be reached.  Slots, links and generations do not show.  `Store` is that
list, together with the most entries it ever had, and `Store.perform` is what an operation does to it.

A run of operations on a heap (`performAll?`) gives the handle of every value that was accepted, and
`Store.replay` repeats the operations on a store under the same handles.

* `collect_exact`: after any run, a collection from any roots keeps exactly what they reach;
* `performAll_refines_store`: after any run, the heap lists what the store holds, in the same order,
  and its two lists, its counters and its size are as the store says.
-/
import Mathlib.Data.Set.Card
import ScriptMachine.Proofs.Heap.Collection

namespace ScriptMachine.Heap

/-! ## 1. Operations -/

/-- An operation on a heap. -/
inductive Operation where
  | insert (v : Value)
  | write (r : Handle) (f : Value → Value)
  | collect (roots : List Handle)

/-- What a heap makes of an operation, with the handle of a value it accepts.  There is no result if the
operation meets a broken link. -/
def perform? (h : Heap) : Operation → Option (Option Handle × Heap)
  | .insert v =>
    match h.insert v with
    | (.ok r, h) => some (some r, h)
    | (.error .brokenLink, _) => none
    | (.error _, h) => some (none, h)
  | .write r f => some (none, h.modifyValue r f)
  | .collect roots => (h.collect? roots).map fun (_, h) => (none, h)

/-- What a heap makes of a list of operations, with the handles of the values it accepts. -/
def performAll? (h : Heap) : List Operation → Option (List (Option Handle) × Heap)
  | [] => some ([], h)
  | q :: qs =>
    match h.perform? q with
    | none => none
    | some (reply, h) => (performAll? h qs).map fun (replies, h) => (reply :: replies, h)

/-! ## 2. Stores -/

/-- A list of handles with their values, oldest first, and the most entries it ever had. -/
structure Store where
  entries : List (Handle × Value)
  peak : Nat

namespace Store

/-- The store without entries. -/
def empty : Store := ⟨[], 0⟩

/-- The value under a handle. -/
def get? (s : Store) (r : Handle) : Option Value := s.entries.lookup r

open scoped Classical in
/-- What a store makes of an operation, if the heap's reply is `reply`. -/
noncomputable def perform (s : Store) : Operation → Option Handle → Store
  | .insert v, some r => ⟨s.entries ++ [(r, v)], max s.peak (s.entries.length + 1)⟩
  | .insert _, none => s
  | .write r f, _ =>
    { s with entries := s.entries.map fun (a, v) => if a = r then (a, f v) else (a, v) }
  | .collect roots, _ =>
    { s with entries := s.entries.filter fun (r, _) => Reach s.get? roots r }

/-- What a store makes of a list of operations, given the heap's replies. -/
noncomputable def replay (s : Store) : List Operation → List (Option Handle) → Store
  | q :: qs, reply :: replies => (s.perform q reply).replay qs replies
  | _, _ => s

end Store

/-! ## 3. One operation -/

/-- The heap lists what the store holds, and its arena has never held more than it had to. -/
structure Refines (h : Heap) (s : Store) : Prop where
  listing_eq : h.listing = s.entries
  size_eq : h.slots.size = s.peak

section Step

variable {h : Heap} {s : Store} {used free : List Nat}

/-- A look-up in the store is a look-up on the heap. -/
theorem Refines.get?_eq (hr : Refines h s) (hl : Layout h used free) : s.get? = h.get? := by
  funext r
  refine Option.ext fun v => ?_
  rw [← hl.mem_listing_iff, hr.listing_eq, Store.get?, List.lookup_eq_some_iff]
  have hnodup := hl.nodup_listing
  rw [hr.listing_eq] at hnodup
  constructor
  · rintro ⟨before, after, he, -⟩
    rw [he]
    simp
  · intro hmem
    obtain ⟨before, after, he⟩ := List.append_of_mem hmem
    refine ⟨before, after, he, fun p hp => ?_⟩
    -- an earlier entry of the same handle would be a second one
    rw [he, List.map_append, List.map_cons, List.nodup_middle, List.nodup_cons] at hnodup
    have hmem' : p.1 ∈ before.map Prod.fst := List.mem_map_of_mem hp
    have hne : r ≠ p.1 := fun heq => hnodup.1 (List.mem_append_left _ (heq ▸ hmem'))
    simpa using hne

/-- An accepted value is the last of the list. -/
theorem Refines.insert {h' : Heap} {v : Value} {r : Handle} {free' : List Nat}
    (hr : Refines h s) (hl : Layout h used free) (hl' : Layout h' (used ++ [r.index]) free')
    (hi : Inserted h v r h') : Refines h' (s.perform (.insert v) (some r)) := by
  have hlen : h.live = s.entries.length := by
    rw [← hr.listing_eq, hl.length_listing, hl.live_eq]
  refine ⟨?_, ?_⟩
  · have hold : ∀ i ∈ used, entryAt h'.slots i = entryAt h.slots i := by
      intro i hu
      have hne : r.index ≠ i := fun he => by
        have := hl.mem_used_iff.1 hu
        rw [← he, hi.vacant] at this
        simp at this
      rw [entryAt, hi.occupant_eq, if_neg hne, entryAt]
    have hnew : entryAt h'.slots r.index = some (r, v) := by
      simp [entryAt, hi.occupant_eq]
    rw [hl'.listing_eq, List.filterMap_append, List.filterMap_congr hold, ← hl.listing_eq,
      hr.listing_eq, List.filterMap_cons_some hnew]
    rfl
  · rw [hi.size_eq, hi.live_eq, hlen, hr.size_eq]
    rfl

/-- A write changes an entry in its place. -/
theorem Refines.write (hr : Refines h s) (hl : Layout h used free) (r : Handle)
    (f : Value → Value) : Refines (h.modifyValue r f) (s.perform (.write r f) none) := by
  refine ⟨?_, ?_⟩
  · have hentry : ∀ i, entryAt (h.modifyValue r f).slots i =
        (entryAt h.slots i).map fun (a, v) => if a = r then (a, f v) else (a, v) := by
      intro i
      rw [entryAt, entryAt, occupant_modifyValue, Option.map_map, Option.map_map]
      refine congrArg (Option.map · _) (funext fun gv => ?_)
      obtain ⟨g, v⟩ := gv
      by_cases he : r = ⟨i, g⟩
      · simp [he]
      · simp [he, Ne.symm he]
    rw [(hl.write r f).listing_eq, funext hentry, ← List.map_filterMap, ← hl.listing_eq,
      hr.listing_eq]
    rfl
  · rw [modifyValue, Array.size_modify]
    exact hr.size_eq

/-- A collection drops what cannot be reached, and nothing moves. -/
theorem Refines.collect {h' : Heap} {roots : List Handle} {n : Nat} (hr : Refines h s)
    (hl : Layout h used free) (hc : Collected h used roots n h') :
    Refines h' (s.perform (.collect roots) none) := by
  obtain ⟨free', hl'⟩ := hc.layout
  refine ⟨?_, hc.size_eq.trans hr.size_eq⟩
  have hkept : ∀ i ∈ used.filter (markAt (markFrom h.slots roots)),
      entryAt h'.slots i = entryAt h.slots i := by
    intro i hi
    rw [entryAt, hc.occupant_eq i (List.mem_filter.1 hi).2, entryAt]
  rw [hl'.listing_eq, List.filterMap_congr hkept, Store.perform, hr.get?_eq hl, ← hr.listing_eq,
    hl.listing_eq, List.filter_filterMap, List.filterMap_filter]
  refine List.filterMap_congr fun i hi => ?_
  obtain ⟨g, v, hgv⟩ := hl.entryAt_of_mem hi
  have hv : h.get? ⟨i, g⟩ = some v := by
    rw [← hl.mem_listing_iff, hl.listing_eq]
    exact List.mem_filterMap.2 ⟨i, hi, hgv⟩
  have hreach := reach_iff_markAt hl.unmarked roots hv
  rw [hgv]
  by_cases hm : markAt (markFrom h.slots roots) i = true
  · rw [if_pos hm, Option.filter_some_pos (by simpa using hreach.2 hm)]
  · rw [if_neg hm, Option.filter_some_neg (by simpa using mt hreach.1 hm)]

/-- **One operation**: the heap has a result, keeps its layout, and does what the store does. -/
theorem Layout.perform (hl : Layout h used free) (hr : Refines h s) (q : Operation) :
    ∃ reply h' used' free', h.perform? q = some (reply, h') ∧ Layout h' used' free' ∧
      Refines h' (s.perform q reply) := by
  cases q with
  | insert v =>
    rcases hl.insert v with ⟨r, h', free', he, hl', hi⟩ | ⟨he, -, -⟩
    · exact ⟨some r, h', _, free', by rw [perform?, he], hl', hr.insert hl hl' hi⟩
    · exact ⟨none, h, used, free, by rw [perform?, he], hl, hr⟩
  | write r f => exact ⟨none, _, used, free, rfl, hl.write r f, hr.write hl r f⟩
  | collect roots =>
    obtain ⟨n, h', he, hc⟩ := hl.collect roots
    obtain ⟨free', hl'⟩ := hc.layout
    exact ⟨none, h', _, free', by rw [perform?, he]; rfl, hl', hr.collect hl hc⟩

/-- A whole run: every operation has a result, and the heap does what the store does. -/
theorem Layout.performAll (hl : Layout h used free) (hr : Refines h s) (qs : List Operation) :
    ∃ replies h' used' free', h.performAll? qs = some (replies, h') ∧ Layout h' used' free' ∧
      Refines h' (s.replay qs replies) := by
  induction qs generalizing h s used free with
  | nil => exact ⟨[], h, used, free, rfl, hl, hr⟩
  | cons q qs ih =>
    obtain ⟨reply, h₁, used₁, free₁, he, hl₁, hr₁⟩ := hl.perform hr q
    obtain ⟨replies, h₂, used₂, free₂, he₂, hl₂, hr₂⟩ := ih hl₁ hr₁
    exact ⟨reply :: replies, h₂, used₂, free₂, by simp [performAll?, he, he₂], hl₂, hr₂⟩

end Step

/-- The empty heap is the empty store. -/
theorem Refines.initial (config : HeapConfig) : Refines (initial config) .empty := ⟨rfl, rfl⟩

/-! ## 4. Whole runs -/

/-- As many handles resolve as there are live values. -/
theorem Layout.ncard_resolving {h : Heap} {used free : List Nat} (hl : Layout h used free) :
    {r | h.contains r = true}.ncard = h.live ∧ {r | h.contains r = true}.Finite := by
  have hset : {r | h.contains r = true} = ↑(h.listing.map Prod.fst).toFinset := by
    ext r
    simp only [Set.mem_ofPred_eq, List.coe_toFinset, List.mem_map, Prod.exists, exists_and_right,
      exists_eq_right, hl.mem_listing_iff, contains_eq, Option.isSome_iff_exists]
  rw [hset]
  refine ⟨?_, Finset.finite_toSet _⟩
  rw [Set.ncard_coe_finset, List.toFinset_card_of_nodup hl.nodup_listing, List.length_map,
    hl.length_listing, hl.live_eq]

/-- **Collection is exact.**  After any run of operations no mark is set, and a collection from any
list of roots has a result.  Afterwards a handle resolves, to the value it had, exactly if it
resolved before and can be reached from the roots; no mark is set; and the number returned is that of
the handles that stopped to resolve, by which the live count went down and the freed count up. -/
theorem collect_exact (config : HeapConfig) (qs : List Operation) :
    ∃ replies h, (initial config).performAll? qs = some (replies, h) ∧
      (∀ i, markAt h.slots i = false) ∧
      ∀ roots, ∃ n h', h.collect? roots = some (n, h') ∧
        (∀ r v, h'.get? r = some v ↔ h.get? r = some v ∧ Reach h.get? roots r) ∧
        (∀ i, markAt h'.slots i = false) ∧
        n = {r | h.contains r = true ∧ h'.contains r = false}.ncard ∧
        h'.live + n = h.live ∧ h'.stats.freed = h.stats.freed + n := by
  obtain ⟨replies, h, used, free, he, hl, -⟩ :=
    (Layout.initial config).performAll (Refines.initial config) qs
  refine ⟨replies, h, he, hl.unmarked, fun roots => ?_⟩
  obtain ⟨n, h', hc, hcol⟩ := hl.collect roots
  obtain ⟨free', hl'⟩ := hcol.layout
  refine ⟨n, h', hc, hcol.get?_iff, hl'.unmarked, ?_, by have := hcol.live_eq; omega, ?_⟩
  · -- what is gone is what resolved before without what resolves now
    have hsub : {r | h'.contains r = true} ⊆ {r | h.contains r = true} := by
      intro r hr
      simp only [Set.mem_ofPred_eq, contains_eq, Option.isSome_iff_exists] at hr ⊢
      obtain ⟨v, hv⟩ := hr
      exact ⟨v, ((hcol.get?_iff r v).1 hv).1⟩
    have hdiff : {r | h.contains r = true ∧ h'.contains r = false} =
        {r | h.contains r = true} \ {r | h'.contains r = true} := by
      ext r
      simp
    rw [hdiff, Set.ncard_sdiff hsub hl'.ncard_resolving.2, hl.ncard_resolving.1,
      hl'.ncard_resolving.1]
    have := hcol.live_eq
    omega
  · rw [hcol.stats_eq]

/-- **The heap is an ordered store.**  Every run of operations has a result, and the heap then lists
exactly the handles that resolve, with their values and in the order in which they came, as the store
holds them.  The slots in use form one list, linked both ways from the head to the tail; the free
slots form another; each slot is on exactly one of them.  The counters agree with the list, the arena
is as large as the most values that were ever live, and a value is refused only if 2^32 are live. -/
theorem performAll_refines_store (config : HeapConfig) (qs : List Operation) :
    ∃ replies h, (initial config).performAll? qs = some (replies, h) ∧
      h.listing = (Store.empty.replay qs replies).entries ∧
      (∀ r v, (r, v) ∈ h.listing ↔ h.get? r = some v) ∧ (h.listing.map Prod.fst).Nodup ∧
      (∃ used free, h.head = used.head? ∧ h.tail = used.getLast? ∧ Linked h.slots used ∧
        h.free = free.head? ∧ Unused h.slots free ∧
        (used ++ free).Perm (List.range h.slots.size)) ∧
      h.live = h.listing.length ∧ h.live = h.stats.allocations - h.stats.freed ∧
      h.stats.freed ≤ h.stats.allocations ∧
      h.slots.size = (Store.empty.replay qs replies).peak ∧
      (∀ i, h.free = some i → ∃ g next c, h.slots[i]? = some (.free g next c)) ∧
      ∀ v, (∃ r h', h.insert v = (.ok r, h')) ∨
        (h.insert v = (.error .allocFailed, h) ∧ h.free = none ∧ maxSlots ≤ h.live) := by
  obtain ⟨replies, h, used, free, he, hl, hr⟩ :=
    (Layout.initial config).performAll (Refines.initial config) qs
  have hcount := hl.counted
  refine ⟨replies, h, he, hr.listing_eq, hl.mem_listing_iff, hl.nodup_listing,
    ⟨used, free, hl.head_eq, hl.tail_eq, hl.linked, hl.free_eq, hl.unused, hl.perm⟩, ?_, by omega,
    by omega, hr.size_eq, fun i hi => ?_, fun v => ?_⟩
  · rw [hl.live_eq, hl.length_listing]
  · rw [hl.free_eq] at hi
    obtain ⟨after, rfl⟩ := List.head?_eq_some_iff.1 hi
    obtain ⟨g, c, hg⟩ := hl.unused [] i after rfl
    exact ⟨g, after.head?, c, hg⟩
  · rcases hl.insert v with ⟨r, h', free', hok, -, -⟩ | ⟨hfull, hmax, hsize⟩
    · exact Or.inl ⟨r, h', hok⟩
    · refine Or.inr ⟨hfull, ?_, by omega⟩
      -- all slots are in use, so none is left for the free list
      have hlen := hl.length_add
      have hlive := hl.live_eq
      have hnil : free = [] := List.eq_nil_of_length_eq_zero (by omega)
      rw [hl.free_eq, hnil]
      rfl

end ScriptMachine.Heap
