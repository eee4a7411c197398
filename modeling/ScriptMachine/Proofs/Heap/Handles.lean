/-
# Stale handles stay stale

A slot is used again, and what tells its occupants apart is their generation: freeing a slot raises it
by one, and the next occupant carries it on.  So a handle is an old one as soon as its generation is
behind that of its slot, and it stays behind, until the generations of the slot have gone round, which
takes 2^32 times of being freed.

The history of a heap is kept beside it (`Tracked`): how often each slot was freed, and which handles
were given out.  A handle given out when its slot had been freed `k` times carries generation `k`; it
resolves only while the count is `k`.

* `Thins`: a sweep frees slots, each at most once, and raises the generations of those it frees;
* `Turnover`: what any action makes of occupants and generations;
* `Tracked.act`, `Tracked.actAll`: one action and a whole run keep the history;
* `handles_never_alias`: no handle is given out twice, and one that has stopped to resolve never
  resolves again.
-/
import ScriptMachine.Proofs.Heap.Store

namespace ScriptMachine.Heap

/-! ## 1. Generations -/

/-- The generation of the present or the next occupant of a slot.  A slot that is not there yet begins
with zero. -/
def generationAt (slots : Array Slot) (i : Nat) : UInt32 :=
  match slots[i]? with
  | some (.live r) => r.generation
  | some (.free g _ _) => g
  | none => 0

section Generation

variable (slots : Array Slot) (i j : Nat) (link target : Option Nat)

/-- Whoever lives in a slot has its generation. -/
theorem generationAt_of_occupant {slots : Array Slot} {i : Nat} {g : UInt32} {v : Value}
    (ho : occupant slots i = some (g, v)) : generationAt slots i = g := by
  unfold occupant at ho
  unfold generationAt
  cases hs : slots[i]? with
  | none =>
    rw [hs] at ho
    cases ho
  | some s =>
    rw [hs] at ho
    cases s with
    | live r => exact (Prod.mk.inj (Option.some.inj ho)).1
    | free g n c => cases ho

/-- Changing a record in ways other than its generation changes no generation. -/
theorem generationAt_mapRecord {f : Record → Record} (hf : ∀ r, (f r).generation = r.generation) :
    generationAt (slots.modify i (Slot.mapRecord f)) j = generationAt slots j := by
  unfold generationAt
  rw [getElem?_mapRecord]
  by_cases hij : i = j
  · rw [if_pos hij]
    cases slots[j]? with
    | none => rfl
    | some s =>
      cases s with
      | live r => exact hf r
      | free g n c => rfl
  · rw [if_neg hij]

@[simp] theorem generationAt_linkNext :
    generationAt (linkNext slots link target) j = generationAt slots j := by
  cases link with
  | none => rfl
  | some i => exact generationAt_mapRecord slots i j fun _ => rfl

@[simp] theorem generationAt_linkPrev :
    generationAt (linkPrev slots link target) j = generationAt slots j := by
  cases link with
  | none => rfl
  | some i => exact generationAt_mapRecord slots i j fun _ => rfl

/-- The generations after one slot was set. -/
theorem generationAt_set {slots : Array Slot} {i : Nat} (hi : i < slots.size) (s : Slot) (j : Nat) :
    generationAt (slots.setIfInBounds i s) j =
      if i = j then generationAt #[s] 0 else generationAt slots j := by
  unfold generationAt
  rw [Array.getElem?_setIfInBounds]
  by_cases hij : i = j
  · rw [if_pos hij, if_pos hi, if_pos hij]
    rfl
  · rw [if_neg hij, if_neg hij]

/-- A new slot has the generation that it had before it was there. -/
theorem generationAt_push : generationAt (slots.push (.free 0 none 0)) j = generationAt slots j := by
  unfold generationAt
  rw [Array.getElem?_push]
  by_cases hj : j = slots.size
  · simp [hj]
  · rw [if_neg hj]

/-- Marks do not touch generations. -/
theorem MarksOnly.generationAt_eq {slots slots' : Array Slot} (hm : MarksOnly slots slots') (i : Nat) :
    generationAt slots' i = generationAt slots i := by
  unfold generationAt
  cases hs : slots[i]? with
  | none =>
    have hnone : slots'[i]? = none := by
      rw [Array.getElem?_eq_none_iff] at hs ⊢
      rw [hm.size_eq]
      exact hs
    rw [hnone]
  | some s =>
    cases s with
    | live r =>
      obtain ⟨b, hb⟩ := hm.live i r hs
      rw [hb]
    | free g n c => rw [hm.free i g n c hs]

end Generation

/-! ## 2. Slots that are freed -/

/-- Whether a slot was in use in one heap and is not in the other. -/
def vacates (h h' : Heap) (i : Nat) : Bool :=
  (occupant h.slots i).isSome && (occupant h'.slots i).isNone

/-- No slot is freed if the same slots are in use. -/
theorem vacates_eq_false {h h' : Heap} {i : Nat}
    (ho : (occupant h'.slots i).isSome = (occupant h.slots i).isSome) : h.vacates h' i = false := by
  rw [vacates]
  cases hs : occupant h.slots i <;> cases hs' : occupant h'.slots i <;> simp_all

/-- What a sweep makes of a heap: a slot is freed or keeps its occupant, and its generation is
raised by one if it was freed. -/
structure Thins (h h' : Heap) : Prop where
  kept : ∀ i, occupant h'.slots i = none ∨ occupant h'.slots i = occupant h.slots i
  generation_eq : ∀ i, generationAt h'.slots i =
    if h.vacates h' i then generationAt h.slots i + 1 else generationAt h.slots i

/-- A heap whose occupants and generations are the same. -/
theorem Thins.of_eq {h h' : Heap} (ho : ∀ i, occupant h'.slots i = occupant h.slots i)
    (hg : ∀ i, generationAt h'.slots i = generationAt h.slots i) : Thins h h' := by
  refine ⟨fun i => .inr (ho i), fun i => ?_⟩
  rw [hg i, vacates_eq_false (by rw [ho i])]
  rfl

/-- What a handle resolves to after a sweep it resolved to before. -/
theorem Thins.get? {h h' : Heap} (ht : Thins h h') {r : Handle} {v : Value}
    (hv : h'.get? r = some v) : h.get? r = some v := by
  rcases ht.kept r.index with hnone | hsame
  · rw [get?_eq, hnone] at hv
    cases hv
  · rw [← get?_congr hsame, hv]

/-- Sweeps compose: a slot that the first one freed is not freed again by the second. -/
theorem Thins.trans {h h' h'' : Heap} (h₁ : Thins h h') (h₂ : Thins h' h'') : Thins h h'' := by
  refine ⟨fun i => ?_, fun i => ?_⟩
  · rcases h₂.kept i with hnone | hsame
    · exact .inl hnone
    · rw [hsame]
      exact h₁.kept i
  · have hg₁ := h₁.generation_eq i
    have hg₂ := h₂.generation_eq i
    have hv₁ := h₁.kept i
    have hv₂ := h₂.kept i
    unfold vacates at hg₁ hg₂ ⊢
    cases hs : occupant h.slots i <;> cases hs' : occupant h'.slots i <;>
      cases hs'' : occupant h''.slots i <;> simp_all

/-- A release frees one slot and raises its generation. -/
theorem Thins.release {h : Heap} {i : Nat} {r : Record} (hr : h.slots[i]? = some (.live r)) :
    Thins h (h.release i r) := by
  have hi : i < h.slots.size := (Array.getElem?_eq_some_iff.1 hr).1
  refine ⟨fun j => ?_, fun j => ?_⟩
  · rw [occupant_release]
    split
    · exact .inl rfl
    · exact .inr rfl
  · have hsize : i < (linkPrev (linkNext h.slots r.prev r.next) r.next r.prev).size := by
      simpa using hi
    rw [vacates, occupant_release]
    rw [Heap.release, generationAt_set hsize, generationAt_linkPrev, generationAt_linkNext]
    by_cases hij : i = j
    · subst hij
      simp [generationAt, occupant, hr]
    · simp only [if_neg hij]
      cases occupant h.slots j <;> simp

/-- **A sweep frees each slot at most once.**  The induction is on the steps of the sweep; a slot that
was freed is no slot in use any more, so no later step can free it. -/
theorem Thins.sweepFrom {h h' : Heap} {freed k n : Nat} {cursor : Option Nat}
    (hs : sweepFrom? h freed n cursor = some (k, h')) : Thins h h' := by
  induction n generalizing h freed cursor with
  | zero =>
    cases cursor with
    | none =>
      obtain ⟨-, rfl⟩ : freed = k ∧ h = h' := by simpa [sweepFrom?] using hs
      exact .of_eq (fun _ => rfl) fun _ => rfl
    | some i => simp [sweepFrom?] at hs
  | succ n ih =>
    cases cursor with
    | none =>
      obtain ⟨-, rfl⟩ : freed = k ∧ h = h' := by simpa [sweepFrom?] using hs
      exact .of_eq (fun _ => rfl) fun _ => rfl
    | some i =>
      rw [sweepFrom?] at hs
      split at hs
      · next r hr =>
        simp only at hs
        split at hs
        · have hunmark : Thins h (h.unmark i) := .of_eq (fun j => by rw [occupant_unmark])
            fun j => generationAt_mapRecord h.slots i j fun _ => rfl
          exact hunmark.trans (ih hs)
        · split at hs
          · exact (Thins.release hr).trans (ih hs)
          · cases hs
      · cases hs
      · cases hs

/-- A whole sweep. -/
theorem Thins.sweep {h h' : Heap} {k : Nat} (hs : h.sweep? = some (k, h')) : Thins h h' := by
  obtain ⟨⟨freed, h₁⟩, hfrom, he⟩ := Option.map_eq_some_iff.1 hs
  obtain ⟨-, rfl⟩ := Prod.mk.inj he
  have hthin := Thins.sweepFrom hfrom
  exact ⟨hthin.kept, hthin.generation_eq⟩

/-- Marking frees nothing. -/
theorem Thins.mark (h : Heap) (roots : List Handle) : Thins h (h.mark roots) :=
  .of_eq (fun i => by rw [Heap.mark, (marksOnly_markFrom h.slots roots).occupant_eq])
    fun i => (marksOnly_markFrom h.slots roots).generationAt_eq i

/-- A collection. -/
theorem Thins.collect {h h' : Heap} {roots : List Handle} {k : Nat}
    (hs : h.collect? roots = some (k, h')) : Thins h h' := by
  have hmark := Thins.mark { h with
    stats := { h.stats with collections := h.stats.collections + 1 } } roots
  have hthin := hmark.trans (Thins.sweep hs)
  exact ⟨hthin.kept, hthin.generation_eq⟩

/-! ## 3. Actions -/

/-- What can be done to a heap: the operations of a store, the two phases of a collection one by one,
and turning automatic collection on or off. -/
inductive Action where
  | operation (q : Operation)
  | mark (roots : List Handle)
  | sweep
  | switch (enabled : Bool)

/-- What a heap makes of an action, with the handle of a value it accepts.  There is no result if the
action meets a broken link. -/
def act? (h : Heap) : Action → Option (Option Handle × Heap)
  | .operation q => h.perform? q
  | .mark roots => some (none, h.mark roots)
  | .sweep => h.sweep?.map fun (_, h) => (none, h)
  | .switch enabled => some (none, h.setEnabled enabled)

/-- What a heap makes of a list of actions, with the handles of the values it accepts. -/
def actAll? (h : Heap) : List Action → Option (List (Option Handle) × Heap)
  | [] => some ([], h)
  | q :: qs =>
    match h.act? q with
    | none => none
    | some (reply, h) => (actAll? h qs).map fun (replies, h) => (reply :: replies, h)

/-- How often a slot is freed in the course of some actions. -/
def timesFreed (h : Heap) (i : Nat) : List Action → Nat
  | [] => 0
  | q :: qs =>
    match h.act? q with
    | none => 0
    | some (_, h') => (h.vacates h' i).toNat + timesFreed h' i qs

/-- A slot is freed at most once by each action. -/
theorem timesFreed_le_length (h : Heap) (i : Nat) (qs : List Action) :
    h.timesFreed i qs ≤ qs.length := by
  induction qs generalizing h with
  | nil => exact le_rfl
  | cons q qs ih =>
    rw [timesFreed]
    split
    · exact Nat.zero_le _
    · next reply h' _ =>
      have hone := Bool.toNat_le (h.vacates h' i)
      have hrest := ih h'
      rw [List.length_cons]
      omega

/-- The two lists of a heap are in order; marks may be set. -/
def InOrder (h : Heap) : Prop := ∃ used free, Arranged h used free ∧ h.free = free.head?

/-- What an action makes of occupants and generations: the generation of a slot is raised by one if
the slot was freed, and a handle that is given out names a slot that was vacant, with its
generation. -/
structure Turnover (h : Heap) (reply : Option Handle) (h' : Heap) : Prop where
  generation_eq : ∀ i, generationAt h'.slots i =
    if h.vacates h' i then generationAt h.slots i + 1 else generationAt h.slots i
  given : ∀ r, reply = some r → occupant h.slots r.index = none ∧
    generationAt h.slots r.index = r.generation ∧ (occupant h'.slots r.index).isSome

/-- An action that gives out no handle. -/
theorem Thins.turnover {h h' : Heap} (ht : Thins h h') : Turnover h none h' :=
  ⟨ht.generation_eq, nofun⟩

/-- Placing a value in the first free slot. -/
theorem Arranged.turnover_place {h : Heap} {used free : List Nat} {i : Nat}
    (ha : Arranged h used (i :: free)) (v : Value) :
    ∃ h', h.settle i (generationAt h.slots i) free.head? v =
        (.ok ⟨i, generationAt h.slots i⟩, h') ∧ InOrder h' ∧
      Turnover h (some ⟨i, generationAt h.slots i⟩) h' := by
  have hi : i < h.slots.size := ha.mem_iff.1 (by simp)
  have hlink : isSoundLink h.slots h.tail = true := ha.linked.isSoundLink fun j hj => by
    rw [ha.tail_eq] at hj
    exact List.mem_of_getLast? hj
  obtain ⟨g, c, hg⟩ := ha.unused [] i free rfl
  have hvacant : occupant h.slots i = none := by simp [occupant, hg]
  refine ⟨_, by rw [Heap.settle, if_pos hlink], ⟨_, _, ha.place hi _ v, rfl⟩, fun j => ?_,
    fun r hr => ?_⟩
  · rw [vacates, occupant_place h hi, Heap.place, generationAt_linkNext, generationAt_set hi]
    by_cases hij : i = j
    · subst hij
      simp [generationAt]
    · simp only [if_neg hij]
      cases occupant h.slots j <;> simp
  · obtain rfl := Option.some.inj hr
    exact ⟨hvacant, rfl, by simp [occupant_place h hi]⟩

/-- An insertion into a heap whose lists are in order, whether marks are set or not. -/
theorem InOrder.insert {h : Heap} (ho : h.InOrder) (v : Value) :
    (∃ r h', h.insert v = (.ok r, h') ∧ h'.InOrder ∧ Turnover h (some r) h') ∨
      h.insert v = (.error .allocFailed, h) := by
  obtain ⟨used, free, ha, hf⟩ := ho
  unfold Heap.insert
  rw [hf]
  cases free with
  | cons i free =>
    obtain ⟨g, c, hg⟩ := ha.unused [] i free rfl
    have hgen : generationAt h.slots i = g := by simp [generationAt, hg]
    obtain ⟨h', he, ho', ht⟩ := ha.turnover_place v
    rw [hgen] at he ht
    refine .inl ⟨_, h', ?_, ho', ht⟩
    simp only [List.head?_cons, hg]
    exact he
  | nil =>
    simp only [List.head?_nil]
    by_cases hsize : h.slots.size < maxSlots
    · rw [if_pos hsize]
      obtain ⟨h', he, ho', ht⟩ := ha.grow.turnover_place v
      have hgen : generationAt h.slots h.slots.size = 0 := by simp [generationAt]
      simp only [generationAt_push, hgen, List.head?_nil] at he ht
      refine .inl ⟨_, h', by simpa [hf] using he, ho', fun j => ?_, fun r hr => ?_⟩
      · have hj := ht.generation_eq j
        rw [vacates, generationAt_push, occupant_push] at hj
        exact hj
      · have hr' := ht.given r hr
        simpa only [generationAt_push, occupant_push] using hr'
    · rw [if_neg hsize]
      exact .inr rfl

/-- **One action** on a heap in order: it has a result, the lists are in order again, and occupants
and generations turn over. -/
theorem InOrder.act {h : Heap} (ho : h.InOrder) (q : Action) :
    ∃ reply h', h.act? q = some (reply, h') ∧ h'.InOrder ∧ Turnover h reply h' := by
  have hsweep : ∀ {h : Heap}, h.InOrder → ∃ n h', h.sweep? = some (n, h') ∧ h'.InOrder := by
    rintro h ⟨used, free, ha, hf⟩
    obtain ⟨h', he, hs⟩ := ha.sweep hf
    have hsw := hs.arranged
    exact ⟨_, _, he, _, _, ⟨hsw.linked, hsw.unused, hsw.head_eq, hsw.tail_eq, hsw.nodup, hsw.cover⟩,
      hs.free_eq⟩
  have hmark : ∀ {h : Heap} (roots : List Handle), h.InOrder → (h.mark roots).InOrder := by
    rintro h roots ⟨used, free, ha, hf⟩
    exact ⟨used, free, ha.of_marksOnly (marksOnly_markFrom h.slots roots) rfl rfl, hf⟩
  cases q with
  | operation q =>
    cases q with
    | insert v =>
      rcases ho.insert v with ⟨r, h', he, ho', ht⟩ | he
      · exact ⟨some r, h', by rw [act?, perform?, he], ho', ht⟩
      · exact ⟨none, h, by rw [act?, perform?, he], ho,
          Thins.turnover (.of_eq (fun _ => rfl) fun _ => rfl)⟩
    | write r f =>
      obtain ⟨used, free, ha, hf⟩ := ho
      refine ⟨none, _, rfl, ⟨used, free, ha.write r f, hf⟩, fun i => ?_, fun r hr => ?_⟩
      · -- a write changes values, but neither generations nor which slots are in use
        rw [vacates_eq_false (by rw [occupant_modifyValue, Option.isSome_map])]
        refine generationAt_mapRecord h.slots r.index i fun record => ?_
        split <;> rfl
      · cases hr
    | collect roots =>
      have hcounted : InOrder { h with
          stats := { h.stats with collections := h.stats.collections + 1 } } := by
        obtain ⟨used, free, ha, hf⟩ := ho
        exact ⟨used, free, ⟨ha.linked, ha.unused, ha.head_eq, ha.tail_eq, ha.nodup, ha.cover⟩, hf⟩
      obtain ⟨n, h', he, ho'⟩ := hsweep (hmark roots hcounted)
      have hc : h.collect? roots = some (n, h') := he
      exact ⟨none, h', by rw [act?, perform?, hc]; rfl, ho', (Thins.collect hc).turnover⟩
  | mark roots => exact ⟨none, _, rfl, hmark roots ho, (Thins.mark h roots).turnover⟩
  | sweep =>
    obtain ⟨n, h', he, ho'⟩ := hsweep ho
    exact ⟨none, h', by rw [act?, he]; rfl, ho', (Thins.sweep he).turnover⟩
  | switch enabled =>
    obtain ⟨used, free, ha, hf⟩ := ho
    exact ⟨none, _, rfl, ⟨used, free, ⟨ha.linked, ha.unused, ha.head_eq, ha.tail_eq, ha.nodup,
      ha.cover⟩, hf⟩, Thins.turnover (.of_eq (fun _ => rfl) fun _ => rfl)⟩

/-! ## 4. The history of a heap -/

/-- The history of a heap: how often each slot was freed, and which handles were given out.  Each
handle carries the count of its slot at that time; as long as the count is the same, the slot is in
use. -/
structure Tracked (h : Heap) (times : Nat → Nat) (handles : List Handle) : Prop where
  inOrder : h.InOrder
  generation_eq : ∀ i, generationAt h.slots i = UInt32.ofNat (times i)
  given : ∀ r ∈ handles, ∃ k, r.generation = UInt32.ofNat k ∧ k ≤ times r.index ∧
    (k = times r.index → (occupant h.slots r.index).isSome)

/-- A handle whose slot has been freed since it was given out. -/
def Retired (times : Nat → Nat) (r : Handle) : Prop :=
  ∃ k, r.generation = UInt32.ofNat k ∧ k < times r.index

/-- Generations of different counts differ, as long as they have not gone round. -/
theorem eq_of_ofNat_eq {j k : Nat} (hj : j < 2 ^ 32) (hk : k < 2 ^ 32)
    (h : UInt32.ofNat j = UInt32.ofNat k) : j = k := by
  have hto := congrArg UInt32.toNat h
  rwa [UInt32.toNat_ofNat_of_lt' hj, UInt32.toNat_ofNat_of_lt' hk] at hto

section Tracked

variable {h : Heap} {times : Nat → Nat} {handles : List Handle}

/-- The heap without values has no history. -/
theorem Tracked.initial (config : HeapConfig) : Tracked (initial config) (fun _ => 0) [] :=
  ⟨⟨[], [], (Layout.initial config).toArranged, rfl⟩, fun _ => rfl, by simp⟩

/-- A handle that was given out and does not resolve is retired. -/
theorem Tracked.retired (ht : Tracked h times handles) {r : Handle} (hr : r ∈ handles)
    (hnone : h.get? r = none) : Retired times r := by
  obtain ⟨k, hk, hle, huse⟩ := ht.given r hr
  refine ⟨k, hk, lt_of_le_of_ne hle fun heq => ?_⟩
  -- otherwise its slot is in use and has the generation of the handle
  obtain ⟨⟨g, v⟩, ho⟩ := Option.isSome_iff_exists.1 (huse heq)
  have hg : g = r.generation := by
    rw [← generationAt_of_occupant ho, ht.generation_eq, hk, heq]
  simp [get?_eq, ho, hg] at hnone

/-- A retired handle does not resolve. -/
theorem Tracked.get?_of_retired (ht : Tracked h times handles) (hfew : ∀ i, times i < 2 ^ 32)
    {r : Handle} (hr : Retired times r) : h.get? r = none := by
  obtain ⟨k, hk, hlt⟩ := hr
  refine Option.eq_none_iff_forall_ne_some.2 fun v hv => ?_
  have hgen := generationAt_of_occupant (occupant_of_get? hv)
  rw [ht.generation_eq, hk] at hgen
  have hsame := eq_of_ofNat_eq (hfew r.index) (hlt.trans (hfew r.index)) hgen
  omega

/-- **One action keeps the history.**  A handle that is given out is a new one: an old one of the same
slot has a count that is behind. -/
theorem Tracked.act (ht : Tracked h times handles) (hfew : ∀ i, times i < 2 ^ 32) (q : Action) :
    ∃ reply h', h.act? q = some (reply, h') ∧
      Tracked h' (fun i => times i + (h.vacates h' i).toNat) (handles ++ reply.toList) ∧
      ∀ r ∈ reply, r ∉ handles := by
  obtain ⟨reply, h', he, ho', hturn⟩ := ht.inOrder.act q
  refine ⟨reply, h', he, ⟨ho', fun i => ?_, fun r hr => ?_⟩, fun r hreply hr => ?_⟩
  · rw [hturn.generation_eq, ht.generation_eq]
    cases h.vacates h' i with
    | false => rfl
    | true => simp [UInt32.ofNat_add]
  · rcases List.mem_append.1 hr with hold | hnew
    · obtain ⟨k, hk, hle, huse⟩ := ht.given r hold
      refine ⟨k, hk, by omega, fun heq => ?_⟩
      -- the count has not moved, so the slot was in use and was not freed
      have hsame : k = times r.index ∧ h.vacates h' r.index = false := by
        cases hv : h.vacates h' r.index with
        | false => exact ⟨by simpa [hv] using heq, rfl⟩
        | true =>
          rw [hv] at heq
          simp only [Bool.toNat_true] at heq
          omega
      have hbefore := huse hsame.1
      have hkept := hsame.2
      rw [vacates, hbefore] at hkept
      simpa using hkept
    · obtain rfl : reply = some r := by simpa using hnew
      obtain ⟨hvacant, hgen, hin⟩ := hturn.given r rfl
      refine ⟨times r.index, ?_, by omega, fun _ => hin⟩
      rw [← hgen, ht.generation_eq]
  · obtain ⟨hvacant, hgen, -⟩ := hturn.given r hreply
    obtain ⟨k, hk, hle, huse⟩ := ht.given r hr
    rw [ht.generation_eq, hk] at hgen
    have hsame := eq_of_ofNat_eq (hfew r.index) (lt_of_le_of_lt hle (hfew r.index)) hgen
    have hin := huse hsame.symm
    rw [hvacant] at hin
    cases hin

/-- **A whole run keeps the history**, and gives out no handle twice, if no slot is freed so often
that its generations go round. -/
theorem Tracked.actAll (ht : Tracked h times handles) (hn : handles.Nodup) (qs : List Action)
    (hfew : ∀ i, times i + h.timesFreed i qs < 2 ^ 32) :
    ∃ replies h', h.actAll? qs = some (replies, h') ∧
      Tracked h' (fun i => times i + h.timesFreed i qs) (handles ++ replies.filterMap id) ∧
      (handles ++ replies.filterMap id).Nodup := by
  induction qs generalizing h times handles with
  | nil => exact ⟨[], h, rfl, by simpa [timesFreed] using ht, by simpa using hn⟩
  | cons q qs ih =>
    have hfew₀ := fun i => lt_of_le_of_lt (Nat.le_add_right _ _) (hfew i)
    obtain ⟨reply, h₁, he, ht₁, hnew⟩ := ht.act hfew₀ q
    have hcount : ∀ i, h.timesFreed i (q :: qs) = (h.vacates h₁ i).toNat + h₁.timesFreed i qs := by
      intro i
      rw [timesFreed, he]
    have hn₁ : (handles ++ reply.toList).Nodup := by
      refine hn.append (by cases reply <;> simp) fun r hr hreply => ?_
      exact hnew r (by simpa using hreply) hr
    have hfew₁ : ∀ i, times i + (h.vacates h₁ i).toNat + h₁.timesFreed i qs < 2 ^ 32 := by
      intro i
      have := hfew i
      rw [hcount] at this
      omega
    obtain ⟨replies, h₂, he₂, ht₂, hn₂⟩ := ih ht₁ hn₁ hfew₁
    have hhandles : handles ++ reply.toList ++ replies.filterMap id =
        handles ++ (reply :: replies).filterMap id := by
      cases reply <;> simp
    refine ⟨reply :: replies, h₂, by simp [actAll?, he, he₂], ?_, hhandles ▸ hn₂⟩
    rw [hhandles] at ht₂
    simpa [hcount, Nat.add_assoc] using ht₂

end Tracked

/-! ## 5. Runs in two parts -/

section Append

variable {h h' : Heap} {qs : List Action} {replies : List (Option Handle)}

/-- A run goes on from where its first part ends. -/
theorem actAll?_append (he : h.actAll? qs = some (replies, h')) (later : List Action) :
    h.actAll? (qs ++ later) = (h'.actAll? later).map fun (more, h) => (replies ++ more, h) := by
  induction qs generalizing h replies with
  | nil =>
    obtain ⟨rfl, rfl⟩ : [] = replies ∧ h = h' := by simpa [actAll?] using he
    simp
  | cons q qs ih =>
    rw [actAll?] at he
    split at he
    · cases he
    · next reply h₁ hq =>
      obtain ⟨⟨rest, h₂⟩, hrest, hpair⟩ := Option.map_eq_some_iff.1 he
      obtain ⟨rfl, rfl⟩ := Prod.mk.inj hpair
      simp only [List.cons_append, actAll?, hq, ih hrest, Option.map_map]
      rfl

/-- The counts of the two parts add up. -/
theorem timesFreed_append (he : h.actAll? qs = some (replies, h')) (later : List Action) (i : Nat) :
    h.timesFreed i (qs ++ later) = h.timesFreed i qs + h'.timesFreed i later := by
  induction qs generalizing h replies with
  | nil =>
    obtain ⟨-, rfl⟩ : [] = replies ∧ h = h' := by simpa [actAll?] using he
    simp [timesFreed]
  | cons q qs ih =>
    rw [actAll?] at he
    split at he
    · cases he
    · next reply h₁ hq =>
      obtain ⟨⟨rest, h₂⟩, hrest, hpair⟩ := Option.map_eq_some_iff.1 he
      obtain ⟨-, rfl⟩ := Prod.mk.inj hpair
      simp only [List.cons_append, timesFreed, hq, ih hrest, Nat.add_assoc]

/-- The first part of a run frees no slot more often than the whole. -/
theorem timesFreed_le_append (h : Heap) (qs later : List Action) (i : Nat) :
    h.timesFreed i qs ≤ h.timesFreed i (qs ++ later) := by
  induction qs generalizing h with
  | nil => exact Nat.zero_le _
  | cons q qs ih =>
    simp only [List.cons_append, timesFreed]
    split
    · exact le_rfl
    · next reply h₁ _ => exact Nat.add_le_add_left (ih h₁) _

end Append

/-! ## 6. Stale handles -/

/-- A write to a handle that does not resolve changes nothing. -/
theorem modifyValue_eq_self {h : Heap} {r : Handle} (hnone : h.record? r = none)
    (f : Value → Value) : h.modifyValue r f = h := by
  have hslots : (h.modifyValue r f).slots = h.slots := by
    refine Array.ext_getElem? fun i => ?_
    rw [modifyValue, getElem?_mapRecord]
    by_cases hi : r.index = i
    · subst hi
      rw [if_pos rfl]
      cases hs : h.slots[r.index]? with
      | none => rfl
      | some s =>
        cases s with
        | free g n c => rfl
        | live record =>
          have hg : record.generation ≠ r.generation := by simpa [record?, hs] using hnone
          rw [Option.map_some, Slot.mapRecord, if_neg hg]
    · rw [if_neg hi]
  show { h with slots := (h.modifyValue r f).slots } = h
  rw [hslots]

/-- **Stale handles never alias.**  In every run of actions on a new heap that frees no slot 2^32
times, no two values get the same handle; and a handle that was given out and does not resolve at
some time does not resolve at any later time: it has no value and no mark, and a write to it changes
nothing. -/
theorem handles_never_alias (config : HeapConfig) (earlier later : List Action)
    (hfew : ∀ i, (initial config).timesFreed i (earlier ++ later) < 2 ^ 32) :
    ∃ replies h replies' h', (initial config).actAll? earlier = some (replies, h) ∧
      h.actAll? later = some (replies', h') ∧
      (initial config).actAll? (earlier ++ later) = some (replies ++ replies', h') ∧
      ((replies ++ replies').filterMap id).Nodup ∧
      ∀ r, some r ∈ replies → h.get? r = none →
        h'.get? r = none ∧ h'.contains r = false ∧ h'.isMarked? r = none ∧
          ∀ f, h'.modifyValue r f = h' := by
  have hfirst : ∀ i, 0 + (initial config).timesFreed i earlier < 2 ^ 32 := by
    intro i
    have := timesFreed_le_append (initial config) earlier later i
    have := hfew i
    omega
  obtain ⟨replies, h, he, ht, hn⟩ := (Tracked.initial config).actAll List.nodup_nil earlier hfirst
  have hsecond : ∀ i, 0 + (initial config).timesFreed i earlier + h.timesFreed i later < 2 ^ 32 := by
    intro i
    have hi := hfew i
    rw [timesFreed_append he] at hi
    omega
  obtain ⟨replies', h', he', ht', hn'⟩ := ht.actAll hn later hsecond
  refine ⟨replies, h, replies', h', he, he', ?_, ?_, fun r hr hnone => ?_⟩
  · rw [actAll?_append he, he']
    rfl
  · simpa using hn'
  · -- the count of the slot was ahead of the handle by then, and counts never go back
    have hgiven : r ∈ [] ++ replies.filterMap id := by simpa using hr
    obtain ⟨k, hk, hlt⟩ := ht.retired hgiven hnone
    have hgone := ht'.get?_of_retired hsecond ⟨k, hk, by simp only at hlt ⊢; omega⟩
    have hrecord : h'.record? r = none := by simpa [get?] using hgone
    exact ⟨hgone, by simp [contains, hrecord], by simp [isMarked?, hrecord],
      modifyValue_eq_self hrecord⟩

/-- A value that is freed, and then another one that gets its slot. -/
def reuse : List Action × List Action :=
  ([.operation (.insert (.ofInt 1)), .operation (.collect [])], [.operation (.insert (.ofInt 2))])

/-- The second value gets the slot of the first under another handle, and the first handle stays
stale. -/
theorem handles_never_alias_reuse :
    ∃ h h', (initial .default).actAll? reuse.1 = some ([some ⟨0, 0⟩, none], h) ∧
      h.actAll? reuse.2 = some ([some ⟨0, 1⟩], h') ∧
      h.get? ⟨0, 0⟩ = none ∧ h'.get? ⟨0, 0⟩ = none := by
  have hfew : ∀ i, (initial .default).timesFreed i (reuse.1 ++ reuse.2) < 2 ^ 32 := fun i =>
    lt_of_le_of_lt (timesFreed_le_length _ i _) (by decide)
  obtain ⟨replies, h, replies', h', he, he', -, -, hstale⟩ :=
    handles_never_alias .default reuse.1 reuse.2 hfew
  have hcollect : ∀ h : Heap, h.collect? [] =
      sweep? { h with stats := { h.stats with collections := h.stats.collections + 1 } } := by
    intro h
    rw [collect?, mark, markFrom]
  have hrun : (initial .default).actAll? reuse.1 = some ([some ⟨0, 0⟩, none],
      ⟨#[.free 1 none 1], none, none, some 0, 0, .default, ⟨1, 1, 1⟩⟩) := by
    simp only [reuse, actAll?, act?, perform?, hcollect]
    rfl
  have hlater : actAll? ⟨#[.free 1 none 1], none, none, some 0, 0, .default, ⟨1, 1, 1⟩⟩ reuse.2 =
      some ([some ⟨0, 1⟩], ⟨#[.live ⟨.ofInt 2, 1, false, none, none⟩], some 0, some 0, none, 1,
        .default, ⟨2, 1, 1⟩⟩) := rfl
  obtain ⟨rfl, rfl⟩ := Prod.mk.inj (Option.some.inj (hrun.symm.trans he))
  obtain ⟨rfl, rfl⟩ := Prod.mk.inj (Option.some.inj (hlater.symm.trans he'))
  exact ⟨_, _, he, he', rfl, (hstale ⟨0, 0⟩ (by simp) rfl).1⟩

end ScriptMachine.Heap
