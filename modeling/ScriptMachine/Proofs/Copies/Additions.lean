/-
# What allocations leave of a machine

A value that is about to be placed may be preceded by a collection.  What the roots reach is not
touched by it (`Machine.Spares`), so whoever reads only below a root need not know about collections.

If every new value is made a temporary root at once, more can be said (`Machine.Augments`): a slot is
then given up at most once, since its next occupant is a root.  So the generations of its occupants
do not go round, and a handle that is new in one step is new in all of them.

* `Machine.tryAllocate_cases`: one allocation;
* `Spares.trans`, `Augments.trans`: one after the other;
* `Augments.write`: a change of a value that is new;
* `Augments.fresh`: what is new after some steps was not live before the first;
* `Machine.Collects.maxSlots_le_reached`: when an allocation fails although the collector runs.
-/
import Mathlib.Data.Set.Basic
import ScriptMachine.Proofs.Heap.Handles
import ScriptMachine.Proofs.Twin.Memory

namespace ScriptMachine

/-! ## 1. What lies below a reference -/

/-- A heap on which whatever a live value holds resolves. -/
def Heap.Closed (h : Heap) : Prop :=
  ∀ a v, h.get? a = some v → ∀ b ∈ v.refs, ∃ w, h.get? b = some w

/-- The handles that can be reached from a reference. -/
def Heap.Below (h : Heap) (r : Ref) : Set Handle :=
  {a | Heap.Reach h.get? r.handle?.toList a}

/-- Whatever the values below a reference hold resolves. -/
def Heap.ClosedBelow (h : Heap) (r : Ref) : Prop :=
  ∀ a ∈ h.Below r, ∀ v, h.get? a = some v → ∀ b ∈ v.refs, ∃ w, h.get? b = some w

/-- A singleton, or a value that the roots reach. -/
def Machine.Rooted (m : Machine) (r : Ref) : Prop :=
  ∀ a, r = .heap a → Heap.Reach m.heap.get? m.roots a

theorem Ref.mem_handle? {r : Ref} {a : Handle} : a ∈ r.handle?.toList ↔ r = .heap a := by
  cases r with
  | nil => simp [Ref.handle?]
  | bool b => simp [Ref.handle?]
  | heap b => simp [Ref.handle?, eq_comm]

section Below

variable {h h' : Heap} {r : Ref} {a b : Handle} {v w : Value}

theorem Heap.Closed.below (hcl : h.Closed) (r : Ref) : h.ClosedBelow r :=
  fun a _ v hv => hcl a v hv

/-- A value lies below its own handle. -/
theorem Heap.below_heap (hv : h.get? a = some v) : a ∈ h.Below (.heap a) :=
  .root (Ref.mem_handle?.2 rfl) hv

/-- With a value, what it holds lies below a reference. -/
theorem Heap.below_edge (ha : a ∈ h.Below r) (hv : h.get? a = some v) (hb : b ∈ v.refs)
    (hw : h.get? b = some w) : b ∈ h.Below r :=
  Heap.Reach.edge ha hv hb hw

/-- Nothing lies below a singleton. -/
theorem Heap.not_below_of_singleton (hr : ∀ c, r ≠ .heap c) : a ∉ h.Below r := by
  intro ha
  exact Heap.Reach.mem_of_closed (P := fun _ => False) (fun c hc _ _ => hr c (Ref.mem_handle?.1 hc))
    (fun _ _ _ hf => hf.elim) ha

/-- What lies below a rooted reference can be reached from the roots. -/
theorem Machine.Rooted.reach {m : Machine} (hr : m.Rooted r) (ha : a ∈ m.heap.Below r) :
    Heap.Reach m.heap.get? m.roots a :=
  Heap.Reach.of_subset ha fun c hc _ _ => hr c (Ref.mem_handle?.1 hc)

/-- What lies below a reference depends only on the values there. -/
theorem Heap.below_subset (heq : ∀ c ∈ h.Below r, h'.get? c = h.get? c) :
    h.Below r ⊆ h'.Below r := by
  intro c hc
  induction hc with
  | @root c x hmem hx => exact .root hmem ((heq c (.root hmem hx)).trans hx)
  | @edge c d x y hc hx hmem hy ih =>
    exact ih.edge ((heq c hc).trans hx) hmem ((heq d (.edge hc hx hmem hy)).trans hy)

/-- Where nothing below a reference has changed and all of it resolves, the same handles lie below
it. -/
theorem Heap.below_eq (heq : ∀ c ∈ h.Below r, h'.get? c = h.get? c) (hcl : h.ClosedBelow r)
    (hr : ∀ c, r = .heap c → ∃ x, h.get? c = some x) : h'.Below r = h.Below r := by
  refine Set.Subset.antisymm (fun c hc => ?_) (Heap.below_subset heq)
  induction hc with
  | @root c x hmem _ =>
    obtain ⟨y, hy⟩ := hr c (Ref.mem_handle?.1 hmem)
    exact .root hmem hy
  | @edge c d x y _ hx hmem _ ih =>
    have hx' : h.get? c = some x := (heq c ih).symm.trans hx
    obtain ⟨z, hz⟩ := hcl c ih x hx' d hmem
    exact ih.edge hx' hmem hz

/-- What lies below an item of a value lies below the value. -/
theorem Heap.below_item {e : Ref} (hv : h.get? a = some v) (he : e ∈ v.payload.items)
    (hb : b ∈ h.Below e) : b ∈ h.Below (.heap a) := by
  refine Heap.Reach.of_subset hb fun c hc x hx => ?_
  obtain rfl := Ref.mem_handle?.1 hc
  exact Heap.below_edge (Heap.below_heap hv) hv (Payload.mem_refs.2 he) hx

end Below

namespace Machine

variable {m : Machine} {r e : Ref} {a : Handle} {v w : Value}

theorem resolve_heap : m.resolve (.heap a) = .ok v ↔ m.heap.get? a = some v := by
  rw [resolve]
  split
  · next w hw => rw [hw, Except.ok.injEq, Option.some.injEq]
  · next hw => simp [hw]

/-- Only values on the heap have items. -/
theorem exists_handle (hv : m.resolve r = .ok v) (he : e ∈ v.payload.items) :
    ∃ a, r = .heap a ∧ m.heap.get? a = some v := by
  cases r with
  | nil =>
    obtain rfl := Except.ok.inj hv
    cases he
  | bool b =>
    obtain rfl := Except.ok.inj hv
    cases he
  | heap a => exact ⟨a, rfl, resolve_heap.1 hv⟩

/-- On a closed heap the items of a value resolve. -/
theorem exists_resolve_item (hcl : m.heap.Closed) (hv : m.resolve r = .ok v)
    (he : e ∈ v.payload.items) : ∃ w, m.resolve e = .ok w := by
  cases e with
  | nil => exact ⟨_, rfl⟩
  | bool b => exact ⟨_, rfl⟩
  | heap b =>
    obtain ⟨a, rfl, ha⟩ := exists_handle hv he
    obtain ⟨w, hw⟩ := hcl a v ha b (Payload.mem_refs.2 he)
    exact ⟨w, resolve_heap.2 hw⟩

/-- An item of a rooted value is rooted. -/
theorem Rooted.item (hr : m.Rooted r) (hv : m.resolve r = .ok v)
    (he : e ∈ v.payload.items) (hw : m.resolve e = .ok w) : m.Rooted e := by
  rintro b rfl
  obtain ⟨a, rfl, ha⟩ := exists_handle hv he
  exact (hr a rfl).edge ha (Payload.mem_refs.2 he) (resolve_heap.1 hw)

/-- A temporary root is reached. -/
theorem reach_of_temp (ha : Ref.heap a ∈ m.temps.toList) (hv : m.heap.get? a = some v) :
    Heap.Reach m.heap.get? m.roots a :=
  .root (List.mem_append_left _ (List.mem_filterMap.2 ⟨_, ha, rfl⟩)) hv

/-- More temporary roots. -/
theorem mem_roots_of_temps {temps : Array Ref} (htemps : m.temps.toList <+: temps.toList)
    (ha : a ∈ m.roots) : a ∈ { m with temps }.roots := by
  rcases List.mem_append.1 ha with ha | ha
  · exact List.mem_append_left _ ((htemps.sublist.filterMap _).subset ha)
  · exact List.mem_append_right _ ha

end Machine

/-! ## 2. Reachable values are spared -/

/-- A machine with another heap and more temporary roots, on which nothing the roots reach has
changed. -/
structure Machine.Spares (m m' : Machine) : Prop where
  parts : m' = { m with heap := m'.heap, temps := m'.temps }
  temps : m.temps.toList <+: m'.temps.toList
  wellFormed : m'.heap.WellFormed
  kept : ∀ a, Heap.Reach m.heap.get? m.roots a → m'.heap.get? a = m.heap.get? a

namespace Machine.Spares

variable {m m' m'' : Machine} {a : Handle} {r : Ref}

theorem refl (hw : m.heap.WellFormed) : m.Spares m :=
  ⟨rfl, List.prefix_rfl, hw, fun _ _ => rfl⟩

theorem mem_roots (h : m.Spares m') (ha : a ∈ m.roots) : a ∈ m'.roots := by
  rw [h.parts]
  exact mem_roots_of_temps (m := { m with heap := m'.heap }) h.temps ha

theorem reach (h : m.Spares m') (ha : Heap.Reach m.heap.get? m.roots a) :
    Heap.Reach m'.heap.get? m'.roots a := by
  induction ha with
  | @root a v hroot hv => exact .root (h.mem_roots hroot) ((h.kept a (.root hroot hv)).trans hv)
  | @edge a b v w ha hv hmem hw ih =>
    exact ih.edge ((h.kept a ha).trans hv) hmem ((h.kept b (.edge ha hv hmem hw)).trans hw)

theorem rooted (h : m.Spares m') (hr : m.Rooted r) : m'.Rooted r :=
  fun a ha => h.reach (hr a ha)

theorem trans (h : m.Spares m') (h' : m'.Spares m'') : m.Spares m'' where
  parts := by rw [h'.parts, h.parts]
  temps := h.temps.trans h'.temps
  wellFormed := h'.wellFormed
  kept a ha := (h'.kept a (h.reach ha)).trans (h.kept a ha)

/-- Nothing below a rooted reference has changed. -/
theorem get?_below (h : m.Spares m') (hr : m.Rooted r) (ha : a ∈ m.heap.Below r) :
    m'.heap.get? a = m.heap.get? a :=
  h.kept a (hr.reach ha)

/-- The same handles lie below a rooted reference. -/
theorem below_eq (h : m.Spares m') (hr : m.Rooted r) (hcl : m.heap.ClosedBelow r) :
    m'.heap.Below r = m.heap.Below r :=
  Heap.below_eq (fun _ ha => h.get?_below hr ha) hcl fun c hc => (hr c hc).resolves

theorem closedBelow (h : m.Spares m') (hr : m.Rooted r) (hcl : m.heap.ClosedBelow r) :
    m'.heap.ClosedBelow r := by
  intro a ha v hv b hb
  rw [h.below_eq hr hcl] at ha
  rw [h.get?_below hr ha] at hv
  obtain ⟨w, hw⟩ := hcl a ha v hv b hb
  exact ⟨w, (h.get?_below hr (Heap.below_edge ha hv hb hw)).trans hw⟩

/-- A temporary root resolves as before. -/
theorem get?_temp (h : m.Spares m') {v : Value} (ha : Ref.heap a ∈ m.temps.toList)
    (hv : m.heap.get? a = some v) : m'.heap.get? a = some v :=
  (h.kept a (reach_of_temp ha hv)).trans hv

end Machine.Spares

/-! ## 3. Slots that are given up once -/

/-- A machine that has made room and has made new values, each a temporary root at once. -/
structure Machine.Augments (m m' : Machine) : Prop extends m.Spares m' where
  /-- Whatever is new is a temporary root. -/
  added : ∀ a v, m.heap.get? a = none → m'.heap.get? a = some v → Ref.heap a ∈ m'.temps.toList
  /-- A slot whose occupant is gone was given up once. -/
  gone : ∀ a v, m.heap.get? a = some v → m'.heap.get? a = none →
    Heap.generationAt m'.heap.slots a.index = a.generation + 1
  /-- A slot that had no occupant was not given up. -/
  idle : ∀ i, Heap.occupant m.heap.slots i = none →
    Heap.generationAt m'.heap.slots i = Heap.generationAt m.heap.slots i

/-- The generation of a slot is that of whoever resolves there. -/
theorem Heap.generationAt_of_get? {h : Heap} {a : Handle} {v : Value} (hv : h.get? a = some v) :
    Heap.generationAt h.slots a.index = a.generation :=
  Heap.generationAt_of_occupant (Heap.occupant_of_get? hv)

/-- A slot in use has a handle that resolves. -/
theorem Heap.exists_get?_of_occupant {h : Heap} {i : Nat} (ho : (Heap.occupant h.slots i).isSome) :
    ∃ v, h.get? ⟨i, Heap.generationAt h.slots i⟩ = some v := by
  obtain ⟨⟨g, v⟩, hg⟩ := Option.isSome_iff_exists.1 ho
  refine ⟨v, ?_⟩
  rw [Heap.get?_eq, hg, Heap.generationAt_of_occupant hg]
  simp

/-- The next handle of a slot in use does not resolve. -/
theorem Heap.get?_next {h : Heap} {a : Handle} {v : Value} (hv : h.get? a = some v) :
    h.get? ⟨a.index, a.generation + 1⟩ = none := by
  cases hw : h.get? ⟨a.index, a.generation + 1⟩ with
  | none => rfl
  | some w =>
    have hsame : a.generation = a.generation + 1 :=
      congrArg Handle.generation (Heap.handle_eq_of_index hv hw rfl)
    exact absurd hsame (by simp)

namespace Machine.Augments

variable {m m' m'' : Machine} {a : Handle}

theorem refl (hw : m.heap.WellFormed) : m.Augments m where
  toSpares := .refl hw
  added a v hnone hv := by rw [hnone] at hv; cases hv
  gone a v hv hnone := by rw [hv] at hnone; cases hnone
  idle _ _ := rfl

/-- A slot whose occupant is new keeps it. -/
theorem generationAt_of_added (h : m.Augments m') (h' : m'.Augments m'') {v : Value}
    (hnone : m.heap.get? a = none) (hv : m'.heap.get? a = some v) :
    Heap.generationAt m''.heap.slots a.index = a.generation :=
  Heap.generationAt_of_get? (h'.get?_temp (h.added a v hnone hv) hv)

/-- A slot that was given up is not given up again: its next occupant, if there is one, is a root. -/
theorem generationAt_of_gone (h : m.Augments m') (h' : m'.Augments m'') {v : Value}
    (hv : m.heap.get? a = some v) (hnone : m'.heap.get? a = none) :
    Heap.generationAt m''.heap.slots a.index = a.generation + 1 := by
  have hgen := h.gone a v hv hnone
  by_cases ho : (Heap.occupant m'.heap.slots a.index).isSome
  · obtain ⟨w, hw⟩ := Heap.exists_get?_of_occupant ho
    rw [hgen] at hw
    exact h.generationAt_of_added h' (Heap.get?_next hv) hw
  · rw [h'.idle a.index (by simpa using ho), hgen]

theorem trans (h : m.Augments m') (h' : m'.Augments m'') : m.Augments m'' where
  toSpares := h.toSpares.trans h'.toSpares
  added a v hnone hv := by
    cases hmid : m'.heap.get? a with
    | none => exact h'.added a v hmid hv
    | some w => exact h'.temps.subset (h.added a w hnone hmid)
  gone a v hv hnone := by
    cases hmid : m'.heap.get? a with
    | none => exact h.generationAt_of_gone h' hv hmid
    | some w => exact h'.gone a w hmid hnone
  idle i ho := by
    have hgen := h.idle i ho
    by_cases hmid : (Heap.occupant m'.heap.slots i).isSome
    · obtain ⟨w, hw⟩ := Heap.exists_get?_of_occupant hmid
      have hnone : m.heap.get? ⟨i, Heap.generationAt m'.heap.slots i⟩ = none := by
        rw [Heap.get?_eq, ho]
        rfl
      exact (h.generationAt_of_added h' hnone hw).trans hgen
    · rw [h'.idle i (by simpa using hmid), hgen]

/-- **What is new stays new**: a handle that a later step was the first to give out was not live
before the steps that went before it. -/
theorem fresh (h : m.Augments m') (h' : m'.Augments m'') {w : Value}
    (hnone : m'.heap.get? a = none) (hw : m''.heap.get? a = some w) : m.heap.get? a = none := by
  cases hv : m.heap.get? a with
  | none => rfl
  | some v =>
    have hgen := h.generationAt_of_gone h' hv hnone
    rw [Heap.generationAt_of_get? hw] at hgen
    exact absurd hgen (by simp)

/-- A change of a value that is new. -/
theorem write (h : m.Augments m') (ha : m.heap.get? a = none) (f : Payload → Payload) :
    m.Augments (m'.modifyPayload (.heap a) f) := by
  have hiff : ∀ b, (m'.heap.modifyPayload a f).get? b = none ↔ m'.heap.get? b = none := by
    intro b
    rw [Heap.modifyPayload, Heap.get?_modifyValue]
    split <;> simp
  have hgen : ∀ i, Heap.generationAt (m'.heap.modifyPayload a f).slots i =
      Heap.generationAt m'.heap.slots i := by
    intro i
    exact Heap.generationAt_mapRecord _ _ _ fun record => by split <;> rfl
  refine ⟨⟨?_, h.temps, ?_, fun b hb => ?_⟩, fun b v hnone hv => ?_, fun b v hv hnone => ?_,
    fun i hi => ?_⟩
  · rw [h.parts]
    rfl
  · obtain ⟨used, free, hl⟩ := h.wellFormed
    exact ⟨used, free, hl.write a fun v => { v with payload := f v.payload }⟩
  · have hne : b ≠ a := by
      rintro rfl
      obtain ⟨v, hv⟩ := Heap.Reach.resolves hb
      rw [ha] at hv
      cases hv
    rw [← h.kept b hb]
    simp only [Machine.modifyPayload, Heap.modifyPayload, Heap.get?_modifyValue, if_neg hne]
  · cases hb : m'.heap.get? b with
    | none =>
      have hnone' : (m'.heap.modifyPayload a f).get? b = none := (hiff b).2 hb
      rw [Machine.modifyPayload] at hv
      rw [hnone'] at hv
      cases hv
    | some w => exact h.added b w hnone hb
  · exact (hgen _).trans (h.gone b v hv ((hiff b).1 hnone))
  · exact (hgen i).trans (h.idle i hi)

end Machine.Augments

/-! ## 4. One allocation -/

/-- Finitely many values can be reached, no more than there are live. -/
theorem Heap.WellFormed.finite_reach {h : Heap} (hw : h.WellFormed) (roots : List Handle) :
    {a | Heap.Reach h.get? roots a}.Finite ∧ {a | Heap.Reach h.get? roots a}.ncard ≤ h.live := by
  obtain ⟨used, free, hl⟩ := hw
  have hsub : {a | Heap.Reach h.get? roots a} ⊆ {a | h.contains a = true} := fun a ha => by
    rw [Set.mem_ofPred_eq, Heap.contains_eq, Option.isSome_iff_exists]
    exact Heap.Reach.resolves ha
  refine ⟨hl.ncard_resolving.2.subset hsub, ?_⟩
  rw [← hl.ncard_resolving.1]
  exact Set.ncard_le_ncard hsub hl.ncard_resolving.2

/-- Finitely many values lie below a reference, no more than there are live. -/
theorem Heap.WellFormed.finite_below {h : Heap} (hw : h.WellFormed) (r : Ref) :
    (h.Below r).Finite ∧ (h.Below r).ncard ≤ h.live :=
  hw.finite_reach _

/-- Fewer handles resolve on a smaller heap. -/
theorem Heap.WellFormed.live_le {h h' : Heap} (hw : h.WellFormed) (hw' : h'.WellFormed)
    (hsub : ∀ a v, h'.get? a = some v → h.get? a = some v) : h'.live ≤ h.live := by
  obtain ⟨used, free, hl⟩ := hw
  obtain ⟨used', free', hl'⟩ := hw'
  have hlen := hl.length_le_live hl'.nodup_listing fun a ha => by
    obtain ⟨⟨b, v⟩, hb, rfl⟩ := List.mem_map.1 ha
    exact ⟨v, hsub b v ((hl'.mem_listing_iff b v).1 hb)⟩
  rw [List.length_map, hl'.length_listing, ← hl'.live_eq] at hlen
  exact hlen

/-- An insertion, with what it makes of occupants and generations. -/
theorem Heap.WellFormed.insert {h : Heap} (hw : h.WellFormed) (v : Value) :
    (∃ a h', h.insert v = (.ok a, h') ∧ h'.WellFormed ∧ h.Inserted v a h' ∧
      h.Turnover (some a) h') ∨
    (h.insert v = (.error .allocFailed, h) ∧ Heap.maxSlots ≤ h.live) := by
  obtain ⟨used, free, hl⟩ := hw
  rcases hl.insert v with ⟨a, h', free', hok, hl', hi⟩ | ⟨hfull, hmax, hlive⟩
  · refine .inl ⟨a, h', hok, ⟨_, free', hl'⟩, hi, ?_⟩
    rcases Heap.InOrder.insert ⟨used, free, hl.toArranged, hl.free_eq⟩ v with
      ⟨b, k, hok', -, ht⟩ | hfull
    · obtain ⟨hab, rfl⟩ := Prod.mk.inj (hok.symm.trans hok')
      obtain rfl := Except.ok.inj hab
      exact ht
    · rw [hok] at hfull
      cases hfull
  · exact .inr ⟨hfull, hlive ▸ hmax⟩

/-- A heap stays in order, whether or not it takes a value. -/
theorem Heap.WellFormed.insert_snd {h : Heap} (hw : h.WellFormed) (v : Value) :
    (h.insert v).2.WellFormed := by
  rcases hw.insert v with ⟨a, h', he, hw', -⟩ | ⟨he, -⟩
  · rw [he]
    exact hw'
  · rw [he]
    exact hw

/-- Making room frees slots, each at most once. -/
theorem Machine.thins_of_makeRoom? {m : Machine} {v : Value} {h : Heap}
    (he : m.makeRoom? v = some { m with heap := h }) : m.heap.Thins h := by
  unfold Machine.makeRoom? at he
  split at he
  · obtain ⟨⟨n, m₁⟩, hc, hm⟩ := Option.map_eq_some_iff.1 he
    obtain ⟨⟨k, h₁⟩, hcol, heq⟩ := Option.map_eq_some_iff.1 hc
    obtain ⟨-, rfl⟩ := Prod.mk.inj heq
    obtain rfl : h₁ = h := congrArg Machine.heap hm
    exact .collect hcol
  · obtain rfl : m.heap = h := congrArg Machine.heap (Option.some.inj he)
    exact .of_eq (fun _ => rfl) fun _ => rfl

section Placed

variable {h₀ h h' : Heap} {a b : Handle} {x : Value} {i : Nat}

/-- The slot that a value was placed in was vacant before room was made, or has been given up for
it. -/
theorem Heap.Turnover.fresh (hturn : h.Turnover (some a) h') (hthin : h₀.Thins h) :
    h₀.get? a = none := by
  obtain ⟨hvac, hgen, -⟩ := hturn.given a rfl
  cases hx : h₀.get? a with
  | none => rfl
  | some x =>
    have hgone := hthin.generation_eq a.index
    rw [Heap.vacates, Heap.occupant_of_get? hx, hvac, Heap.generationAt_of_get? hx] at hgone
    exact absurd (hgen.symm.trans hgone) (by simp)

/-- A slot that is vacant when a value is placed has the generation that the sweep left it. -/
theorem Heap.Turnover.generationAt_of_vacant (hturn : h.Turnover (some a) h')
    (hempty : Heap.occupant h.slots i = none) :
    Heap.generationAt h'.slots i = Heap.generationAt h.slots i := by
  have hturned := hturn.generation_eq i
  rw [Heap.vacates, hempty] at hturned
  exact hturned

/-- A slot that a sweep frees is given up once. -/
theorem Heap.Thins.generationAt_of_gone (hthin : h₀.Thins h) (hx : h₀.get? b = some x)
    (hnone : h.get? b = none) : Heap.occupant h.slots b.index = none ∧
      Heap.generationAt h.slots b.index = b.generation + 1 := by
  have hempty : Heap.occupant h.slots b.index = none := by
    rcases hthin.kept b.index with hvac | hsame
    · exact hvac
    · rw [← Heap.get?_congr hsame, hnone] at hx
      cases hx
  have hgone := hthin.generation_eq b.index
  rw [Heap.vacates, Heap.occupant_of_get? hx, hempty, Heap.generationAt_of_get? hx] at hgone
  exact ⟨hempty, hgone⟩

/-- A sweep leaves a vacant slot alone. -/
theorem Heap.Thins.generationAt_of_idle (hthin : h₀.Thins h)
    (ho : Heap.occupant h₀.slots i = none) : Heap.occupant h.slots i = none ∧
      Heap.generationAt h.slots i = Heap.generationAt h₀.slots i := by
  have hempty : Heap.occupant h.slots i = none := by
    rcases hthin.kept i with hvac | hsame
    · exact hvac
    · rw [hsame, ho]
  have hgone := hthin.generation_eq i
  rw [Heap.vacates, ho] at hgone
  exact ⟨hempty, hgone⟩

variable {v : Value} {roots : List Handle}

/-- Whatever was live before room was made is found where the sweep left it. -/
theorem Heap.Inserted.get?_of_live (hi : h.Inserted v a h') (hfresh : h₀.get? a = none)
    (hx : h₀.get? b = some x) : h'.get? b = h.get? b := by
  have hne : b ≠ a := by
    rintro rfl
    rw [hfresh] at hx
    cases hx
  rw [hi.get?_eq, if_neg hne]

/-- A closed heap stays closed, if the new value refers to nothing that the sweep took. -/
theorem Heap.Inserted.closed (hi : h.Inserted v a h') (ht : h₀.Trimmed roots h)
    (hfresh : h₀.get? a = none) (hcl : h₀.Closed)
    (hrefs : ∀ b ∈ v.refs, ∃ w, h'.get? b = some w) : h'.Closed := by
  intro b x hx c hc
  rw [hi.get?_eq] at hx
  split at hx
  · obtain rfl := Option.some.inj hx
    exact hrefs c hc
  · -- what an older value refers to survived with it
    obtain ⟨y, hy⟩ := hcl b x (ht.sub b x hx) c hc
    exact ⟨y, (hi.get?_of_live hfresh hy).trans (ht.closed b x hx c hc y hy)⟩

end Placed

/-- What an allocation that finds a place makes of a machine. -/
structure Machine.Allocates (m : Machine) (v : Value) (a : Handle) (m' : Machine) : Prop where
  eq : m.tryAllocate v = (.ok (.heap a), m')
  temps_eq : m'.temps = m.temps
  spares : m.Spares m'
  augments : m.Augments (m'.root (.heap a))
  fresh : m.heap.get? a = none
  get?_eq : m'.heap.get? a = some v
  live_le : m'.heap.live ≤ m.heap.live + 1
  config_eq : m'.heap.config = m.heap.config
  closed : m.heap.Closed → (∀ b ∈ v.refs, ∃ w, m'.heap.get? b = some w) → m'.heap.Closed

/-- **One allocation**: it finds a place, or all of the 2^32 slots are in use. -/
theorem Machine.tryAllocate_cases {m : Machine} (hw : m.heap.WellFormed) (v : Value) :
    (∃ a m', m.Allocates v a m') ∨
    (∃ m', m.tryAllocate v = (.error .allocFailed, m') ∧ Heap.maxSlots ≤ m'.heap.live ∧
      m'.heap.live ≤ m.heap.live) := by
  obtain ⟨h, he, ht⟩ := Machine.makeRoom?_eq hw v
  have hthin := Machine.thins_of_makeRoom? he
  have hlive := hw.live_le ht.wellFormed ht.sub
  have htry : m.tryAllocate v =
      ((h.insert v).1.map Ref.heap, { m with heap := (h.insert v).2 }) := by
    rw [Machine.tryAllocate, he]
    rfl
  rcases ht.wellFormed.insert v with ⟨a, h', hok, hw', hi, hturn⟩ | ⟨hfull, hmax⟩
  swap
  · rw [hfull] at htry
    exact .inr ⟨_, htry, hmax, hlive⟩
  rw [hok] at htry
  have hfresh : m.heap.get? a = none := hturn.fresh hthin
  have hkept : ∀ b, Heap.Reach m.heap.get? m.roots b → h'.get? b = m.heap.get? b := by
    intro b hb
    obtain ⟨x, hx⟩ := hb.resolves
    rw [hi.get?_of_live hfresh hx, hx]
    exact ht.kept b x (hb.of_subset fun c hc y hy => .root (List.mem_append_right _ hc) hy) hx
  have hspares : m.Spares { m with heap := h' } := ⟨rfl, List.prefix_rfl, hw', hkept⟩
  refine .inl ⟨a, _, htry, rfl, hspares, ⟨⟨rfl, ?_, hw', hkept⟩, ?_, ?_, ?_⟩, hfresh, ?_, ?_,
    hi.config_eq.trans ht.config_eq, hi.closed ht hfresh⟩
  · simp [Machine.root]
  · intro b x hnone hx
    have hx' : h'.get? b = some x := hx
    by_cases hb : b = a
    · simp [hb, Machine.root]
    · rw [hi.get?_eq, if_neg hb] at hx'
      rw [ht.sub b x hx'] at hnone
      cases hnone
  · intro b x hx hnone
    obtain ⟨hempty, hgone⟩ := hthin.generationAt_of_gone hx
      ((hi.get?_of_live hfresh hx).symm.trans hnone)
    exact (hturn.generationAt_of_vacant hempty).trans hgone
  · intro i ho
    obtain ⟨hempty, hidle⟩ := hthin.generationAt_of_idle ho
    exact (hturn.generationAt_of_vacant hempty).trans hidle
  · simpa using hi.get?_eq a
  · have := hi.live_eq
    change h'.live ≤ _
    omega

/-! ## 5. A collector that runs -/

namespace Machine

variable {m m' : Machine} {v x : Value} {a : Handle} {h : Heap}

/-- How many values can be reached from the roots of a machine. -/
noncomputable def reached (m : Machine) : Nat := {a | Heap.Reach m.heap.get? m.roots a}.ncard

/-- The collector is on and due before all slots are in use, and whatever the roots hold resolves. -/
structure Collects (m : Machine) : Prop where
  enabled : m.heap.config.enabled = true
  threshold_lt : m.heap.config.threshold < Heap.maxSlots
  roots : ∀ a ∈ m.roots, ∃ v, m.heap.get? a = some v

/-- A collection that makes room leaves what can be reached, and nothing else. -/
theorem reach_of_makeRoom? (hw : m.heap.WellFormed) (hdue : m.heap.shouldCollect = true)
    (he : m.makeRoom? v = some { m with heap := h }) (ha : h.get? a = some x) :
    Heap.Reach m.heap.get? (v.refs ++ m.roots) a := by
  obtain ⟨used, free, hl⟩ := hw
  obtain ⟨n, h', hcollect, hc⟩ := hl.collect (v.refs ++ m.roots)
  rw [makeRoom?, if_pos hdue, collectKeeping?, hcollect] at he
  obtain rfl : h' = h := congrArg Machine.heap (Option.some.inj he)
  exact ((hc.get?_iff a x).1 ha).2

/-- **With a collector that runs**, a value without references is refused only if the roots reach as
many values as there are slots. -/
theorem Collects.maxSlots_le_reached (hc : m.Collects) (hw : m.heap.WellFormed)
    (hrefs : v.refs = []) {why : Refusal} (hfull : m.tryAllocate v = (.error why, m')) :
    Heap.maxSlots ≤ m.reached := by
  obtain ⟨h, he, ht, ⟨a, h', hok, -⟩ | ⟨-, hmax, -⟩⟩ := tryAllocate_eq hw v
  · rw [hok] at hfull
    cases hfull
  by_cases hdue : m.heap.shouldCollect = true
  · obtain ⟨used, free, hl⟩ := ht.wellFormed
    have hsub : {a | h.contains a = true} ⊆ {a | Heap.Reach m.heap.get? m.roots a} := by
      intro a ha
      rw [Set.mem_ofPred_eq, Heap.contains_eq, Option.isSome_iff_exists] at ha
      obtain ⟨x, hx⟩ := ha
      have hreach := reach_of_makeRoom? hw hdue he hx
      rwa [hrefs, List.nil_append] at hreach
    calc Heap.maxSlots ≤ h.live := hmax
      _ = {a | h.contains a = true}.ncard := hl.ncard_resolving.1.symm
      _ ≤ m.reached := Set.ncard_le_ncard hsub (hw.finite_reach m.roots).1
  · -- there are no more values than the threshold, which is below the number of slots
    rw [makeRoom?, if_neg hdue] at he
    obtain rfl : m.heap = h := congrArg Machine.heap (Option.some.inj he)
    have hlow : ¬m.heap.config.threshold < m.heap.live := by
      simpa [Heap.shouldCollect, hc.enabled] using hdue
    have hlt := hc.threshold_lt
    omega

theorem Spares.roots_eq (h : m.Spares m') (htemps : m'.temps = m.temps) : m'.roots = m.roots := by
  rw [h.parts, htemps]
  rfl

/-- Allocations leave the roots with what they reached. -/
theorem Spares.reached_le (h : m.Spares m') (htemps : m'.temps = m.temps) (hw : m.heap.WellFormed)
    (hcl : m.heap.Closed) (hroots : ∀ a ∈ m.roots, ∃ v, m.heap.get? a = some v) :
    m'.reached ≤ m.reached := by
  refine Set.ncard_le_ncard (fun a ha => ?_) (hw.finite_reach m.roots).1
  rw [Set.mem_ofPred_eq, h.roots_eq htemps] at ha
  induction ha with
  | @root a _ hmem _ =>
    obtain ⟨v, hv⟩ := hroots a hmem
    exact .root hmem hv
  | @edge a b v _ _ hv hmem _ ih =>
    have hold : m.heap.get? a = some v := (h.kept a ih).symm.trans hv
    obtain ⟨w, hw⟩ := hcl a v hold b hmem
    exact Heap.Reach.edge ih hold hmem hw

theorem Spares.collects (h : m.Spares m') (htemps : m'.temps = m.temps)
    (hconfig : m'.heap.config = m.heap.config) (hc : m.Collects) : m'.Collects where
  enabled := hconfig ▸ hc.enabled
  threshold_lt := hconfig ▸ hc.threshold_lt
  roots := by
    rw [h.roots_eq htemps]
    intro a ha
    obtain ⟨v, hv⟩ := hc.roots a ha
    exact ⟨v, (h.kept a (.root ha hv)).trans hv⟩

theorem mem_roots_root {r : Ref} : a ∈ (m.root r).roots ↔ a ∈ m.roots ∨ r = .heap a := by
  cases r with
  | nil => simp [root]
  | bool b => simp [root]
  | heap b => simp [root, roots, Ref.handle?, or_assoc, or_comm, eq_comm]

/-- A value that the roots reach may be made one of them. -/
theorem Rooted.reached_root {r : Ref} (hr : m.Rooted r) (hw : m.heap.WellFormed) :
    (m.root r).reached ≤ m.reached := by
  refine Set.ncard_le_ncard (fun a ha => ?_) (hw.finite_reach m.roots).1
  rw [Set.mem_ofPred_eq, heap_root] at ha
  refine Heap.Reach.of_subset ha fun c hc x hx => ?_
  rcases mem_roots_root.1 hc with hc | hc
  · exact .root hc hx
  · exact hr c hc

theorem Collects.root {r : Ref} (hc : m.Collects) (hr : m.resolve r = .ok v) :
    (m.root r).Collects := by
  have hheap := m.heap_root r
  refine ⟨hheap ▸ hc.enabled, hheap ▸ hc.threshold_lt, fun a ha => ?_⟩
  rw [hheap]
  rcases mem_roots_root.1 ha with ha | rfl
  · exact hc.roots a ha
  · exact ⟨v, resolve_heap.1 hr⟩

end Machine

end ScriptMachine
