/-
# Marking reaches exactly what can be reached

`Reach get roots` is the least set of handles that contains the roots that resolve and, with a value,
every handle in it that resolves.  Marking visits handles from a list.  Its invariant is that a mark
is never ahead of the list: whatever a marked value refers to is marked itself or still to be
visited (`Pursued`).  When the list is empty the marked records are closed under reference, so they
contain all that can be reached; and a visit only ever marks what can be reached.

* `reach_iff_markAt`: on a heap without marks, marking from a list of roots marks exactly the slots
  of the handles that can be reached from them.
-/
import ScriptMachine.Proofs.Heap.Layout

namespace ScriptMachine.Heap

/-! ## 1. Reachability -/

/-- The handles that can be reached from a list of roots when `get` says what resolves to what: each
resolves, and is a root or is held by a value that can be reached. -/
inductive Reach (get : Handle → Option Value) (roots : List Handle) : Handle → Prop where
  | root {r : Handle} {v : Value} : r ∈ roots → get r = some v → Reach get roots r
  | edge {r r' : Handle} {v v' : Value} :
      Reach get roots r → get r = some v → r' ∈ v.refs → get r' = some v' → Reach get roots r'

section Reach

variable {get : Handle → Option Value} {roots : List Handle} {r : Handle}

/-- What can be reached resolves. -/
theorem Reach.resolves (hr : Reach get roots r) : ∃ v, get r = some v := by
  cases hr with
  | root _ hv => exact ⟨_, hv⟩
  | edge _ _ _ hv => exact ⟨_, hv⟩

/-- What can be reached from handles that can be reached can be reached. -/
theorem Reach.of_subset {roots' : List Handle} (hr : Reach get roots r)
    (hsub : ∀ r ∈ roots, ∀ v, get r = some v → Reach get roots' r) : Reach get roots' r := by
  induction hr with
  | root hmem hv => exact hsub _ hmem _ hv
  | edge _ hv hmem hv' ih => exact ih.edge hv hmem hv'

/-- A set of handles that contains the roots and is closed under reference contains all that can be
reached. -/
theorem Reach.mem_of_closed {P : Handle → Prop}
    (hroots : ∀ r ∈ roots, ∀ v, get r = some v → P r)
    (hclosed : ∀ r v, get r = some v → P r → ∀ r' ∈ v.refs, ∀ v', get r' = some v' → P r')
    (hr : Reach get roots r) : P r := by
  induction hr with
  | root hmem hv => exact hroots _ hmem _ hv
  | edge _ hv hmem hv' ih => exact hclosed _ _ hv ih _ hmem _ hv'

end Reach

/-! ## 2. Slots that differ in marks only -/

/-- The same slots, but for marks. -/
structure MarksOnly (slots slots' : Array Slot) : Prop where
  size_eq : slots'.size = slots.size
  live : ∀ (i : Nat) (r : Record), slots[i]? = some (.live r) →
    ∃ b, slots'[i]? = some (.live { r with marked := b })
  free : ∀ (i : Nat) g n c, slots[i]? = some (.free g n c) → slots'[i]? = some (.free g n c)

/-- No mark changed. -/
theorem MarksOnly.refl (slots : Array Slot) : MarksOnly slots slots :=
  ⟨rfl, fun _ r hr => ⟨r.marked, hr⟩, fun _ _ _ _ hg => hg⟩

/-- Changes of marks compose. -/
theorem MarksOnly.trans {a b c : Array Slot} (hab : MarksOnly a b) (hbc : MarksOnly b c) :
    MarksOnly a c := by
  refine ⟨hbc.size_eq.trans hab.size_eq, fun i r hr => ?_, fun i g n k hg => ?_⟩
  · obtain ⟨m, hm⟩ := hab.live i r hr
    obtain ⟨m', hm'⟩ := hbc.live i _ hm
    exact ⟨m', hm'⟩
  · exact hbc.free i g n k (hab.free i g n k hg)

/-- Setting one mark. -/
theorem MarksOnly.set {slots : Array Slot} {i : Nat} (hi : i < slots.size) {r : Record}
    (hr : slots[i] = .live r) :
    MarksOnly slots (slots.set i (.live { r with marked := true })) := by
  have hget : slots[i]? = some (.live r) := by simp [hi, hr]
  refine ⟨by simp, fun j r' hr' => ?_, fun j g n c hg => ?_⟩
  · rw [Array.getElem?_set]
    split
    · next hij =>
      subst hij
      obtain rfl : r = r' := by simpa [hget] using hr'
      exact ⟨true, rfl⟩
    · exact ⟨r'.marked, hr'⟩
  · rw [Array.getElem?_set]
    split
    · next hij =>
      subst hij
      simp [hget] at hg
    · exact hg

/-- Marks do not move anyone. -/
theorem MarksOnly.occupant_eq {slots slots' : Array Slot} (hm : MarksOnly slots slots') (i : Nat) :
    occupant slots' i = occupant slots i := by
  unfold occupant
  cases hs : slots[i]? with
  | none =>
    have : slots'[i]? = none := by
      rw [Array.getElem?_eq_none_iff] at hs ⊢
      rw [hm.size_eq]
      exact hs
    rw [this]
  | some s =>
    cases s with
    | live r =>
      obtain ⟨b, hb⟩ := hm.live i r hs
      rw [hb]
    | free g n c => rw [hm.free i g n c hs]

/-- Marks do not touch the lists. -/
theorem Arranged.of_marksOnly {h h' : Heap} {used free : List Nat} (ha : Arranged h used free)
    (hm : MarksOnly h.slots h'.slots) (hhead : h'.head = h.head) (htail : h'.tail = h.tail) :
    Arranged h' used free := by
  refine ⟨ha.linked.congr fun i _ r hr => ?_, fun before i after hsplit => ?_,
    hhead.trans ha.head_eq, htail.trans ha.tail_eq, ha.nodup, fun i hi => ?_⟩
  · obtain ⟨b, hb⟩ := hm.live i r hr
    exact ⟨_, hb, rfl, rfl⟩
  · obtain ⟨g, c, hg⟩ := ha.unused before i after hsplit
    exact ⟨g, c, hm.free i g _ c hg⟩
  · exact ha.cover i (hm.size_eq ▸ hi)

/-- Marking only changes marks. -/
theorem marksOnly_markFrom (slots : Array Slot) (work : List Handle) :
    MarksOnly slots (markFrom slots work) := by
  fun_induction markFrom slots work with
  | case1 slots => exact .refl slots
  | case2 slots r rest h record hs hm work ih => exact (MarksOnly.set h hs).trans ih
  | case3 slots r rest h record hs hm ih => exact ih
  | case4 slots r rest h g n c hs ih => exact ih
  | case5 slots r rest h ih => exact ih

/-! ## 3. One visit -/

/-- A handle resolves when the record in its slot has its generation. -/
theorem get?_of_live {h : Heap} {r : Handle} {record : Record}
    (ho : occupant h.slots r.index = some (record.generation, record.value))
    (hg : record.generation = r.generation) : h.get? r = some record.value := by
  simp [get?_eq, ho, hg]

/-- A handle that resolves has a record in its slot, with its generation and value. -/
theorem occupant_of_get? {h : Heap} {r : Handle} {v : Value} (hv : h.get? r = some v) :
    occupant h.slots r.index = some (r.generation, v) := by
  rw [get?_eq] at hv
  obtain ⟨⟨g, w⟩, ho, hw⟩ := Option.bind_eq_some_iff.1 hv
  obtain ⟨hg, rfl⟩ : g = r.generation ∧ w = v := by simpa using hw
  rw [ho, hg]

/-- Two handles to one slot that both resolve are the same. -/
theorem handle_eq_of_index {h : Heap} {r r' : Handle} {v v' : Value} (hv : h.get? r = some v)
    (hv' : h.get? r' = some v') (hi : r.index = r'.index) : r = r' := by
  have ho := occupant_of_get? hv
  rw [hi, occupant_of_get? hv'] at ho
  obtain ⟨hg, -⟩ := Prod.mk.inj (Option.some.inj ho)
  cases r
  cases r'
  simp_all

/-- The marks after one of them was set. -/
theorem markAt_set {slots : Array Slot} {i : Nat} (hi : i < slots.size) (r : Record) (j : Nat) :
    markAt (slots.set i (.live { r with marked := true })) j =
      if i = j then true else markAt slots j := by
  unfold markAt
  rw [Array.getElem?_set]
  by_cases hij : i = j
  · rw [if_pos hij, if_pos hij]
  · rw [if_neg hij, if_neg hij]

/-- What a marked value refers to is marked, or on the list of handles still to visit. -/
def Pursued (h : Heap) (slots : Array Slot) (work : List Handle) : Prop :=
  ∀ r v, h.get? r = some v → markAt slots r.index = true →
    ∀ r' ∈ v.refs, ∀ v', h.get? r' = some v' → markAt slots r'.index = true ∨ r' ∈ work

/-- A handle that does not resolve, or whose record is marked, can be struck off the list. -/
theorem Pursued.skip {h : Heap} {slots : Array Slot} {r : Handle} {rest : List Handle}
    (hp : Pursued h slots (r :: rest))
    (hr : ∀ v, h.get? r = some v → markAt slots r.index = true) : Pursued h slots rest := by
  intro a v hv hm b hb w hw
  rcases hp a v hv hm b hb w hw with hmark | hmem
  · exact Or.inl hmark
  · rcases List.mem_cons.1 hmem with rfl | hmem
    · exact Or.inl (hr w hw)
    · exact Or.inr hmem

/-- Marking a record and listing what it refers to keeps marks behind the list. -/
theorem Pursued.visit {h : Heap} {slots : Array Slot} {r : Handle} {rest : List Handle} {v : Value}
    (hi : r.index < slots.size) (record : Record) (hp : Pursued h slots (r :: rest))
    (hv : h.get? r = some v) :
    Pursued h (slots.set r.index (.live { record with marked := true })) (v.refs ++ rest) := by
  intro a w hw hm b hb x hx
  rw [markAt_set hi] at hm ⊢
  by_cases har : r.index = a.index
  · -- the record marked just now: its references are on the list
    obtain rfl := handle_eq_of_index hv hw har
    obtain rfl : v = w := by simpa [hv] using hw
    exact Or.inr (List.mem_append_left _ hb)
  · rw [if_neg har] at hm
    rcases hp a w hw hm b hb x hx with hmark | hmem
    · exact Or.inl (by split <;> simp [hmark])
    · rcases List.mem_cons.1 hmem with rfl | hmem
      · exact Or.inl (by simp)
      · exact Or.inr (List.mem_append_right _ hmem)

/-! ## 4. All visits -/

/-- A visit that marks nothing concerns a handle that does not resolve or a record with a mark. -/
theorem marked_of_not_visited {h : Heap} {slots : Array Slot} {r : Handle} {record : Record}
    (ho : ∀ i, occupant slots i = occupant h.slots i) (hi : r.index < slots.size)
    (hs : slots[r.index] = .live record)
    (hm : ¬(record.generation = r.generation ∧ record.marked = false)) {v : Value}
    (hv : h.get? r = some v) : markAt slots r.index = true := by
  have hget : slots[r.index]? = some (.live record) := by simp [hi, hs]
  have hocc := occupant_of_get? hv
  rw [← ho, occupant, hget] at hocc
  obtain ⟨hg, -⟩ := Prod.mk.inj (Option.some.inj hocc)
  simp only [markAt, hget]
  simpa [hg] using hm

/-- A handle without a record in its slot does not resolve. -/
theorem not_resolves_of_vacant {h : Heap} {slots : Array Slot} {r : Handle}
    (ho : ∀ i, occupant slots i = occupant h.slots i) (hvac : occupant slots r.index = none)
    {v : Value} : h.get? r ≠ some v := by
  intro hv
  have hocc := occupant_of_get? hv
  rw [← ho, hvac] at hocc
  simp at hocc

/-- Marks are never taken back while marking. -/
theorem markAt_markFrom_of_markAt (slots : Array Slot) (work : List Handle) {i : Nat}
    (hm : markAt slots i = true) : markAt (markFrom slots work) i = true := by
  fun_induction markFrom slots work with
  | case1 slots => exact hm
  | case2 slots r rest hr record hs hmark work ih =>
    refine ih ?_
    rw [markAt_set hr]
    split <;> simp [hm]
  | case3 slots r rest hr record hs hmark ih => exact ih hm
  | case4 slots r rest hr g n c hs ih => exact ih hm
  | case5 slots r rest hr ih => exact ih hm

/-- **Nothing is marked that cannot be reached.** -/
theorem reach_of_markAt {h : Heap} {slots : Array Slot} {work : List Handle}
    (ho : ∀ i, occupant slots i = occupant h.slots i) {i : Nat}
    (hm : markAt (markFrom slots work) i = true) :
    markAt slots i = true ∨ ∃ r, r.index = i ∧ Reach h.get? work r := by
  fun_induction markFrom slots work with
  | case1 slots => exact Or.inl hm
  | case2 slots r rest hr record hs hmark work ih =>
    have hocc : occupant h.slots r.index = some (record.generation, record.value) := by
      rw [← ho, occupant]
      simp [hr, hs]
    have hv := get?_of_live hocc hmark.1
    have hroot : Reach h.get? (r :: rest) r := .root (by simp) hv
    rcases ih (fun j => ((MarksOnly.set hr hs).occupant_eq j).trans (ho j)) hm with hm' | hreach
    · rw [markAt_set hr] at hm'
      split at hm'
      · next hri => exact Or.inr ⟨r, hri, hroot⟩
      · exact Or.inl hm'
    · obtain ⟨a, ha, hreach⟩ := hreach
      refine Or.inr ⟨a, ha, hreach.of_subset fun b hb w hw => ?_⟩
      rcases List.mem_append.1 hb with hb | hb
      · exact hroot.edge hv hb hw
      · exact .root (List.mem_cons_of_mem _ hb) hw
  | case3 slots r rest hr record hs hmark ih =>
    exact (ih ho hm).imp_right fun ⟨a, ha, hreach⟩ =>
      ⟨a, ha, hreach.of_subset fun b hb w hw => .root (List.mem_cons_of_mem _ hb) hw⟩
  | case4 slots r rest hr g n c hs ih =>
    exact (ih ho hm).imp_right fun ⟨a, ha, hreach⟩ =>
      ⟨a, ha, hreach.of_subset fun b hb w hw => .root (List.mem_cons_of_mem _ hb) hw⟩
  | case5 slots r rest hr ih =>
    exact (ih ho hm).imp_right fun ⟨a, ha, hreach⟩ =>
      ⟨a, ha, hreach.of_subset fun b hb w hw => .root (List.mem_cons_of_mem _ hb) hw⟩

/-- **Nothing on the list is forgotten.**  When the list is empty, the marked records are closed
under reference and contain every handle that was on it. -/
theorem pursued_markFrom {h : Heap} {slots : Array Slot} {work : List Handle}
    (ho : ∀ i, occupant slots i = occupant h.slots i) (hp : Pursued h slots work) :
    Pursued h (markFrom slots work) [] ∧
      ∀ r ∈ work, ∀ v, h.get? r = some v → markAt (markFrom slots work) r.index = true := by
  fun_induction markFrom slots work with
  | case1 slots => exact ⟨hp, by simp⟩
  | case2 slots r rest hr record hs hmark work ih =>
    have hocc : occupant h.slots r.index = some (record.generation, record.value) := by
      rw [← ho, occupant]
      simp [hr, hs]
    have hv := get?_of_live hocc hmark.1
    obtain ⟨hclosed, hlisted⟩ := ih (fun j => ((MarksOnly.set hr hs).occupant_eq j).trans (ho j))
      (hp.visit hr record hv)
    refine ⟨hclosed, fun a ha w hw => ?_⟩
    rcases List.mem_cons.1 ha with rfl | ha
    · refine markAt_markFrom_of_markAt _ _ ?_
      simp [markAt_set hr]
    · exact hlisted a (List.mem_append_right _ ha) w hw
  | case3 slots r rest hr record hs hmark ih =>
    have hskip : ∀ v, h.get? r = some v → markAt slots r.index = true :=
      fun v hv => marked_of_not_visited ho hr hs hmark hv
    obtain ⟨hclosed, hlisted⟩ := ih ho (hp.skip hskip)
    refine ⟨hclosed, fun a ha w hw => ?_⟩
    rcases List.mem_cons.1 ha with rfl | ha
    · exact markAt_markFrom_of_markAt _ _ (hskip w hw)
    · exact hlisted a ha w hw
  | case4 slots r rest hr g n c hs ih =>
    have hvac : occupant slots r.index = none := by simp [occupant, hr, hs]
    obtain ⟨hclosed, hlisted⟩ := ih ho
      (hp.skip fun v hv => absurd hv (not_resolves_of_vacant ho hvac))
    refine ⟨hclosed, fun a ha w hw => ?_⟩
    rcases List.mem_cons.1 ha with rfl | ha
    · exact absurd hw (not_resolves_of_vacant ho hvac)
    · exact hlisted a ha w hw
  | case5 slots r rest hr ih =>
    have hvac : occupant slots r.index = none := by simp [occupant, hr]
    obtain ⟨hclosed, hlisted⟩ := ih ho
      (hp.skip fun v hv => absurd hv (not_resolves_of_vacant ho hvac))
    refine ⟨hclosed, fun a ha w hw => ?_⟩
    rcases List.mem_cons.1 ha with rfl | ha
    · exact absurd hw (not_resolves_of_vacant ho hvac)
    · exact hlisted a ha w hw

/-- **Marking is exact.**  On a heap without marks, marking from a list of roots marks the slot of a
handle that resolves exactly when the handle can be reached from the roots. -/
theorem reach_iff_markAt {h : Heap} (hclear : ∀ i, markAt h.slots i = false) (roots : List Handle)
    {r : Handle} {v : Value} (hv : h.get? r = some v) :
    Reach h.get? roots r ↔ markAt (markFrom h.slots roots) r.index = true := by
  have hp : Pursued h h.slots roots := fun a w hw hm => by simp [hclear] at hm
  obtain ⟨hclosed, hlisted⟩ := pursued_markFrom (fun _ => rfl) hp
  constructor
  · intro hr
    refine hr.mem_of_closed (P := fun r => markAt (markFrom h.slots roots) r.index = true)
      hlisted fun a w hw hm b hb x hx => ?_
    simpa using hclosed a w hw hm b hb x hx
  · intro hm
    rcases reach_of_markAt (fun _ => rfl) hm with hm | ⟨a, ha, hreach⟩
    · simp [hclear] at hm
    · obtain ⟨w, hw⟩ := hreach.resolves
      rwa [handle_eq_of_index hv hw ha.symm]

end ScriptMachine.Heap
