/-
# Memory of two machines

The operations that touch the heap, on both machines of a world at once.  A collection may run on one
side and not on the other, and an insertion may use a fresh slot here and an old one there; what the
two machines hold stays alike.

* `World.trim`: after a collection on either side, or on none, the pairs that are left are those whose
  handles both still resolve;
* `World.insert`: a value placed on both sides is a new pair;
* `World.allocate`: an allocation gives a later world, unless one of the machines has all of its 2^32
  slots in use;
* `World.write`: a change of the two values of a pair.
-/
import ScriptMachine.Proofs.Twin.World

namespace ScriptMachine

/-! ## 1. Trimmed heaps -/

/-- What a collection from `roots`, or none, leaves of a heap. -/
structure Heap.Trimmed (h : Heap) (roots : List Handle) (h' : Heap) : Prop where
  wellFormed : h'.WellFormed
  sub : ∀ r v, h'.get? r = some v → h.get? r = some v
  kept : ∀ r v, Heap.Reach h.get? roots r → h.get? r = some v → h'.get? r = some v
  closed : ∀ r v, h'.get? r = some v → ∀ r' ∈ v.refs, ∀ v', h.get? r' = some v' →
    h'.get? r' = some v'
  size_eq : h'.slots.size = h.slots.size
  config_eq : h'.config = h.config

/-- No collection. -/
theorem Heap.Trimmed.refl {h : Heap} (hw : h.WellFormed) (roots : List Handle) :
    h.Trimmed roots h :=
  ⟨hw, fun _ _ hv => hv, fun _ _ _ hv => hv, fun _ _ _ _ _ _ hv => hv, rfl, rfl⟩

/-- A collection. -/
theorem Heap.WellFormed.collect {h : Heap} (hw : h.WellFormed) (roots : List Handle) :
    ∃ n h', h.collect? roots = some (n, h') ∧ h.Trimmed roots h' := by
  obtain ⟨used, free, hl⟩ := hw
  obtain ⟨n, h', he, hc⟩ := hl.collect roots
  refine ⟨n, h', he, ?_, fun r v hv => ((hc.get?_iff r v).1 hv).1,
    fun r v hr hv => (hc.get?_iff r v).2 ⟨hv, hr⟩, fun r v hv r' hr' v' hv' => ?_, hc.size_eq,
    hc.config_eq⟩
  · obtain ⟨free', hl'⟩ := hc.layout
    exact ⟨_, free', hl'⟩
  · obtain ⟨hold, hreach⟩ := (hc.get?_iff r v).1 hv
    exact (hc.get?_iff r' v').2 ⟨hv', hreach.edge hold hr' hv'⟩

/-- Making room for a value always succeeds, and keeps what the machine and the value refer to. -/
theorem Machine.makeRoom?_eq {m : Machine} (hw : m.heap.WellFormed) (v : Value) :
    ∃ h, m.makeRoom? v = some { m with heap := h } ∧ m.heap.Trimmed (v.refs ++ m.roots) h := by
  unfold Machine.makeRoom?
  by_cases hdue : m.heap.shouldCollect = true
  · obtain ⟨n, h, he, ht⟩ := hw.collect (v.refs ++ m.roots)
    refine ⟨h, ?_, ht⟩
    rw [if_pos hdue, Machine.collectKeeping?, he]
    rfl
  · rw [if_neg hdue]
    exact ⟨m.heap, rfl, .refl hw _⟩

/-- What an allocation makes of one machine: room is made, and then the value is placed, unless all of
the 2^32 slots are in use. -/
theorem Machine.tryAllocate_eq {m : Machine} (hw : m.heap.WellFormed) (v : Value) :
    ∃ h, m.makeRoom? v = some { m with heap := h } ∧ m.heap.Trimmed (v.refs ++ m.roots) h ∧
      ((∃ a h', m.tryAllocate v = (.ok (.heap a), { m with heap := h' }) ∧ h'.WellFormed ∧
          h.Inserted v a h') ∨
        (m.tryAllocate v = (.error .allocFailed, { m with heap := h }) ∧
          Heap.maxSlots ≤ h.live ∧ Heap.maxSlots ≤ h.slots.size)) := by
  obtain ⟨h, he, ht⟩ := Machine.makeRoom?_eq hw v
  refine ⟨h, he, ht, ?_⟩
  obtain ⟨used, free, hl⟩ := ht.wellFormed
  rw [Machine.tryAllocate, he]
  rcases hl.insert v with ⟨a, h', free', hok, hl', hi⟩ | ⟨hfull, hmax, hlive⟩
  · refine .inl ⟨a, h', ?_, ⟨_, free', hl'⟩, hi⟩
    simp only [Machine.insert, hok]
    rfl
  · refine .inr ⟨?_, hlive ▸ hmax, hmax⟩
    simp only [Machine.insert, hfull]
    rfl

/-! ## 2. Roots -/

/-- The anchors are among the roots. -/
theorem Machine.roots_of_anchors {m : Machine} {h : Handle}
    (hh : h ∈ m.anchors.filterMap Ref.handle?) : h ∈ m.roots := by
  rw [Machine.anchors, List.filterMap_append, ← ModuleTable.refs_eq] at hh
  rw [Machine.roots]
  rcases List.mem_append.1 hh with hh | hh
  · exact List.mem_append_right _ (List.mem_append_left _ hh)
  · exact List.mem_append_left _ hh

/-- What is held can be reached from the roots. -/
theorem Machine.Held.reach {m : Machine} {h : Handle} (hh : m.Held h) {roots : List Handle}
    (hroots : ∀ r ∈ m.roots, r ∈ roots) : Heap.Reach m.heap.get? roots h :=
  Heap.Reach.of_subset hh fun _ hr _ hv => .root (hroots _ (Machine.roots_of_anchors hr)) hv

/-- What a machine holds is not touched by a collection from its roots. -/
theorem Heap.Trimmed.get?_of_held {m : Machine} {roots : List Handle} {h : Heap}
    (ht : m.heap.Trimmed roots h) (hr : ∀ a ∈ m.roots, a ∈ roots) {a : Handle} (ha : m.Held a) :
    h.get? a = m.heap.get? a := by
  obtain ⟨v, hv⟩ := Heap.Reach.resolves ha
  rw [hv, ht.kept a v (ha.reach hr) hv]

/-- An arena grows by at most one slot. -/
theorem Heap.Inserted.size_le {h h' : Heap} {v : Value} {a : Handle}
    (hi : h.Inserted v a h') (hw : h.WellFormed) : h'.slots.size ≤ h.slots.size + 1 := by
  obtain ⟨used, free, hl⟩ := hw
  have hlen := hl.length_add
  have hlive := hl.live_eq
  have hsize := hi.size_eq
  have hlive' := hi.live_eq
  omega

/-- The old values on a heap that was trimmed and then got a new value. -/
theorem Heap.Inserted.get?_of_held {m : Machine} {roots : List Handle}
    {h h' : Heap} {v : Value} {a c : Handle} (hi : h.Inserted v a h')
    (ht : m.heap.Trimmed roots h) (hr : ∀ a ∈ m.roots, a ∈ roots) (hc : m.Held c) :
    c ≠ a ∧ h'.get? c = m.heap.get? c := by
  have hkept := ht.get?_of_held hr hc
  have hne : c ≠ a := by
    rintro rfl
    obtain ⟨x, hx⟩ := Heap.Reach.resolves hc
    rw [hi.fresh, hx] at hkept
    cases hkept
  exact ⟨hne, by rw [hi.get?_eq, if_neg hne, hkept]⟩

namespace World

variable {exact : Prop} (w : World exact)

/-! ## 3. Collections -/

section Trim

variable {roots roots' : List Handle} {h h' : Heap}

/-- The pairs that are left of those of a world: both handles still resolve. -/
def trimPairs (h h' : Heap) : Pairing := fun a b =>
  w.pairs a b ∧ (h.get? a).isSome = true ∧ (h'.get? b).isSome = true

variable (ht : w.left.heap.Trimmed roots h) (hr : ∀ a ∈ w.left.roots, a ∈ roots)
  (ht' : w.right.heap.Trimmed roots' h') (hr' : ∀ a ∈ w.right.roots, a ∈ roots')

include ht hr ht' hr'

/-- A pair of roots is left. -/
theorem trimPairs_of_roots {a b : Handle} (ha : a ∈ w.left.roots) (hb : b ∈ w.right.roots)
    (hab : w.pairs a b) : w.trimPairs h h' a b := by
  obtain ⟨v, u, hv, hu, -⟩ := w.values a b hab
  refine ⟨hab, ?_, ?_⟩
  · rw [ht.kept a v (.root (hr a ha) hv) hv]
    rfl
  · rw [ht'.kept b u (.root (hr' b hb) hu) hu]
    rfl

/-- The world after a collection on either side, or on none. -/
def trim (heq : exact → h = h') : World exact :=
  { w with
    left := { w.left with heap := h }
    right := { w.right with heap := h' }
    pairs := w.trimPairs h h'
    leftHeap := ht.wellFormed
    rightHeap := ht'.wellFormed
    functional := fun a b b' hab hab' => w.functional a b b' hab.1 hab'.1
    injective := fun a a' b hab hab' => w.injective a a' b hab.1 hab'.1
    values := by
      rintro a b ⟨hab, ha, hb⟩
      obtain ⟨v, u, hv, hu, hvu, hlaw⟩ := w.values a b hab
      obtain ⟨v', hv'⟩ := Option.isSome_iff_exists.1 ha
      obtain ⟨u', hu'⟩ := Option.isSome_iff_exists.1 hb
      obtain rfl : v = v' := Option.some.inj (hv.symm.trans (ht.sub a v' hv'))
      obtain rfl : u = u' := Option.some.inj (hu.symm.trans (ht'.sub b u' hu'))
      refine ⟨v, u, hv', hu', hvu.transfer fun c d hc hd hcd => ?_, hlaw⟩
      obtain ⟨x, y, hx, hy, -⟩ := w.values c d hcd
      refine ⟨hcd, ?_, ?_⟩
      · rw [ht.closed a v hv' c hc x hx]
        rfl
      · rw [ht'.closed b u hu' d hd y hy]
        rfl
    temps := by
      refine forall₂_transfer w.temps fun r hmem s hmem' hrs => hrs.transfer ?_
      rintro a b rfl rfl hab
      refine w.trimPairs_of_roots ht hr ht' hr' ?_ ?_ hab
      · exact List.mem_append_left _ (List.mem_filterMap.2 ⟨_, hmem, rfl⟩)
      · exact List.mem_append_left _ (List.mem_filterMap.2 ⟨_, hmem', rfl⟩)
    scopes := by
      refine w.scopes.transfer fun a b ha hb hab => w.trimPairs_of_roots ht hr ht' hr' ?_ ?_ hab
      · exact List.mem_append_right _ (List.mem_append_right _ ha)
      · exact List.mem_append_right _ (List.mem_append_right _ hb)
    modules := by
      refine w.modules.transfer fun a b ha hb hab => w.trimPairs_of_roots ht hr ht' hr' ?_ ?_ hab
      · exact List.mem_append_right _ (List.mem_append_left _ ha)
      · exact List.mem_append_right _ (List.mem_append_left _ hb)
    same := fun he => by rw [w.same he, heq he]
    diagonal := fun he a b hab => w.diagonal he a b hab.1
    total := by
      intro he a v hv
      refine ⟨w.total he a v (ht.sub a v hv), ?_, ?_⟩
      · exact Option.isSome_iff_exists.2 ⟨v, hv⟩
      · exact Option.isSome_iff_exists.2 ⟨v, heq he ▸ hv⟩ }

end Trim

/-- A collection on both sides at once, if there is only one machine. -/
theorem collectGarbage (he : exact) : ∃ n w', w.left.collectGarbage? = some (n, w'.left) ∧
    w.right.collectGarbage? = some (n, w'.right) ∧ w ≤ w' := by
  obtain ⟨n, h, hc, ht⟩ := w.leftHeap.collect w.left.roots
  have hc' : w.right.heap.collect? w.right.roots = some (n, h) := w.same he ▸ hc
  have ht' : w.right.heap.Trimmed w.right.roots h := w.same he ▸ ht
  refine ⟨n, w.trim ht (fun _ => id) ht' (fun _ => id) fun _ => rfl, ?_, ?_, ?_, ?_⟩
  · rw [Machine.collectGarbage?, Machine.collectKeeping?, List.nil_append, hc]
    rfl
  · rw [Machine.collectGarbage?, Machine.collectKeeping?, List.nil_append, hc']
    rfl
  · refine ⟨List.prefix_rfl, rfl, rfl, fun a v ha hv => ?_⟩
    exact ⟨v, (ht.get?_of_held (fun _ => id) ha).trans hv, List.prefix_rfl⟩
  · refine ⟨List.prefix_rfl, rfl, rfl, fun a v ha hv => ?_⟩
    exact ⟨v, (ht'.get?_of_held (fun _ => id) ha).trans hv, List.prefix_rfl⟩

/-! ## 4. Insertions -/

section Insert

variable {v u : Value} {a b : Handle} {h h' : Heap} (hvu : v.Alike w.pairs u) (hlaw : v.Lawful)
  (hi : w.left.heap.Inserted v a h) (hi' : w.right.heap.Inserted u b h')

include hi in
/-- A pair of a world is not the new one. -/
theorem left_ne_of_inserted {c d : Handle} (hcd : w.pairs c d) : c ≠ a := by
  rintro rfl
  obtain ⟨x, y, hx, -⟩ := w.values c d hcd
  rw [hi.fresh] at hx
  cases hx

include hi' in
theorem right_ne_of_inserted {c d : Handle} (hcd : w.pairs c d) : d ≠ b := by
  rintro rfl
  obtain ⟨x, y, -, hy, -⟩ := w.values c d hcd
  rw [hi'.fresh] at hy
  cases hy

/-- The world after values that are alike were placed on both sides. -/
def insert (hw : h.WellFormed) (hw' : h'.WellFormed) (heq : exact → a = b ∧ h = h') :
    World exact :=
  have hsub : ∀ c d, w.pairs c d → (c = a ∧ d = b) ∨ w.pairs c d := fun _ _ hcd => .inr hcd
  { w with
    left := { w.left with heap := h }
    right := { w.right with heap := h' }
    pairs := fun c d => (c = a ∧ d = b) ∨ w.pairs c d
    leftHeap := hw
    rightHeap := hw'
    functional := by
      rintro c d d' (⟨rfl, rfl⟩ | hcd) (⟨hc, rfl⟩ | hcd')
      · rfl
      · exact absurd rfl (w.left_ne_of_inserted hi hcd')
      · exact absurd hc (w.left_ne_of_inserted hi hcd)
      · exact w.functional c d d' hcd hcd'
    injective := by
      rintro c c' d (⟨rfl, rfl⟩ | hcd) (⟨rfl, hd⟩ | hcd')
      · rfl
      · exact absurd rfl (w.right_ne_of_inserted hi' hcd')
      · exact absurd hd (w.right_ne_of_inserted hi' hcd)
      · exact w.injective c c' d hcd hcd'
    values := by
      rintro c d (⟨rfl, rfl⟩ | hcd)
      · refine ⟨v, u, ?_, ?_, hvu.transfer fun _ _ _ _ => hsub _ _, hlaw⟩
        · rw [hi.get?_eq, if_pos rfl]
        · rw [hi'.get?_eq, if_pos rfl]
      · obtain ⟨x, y, hx, hy, hxy, hlaw'⟩ := w.values c d hcd
        refine ⟨x, y, ?_, ?_, hxy.transfer fun _ _ _ _ => hsub _ _, hlaw'⟩
        · rw [hi.get?_eq, if_neg (w.left_ne_of_inserted hi hcd), hx]
        · rw [hi'.get?_eq, if_neg (w.right_ne_of_inserted hi' hcd), hy]
    temps := w.temps.imp fun _ _ hrs => hrs.transfer fun _ _ _ _ => hsub _ _
    scopes := w.scopes.transfer fun _ _ _ _ => hsub _ _
    modules := w.modules.transfer fun _ _ _ _ => hsub _ _
    same := fun he => by rw [w.same he, (heq he).2]
    diagonal := by
      rintro he c d (⟨rfl, rfl⟩ | hcd)
      · exact (heq he).1
      · exact w.diagonal he c d hcd
    total := by
      intro he c x hx
      rw [hi.get?_eq] at hx
      by_cases hc : c = a
      · exact .inl ⟨hc, hc.trans (heq he).1⟩
      · rw [if_neg hc] at hx
        exact .inr (w.total he c x hx) }

end Insert

/-! ## 5. Allocation -/

/-- What an allocation on both sides makes of a world. -/
structure Allocated (a b : Handle) (w' : World exact) : Prop where
  left_eq : ∃ h, w'.left = { w.left with heap := h }
  right_eq : ∃ h, w'.right = { w.right with heap := h }
  pair : w'.pairs a b
  /-- What was held resolves to the same value as before, and so is not the new handle. -/
  leftHeld : ∀ c, w.left.Held c → c ≠ a ∧ w'.left.heap.get? c = w.left.heap.get? c
  rightHeld : ∀ c, w.right.Held c → c ≠ b ∧ w'.right.heap.get? c = w.right.heap.get? c
  leftSize : w'.left.heap.slots.size ≤ w.left.heap.slots.size + 1
  rightSize : w'.right.heap.slots.size ≤ w.right.heap.slots.size + 1

/-- **An allocation on both sides** gives a world in which the new handles are paired, unless one of
the machines has all of its 2^32 slots in use. -/
theorem allocate {v u : Value} (hvu : v.Alike w.pairs u) (hlaw : v.Lawful) :
    (∃ a b w', w.left.tryAllocate v = (.ok (.heap a), w'.left) ∧
      w.right.tryAllocate u = (.ok (.heap b), w'.right) ∧ w.Allocated a b w') ∨
    (∃ m, w.left.tryAllocate v = (.error .allocFailed, m) ∧ Heap.maxSlots ≤ m.heap.live ∧
      Heap.maxSlots ≤ w.left.heap.slots.size) ∨
    (∃ m, w.right.tryAllocate u = (.error .allocFailed, m) ∧ Heap.maxSlots ≤ m.heap.live ∧
      Heap.maxSlots ≤ w.right.heap.slots.size) := by
  obtain ⟨h, he, ht, hres⟩ := Machine.tryAllocate_eq w.leftHeap v
  obtain ⟨h', he', ht', hres'⟩ := Machine.tryAllocate_eq w.rightHeap u
  rcases hres with ⟨a, k, hok, hw, hi⟩ | ⟨hfull, hmax, hsize⟩
  swap
  · exact .inr (.inl ⟨_, hfull, hmax, ht.size_eq ▸ hsize⟩)
  rcases hres' with ⟨b, k', hok', hw', hi'⟩ | ⟨hfull, hmax, hsize⟩
  swap
  · exact .inr (.inr ⟨_, hfull, hmax, ht'.size_eq ▸ hsize⟩)
  -- in an exact world both sides do the same
  have hsame : exact → h = h' ∧ a = b ∧ k = k' := by
    intro hex
    have hv : v = u := hvu.eq (w.diagonal hex)
    rw [← w.same hex, ← hv] at he' hok'
    have hm := Option.some.inj (he.symm.trans he')
    have hr := hok.symm.trans hok'
    simp only [Prod.mk.injEq, Except.ok.injEq, Ref.heap.injEq] at hr
    exact ⟨congrArg Machine.heap hm, hr.1, congrArg Machine.heap hr.2⟩
  have hroots : ∀ a ∈ w.left.roots, a ∈ v.refs ++ w.left.roots := fun _ => List.mem_append_right _
  have hroots' : ∀ a ∈ w.right.roots, a ∈ u.refs ++ w.right.roots := fun _ => List.mem_append_right _
  let w₁ := w.trim ht hroots ht' hroots' fun hex => (hsame hex).1
  have hvu₁ : v.Alike w₁.pairs u := by
    refine hvu.transfer fun c d hc hd hcd => ?_
    obtain ⟨x, y, hx, hy, -⟩ := w.values c d hcd
    refine ⟨hcd, ?_, ?_⟩
    · rw [ht.kept c x (.root (List.mem_append_left _ hc) hx) hx]
      rfl
    · rw [ht'.kept d y (.root (List.mem_append_left _ hd) hy) hy]
      rfl
  let w₂ := w₁.insert hvu₁ hlaw hi hi' hw hw' fun hex => (hsame hex).2
  refine .inl ⟨a, b, w₂, hok, hok', ⟨k, rfl⟩, ⟨k', rfl⟩, .inl ⟨rfl, rfl⟩, ?_, ?_, ?_, ?_⟩
  · exact fun c hc => hi.get?_of_held ht hroots hc
  · exact fun c hc => hi'.get?_of_held ht' hroots' hc
  · exact ht.size_eq ▸ hi.size_le ht.wellFormed
  · exact ht'.size_eq ▸ hi'.size_le ht'.wellFormed

section Allocated

variable {w} {a b : Handle} {w' : World exact}

/-- An allocation gives a later world. -/
theorem Allocated.le (ha : w.Allocated a b w') : w ≤ w' := by
  obtain ⟨h, hh⟩ := ha.left_eq
  obtain ⟨h', hh'⟩ := ha.right_eq
  have htemps : w'.left.temps = w.left.temps := by rw [hh]
  have htemps' : w'.right.temps = w.right.temps := by rw [hh']
  refine ⟨⟨?_, ?_, ?_, fun c x hc hx => ?_⟩, ⟨?_, ?_, ?_, fun c x hc hx => ?_⟩⟩
  · exact htemps ▸ List.prefix_rfl
  · rw [hh]
  · rw [hh]
  · exact ⟨x, by rw [(ha.leftHeld c hc).2, hx], List.prefix_rfl⟩
  · exact htemps' ▸ List.prefix_rfl
  · rw [hh']
  · rw [hh']
  · exact ⟨x, by rw [(ha.rightHeld c hc).2, hx], List.prefix_rfl⟩

end Allocated

/-! ## 6. Writes -/

section Write

variable {a b : Handle} {f g : Payload → Payload}

/-- The world after a change of the values of a pair, for each side its own. -/
def write (hab : w.pairs a b)
    (hfg : ∀ v u, w.left.heap.get? a = some v → w.right.heap.get? b = some u →
      (f v.payload).Alike w.pairs (g u.payload))
    (hcall : ∀ p, (f p).callable? = p.callable?) (heq : exact → f = g) : World exact :=
  { w with
    left := w.left.modifyPayload (.heap a) f
    right := w.right.modifyPayload (.heap b) g
    leftHeap := by
      obtain ⟨used, free, hl⟩ := w.leftHeap
      exact ⟨used, free, hl.write a fun v => { v with payload := f v.payload }⟩
    rightHeap := by
      obtain ⟨used, free, hl⟩ := w.rightHeap
      exact ⟨used, free, hl.write b fun v => { v with payload := g v.payload }⟩
    values := by
      intro c d hcd
      obtain ⟨x, y, hx, hy, hxy, hlaw⟩ := w.values c d hcd
      simp only [Machine.modifyPayload, Heap.modifyPayload, Heap.get?_modifyValue]
      by_cases hc : c = a
      · have hd : d = b := w.functional a d b (hc ▸ hcd) hab
        rw [if_pos hc, if_pos hd, hx, hy]
        refine ⟨_, _, rfl, rfl, ⟨hxy.type_eq, hfg x y (hc ▸ hx) (hd ▸ hy)⟩, fun k hk => hlaw k ?_⟩
        rw [← hcall]
        exact hk
      · have hd : d ≠ b := fun hd => hc (w.injective c a b (hd ▸ hcd) hab)
        rw [if_neg hc, if_neg hd]
        exact ⟨x, y, hx, hy, hxy, hlaw⟩
    same := fun he => by rw [w.same he, w.diagonal he a b hab, heq he]
    total := by
      intro he c x hx
      simp only [Machine.modifyPayload, Heap.modifyPayload, Heap.get?_modifyValue] at hx
      obtain ⟨y, hy⟩ : ∃ y, w.left.heap.get? c = some y := by
        by_cases hc : c = a
        · rw [if_pos hc, Option.map_eq_some_iff] at hx
          exact ⟨_, hx.choose_spec.1⟩
        · rw [if_neg hc] at hx
          exact ⟨x, hx⟩
      exact w.total he c y hy }

end Write

/-! ## 7. The collector's switch -/

/-- The same switch on both sides. -/
def withSwitch (enabled : Bool) : World exact :=
  { w with
    left := { w.left with heap := w.left.heap.setEnabled enabled }
    right := { w.right with heap := w.right.heap.setEnabled enabled }
    leftHeap := by
      obtain ⟨used, free, hl⟩ := w.leftHeap
      exact ⟨used, free, hl.setEnabled enabled⟩
    rightHeap := by
      obtain ⟨used, free, hl⟩ := w.rightHeap
      exact ⟨used, free, hl.setEnabled enabled⟩
    same := fun he => by rw [w.same he] }

end World

end ScriptMachine
