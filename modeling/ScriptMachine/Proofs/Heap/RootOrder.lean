/-
# The order of the roots does not matter

Marking takes its handles from a list, so two lists of the same roots make it visit the heap in
different orders.  What ends up marked is the same: the records that had a mark, and those that can be
reached from the roots through records that had none (`markAt_markFrom_iff`).  Each visit is one step
of that argument: what can be reached from a handle and some others is the handle itself and what can
be reached, without it, from its references and the others (`Reach.visit_iff`).

Sweeping looks at the marks alone, so a collection leaves the same heap behind, to the last link.

* `Machine.Relisted`: two machines whose tables hold the same values, in another order;
* `Machine.root_order_is_invisible`: a collection, and all that is done to the heap later, is the same
  for all lists of the same roots; and machines that list their tables in another order give every
  value the same slot.
-/
import ScriptMachine.Machine.Bootstrap
import ScriptMachine.Proofs.Heap.Handles
import ScriptMachine.Proofs.Twin.Alike

namespace ScriptMachine

namespace Heap

/-! ## 1. What can be reached, visit by visit -/

section Reach

variable {get : Handle → Option Value} {roots rest : List Handle} {r a : Handle} {v : Value}

/-- Nothing can be reached from no roots. -/
theorem not_reach_nil : ¬Reach get [] a := by
  intro h
  induction h with
  | root hmem _ => simp at hmem
  | edge _ _ _ _ ih => exact ih

/-- A root that does not resolve can be struck off. -/
theorem Reach.skip_iff (hr : get r = none) : Reach get (r :: rest) a ↔ Reach get rest a := by
  constructor
  · refine fun h => h.of_subset fun b hb w hw => ?_
    rcases List.mem_cons.1 hb with rfl | hb
    · simp [hr] at hw
    · exact .root hb hw
  · exact fun h => h.of_subset fun b hb w hw => .root (List.mem_cons_of_mem _ hb) hw

/-- **One visit**: a root that resolves is replaced by what its value refers to, and is itself out of
the way from then on. -/
theorem Reach.visit_iff (hv : get r = some v) :
    Reach get (r :: rest) a ↔
      a = r ∨ Reach (fun b => if b = r then none else get b) (v.refs ++ rest) a := by
  constructor
  · intro h
    induction h with
    | @root b w hmem hw =>
      by_cases hb : b = r
      · exact .inl hb
      · have hrest : b ∈ rest := (List.mem_cons.1 hmem).resolve_left hb
        exact .inr (.root (List.mem_append_right _ hrest) (by rwa [if_neg hb]))
    | @edge b c w w' _ hw hc hw' ih =>
      by_cases hcr : c = r
      · exact .inl hcr
      · refine .inr ?_
        by_cases hbr : b = r
        · -- what the visited value refers to is a root now
          subst hbr
          obtain rfl : v = w := Option.some.inj (hv.symm.trans hw)
          exact .root (List.mem_append_left _ hc) (by rwa [if_neg hcr])
        · exact (ih.resolve_left hbr).edge (by rwa [if_neg hbr]) hc (by rwa [if_neg hcr])
  · have hroot : Reach get (r :: rest) r := .root (by simp) hv
    have hseen : ∀ {b w}, (if b = r then none else get b) = some w → get b = some w := by
      intro b w hw
      split at hw
      · cases hw
      · exact hw
    rintro (rfl | h)
    · exact hroot
    · induction h with
      | root hmem hw =>
        rcases List.mem_append.1 hmem with hmem | hmem
        · exact hroot.edge hv hmem (hseen hw)
        · exact .root (List.mem_cons_of_mem _ hmem) (hseen hw)
      | edge _ hw hc hw' ih => exact ih.edge (hseen hw) hc (hseen hw')

end Reach

/-! ## 2. What is marked in the end -/

/-- The value behind a handle whose record has no mark. -/
def unmarked? (slots : Array Slot) (r : Handle) : Option Value :=
  match slots[r.index]? with
  | some (.live record) =>
    if record.generation = r.generation ∧ record.marked = false then some record.value else none
  | some (.free _ _ _) | none => none

/-- Setting the mark of a record hides its handle, and no other. -/
theorem unmarked?_set {slots : Array Slot} {r : Handle} {record : Record}
    (hi : r.index < slots.size) (hs : slots[r.index] = .live record)
    (hg : record.generation = r.generation) :
    unmarked? (slots.set r.index (.live { record with marked := true })) =
      fun a => if a = r then none else unmarked? slots a := by
  funext a
  unfold unmarked?
  rw [Array.getElem?_set]
  by_cases hidx : r.index = a.index
  · -- the same slot: a handle of another generation did not resolve before
    have hget : slots[a.index]? = some (.live record) := by simp [← hidx, hi, hs]
    have hne : a ≠ r → record.generation ≠ a.generation := fun har hga =>
      har (by cases a; cases r; simp_all)
    rw [if_pos hidx, hget]
    by_cases har : a = r
    · simp [har]
    · simp [har, hne har]
  · have har : a ≠ r := fun he => hidx (by rw [he])
    rw [if_neg hidx, if_neg har]

/-- **Marking in any order.**  In the end the records that had a mark are marked, and those that can be
reached from the list through records that had none. -/
theorem markAt_markFrom_iff (slots : Array Slot) (work : List Handle) (i : Nat) :
    markAt (markFrom slots work) i = true ↔
      markAt slots i = true ∨ ∃ r, r.index = i ∧ Reach (unmarked? slots) work r := by
  fun_induction markFrom slots work with
  | case1 slots => simp [not_reach_nil]
  | case2 slots r rest hi record hs hm work ih =>
    have hv : unmarked? slots r = some record.value := by simp [unmarked?, hi, hs, hm]
    rw [ih, markAt_set hi, unmarked?_set hi hs hm.1]
    simp only [Reach.visit_iff hv]
    constructor
    · rintro (hmark | ⟨a, ha, hreach⟩)
      · split at hmark
        · next hri => exact .inr ⟨r, hri, .inl rfl⟩
        · exact .inl hmark
      · exact .inr ⟨a, ha, .inr hreach⟩
    · rintro (hmark | ⟨a, ha, rfl | hreach⟩)
      · exact .inl (by simp [hmark])
      · exact .inl (by simp [ha])
      · exact .inr ⟨a, ha, hreach⟩
  | case3 slots r rest hi record hs hm ih =>
    have hv : unmarked? slots r = none := by
      simp only [unmarked?, Array.getElem?_eq_getElem hi, hs, if_neg hm]
    simp only [ih, Reach.skip_iff hv]
  | case4 slots r rest hi g n c hs ih =>
    have hv : unmarked? slots r = none := by simp [unmarked?, hi, hs]
    simp only [ih, Reach.skip_iff hv]
  | case5 slots r rest hi ih =>
    have hv : unmarked? slots r = none := by simp [unmarked?, hi]
    simp only [ih, Reach.skip_iff hv]

/-- Slots that come from the same ones by setting marks are the same if their marks are. -/
theorem MarksOnly.eq_of_markAt {slots a b : Array Slot} (ha : MarksOnly slots a)
    (hb : MarksOnly slots b) (hmark : ∀ i, markAt a i = markAt b i) : a = b := by
  refine Array.ext_getElem? fun i => ?_
  cases hs : slots[i]? with
  | none =>
    have hi : slots.size ≤ i := Array.getElem?_eq_none_iff.1 hs
    rw [Array.getElem?_eq_none_iff.2 (ha.size_eq ▸ hi),
      Array.getElem?_eq_none_iff.2 (hb.size_eq ▸ hi)]
  | some s =>
    cases s with
    | free g n c => rw [ha.free i g n c hs, hb.free i g n c hs]
    | live record =>
      obtain ⟨x, hx⟩ := ha.live i record hs
      obtain ⟨y, hy⟩ := hb.live i record hs
      have hxy := hmark i
      simp only [markAt, hx, hy] at hxy
      rw [hx, hy, hxy]

/-- **Marking depends on which roots there are**, neither on their order nor on how often each is
listed. -/
theorem markFrom_congr (slots : Array Slot) {roots roots' : List Handle}
    (hsame : ∀ r, r ∈ roots ↔ r ∈ roots') : markFrom slots roots = markFrom slots roots' := by
  have hreach : ∀ r, Reach (unmarked? slots) roots r ↔ Reach (unmarked? slots) roots' r := fun r =>
    ⟨fun h => h.of_subset fun a ha _ hv => .root ((hsame a).1 ha) hv,
      fun h => h.of_subset fun a ha _ hv => .root ((hsame a).2 ha) hv⟩
  refine (marksOnly_markFrom slots roots).eq_of_markAt (marksOnly_markFrom slots roots') fun i => ?_
  rw [Bool.eq_iff_iff, markAt_markFrom_iff, markAt_markFrom_iff]
  simp only [hreach]

/-! ## 3. Runs that list their roots differently -/

/-- A collection depends on which roots there are. -/
theorem collect?_congr (h : Heap) {roots roots' : List Handle} (hsame : ∀ r, r ∈ roots ↔ r ∈ roots') :
    h.collect? roots = h.collect? roots' := by
  have hmark : ∀ g : Heap, g.mark roots = g.mark roots' := fun g => by
    rw [mark, mark, markFrom_congr g.slots hsame]
  rw [collect?, collect?, hmark]

/-- The same action, up to the order of its roots and to how often each is listed. -/
inductive Action.Relisted : Action → Action → Prop where
  | refl (q : Action) : Relisted q q
  | mark {roots roots' : List Handle} :
      (∀ r, r ∈ roots ↔ r ∈ roots') → Relisted (.mark roots) (.mark roots')
  | collect {roots roots' : List Handle} : (∀ r, r ∈ roots ↔ r ∈ roots') →
      Relisted (.operation (.collect roots)) (.operation (.collect roots'))

/-- One action. -/
theorem Action.Relisted.act?_eq {q q' : Action} (hq : q.Relisted q') (h : Heap) :
    h.act? q = h.act? q' := by
  cases hq with
  | refl => rfl
  | mark hsame => rw [act?, act?, Heap.mark, Heap.mark, markFrom_congr h.slots hsame]
  | collect hsame => rw [act?, act?, perform?, perform?, h.collect?_congr hsame]

/-- Any number of actions. -/
theorem actAll?_relisted {qs qs' : List Action} (hqs : List.Forall₂ Action.Relisted qs qs') (h : Heap) :
    h.actAll? qs = h.actAll? qs' := by
  induction hqs generalizing h with
  | nil => rfl
  | cons hq _ ih =>
    rw [actAll?, actAll?, hq.act?_eq]
    split
    · rfl
    · rw [ih]

/-- Every run of actions on a heap in order has a result, and its lists are in order again. -/
theorem InOrder.actAll {h : Heap} (ho : h.InOrder) (qs : List Action) :
    ∃ replies h', h.actAll? qs = some (replies, h') ∧ h'.InOrder := by
  induction qs generalizing h with
  | nil => exact ⟨[], h, rfl, ho⟩
  | cons q qs ih =>
    obtain ⟨reply, h₁, he, ho₁, -⟩ := ho.act q
    obtain ⟨replies, h₂, he₂, ho₂⟩ := ih ho₁
    exact ⟨reply :: replies, h₂, by simp [actAll?, he, he₂], ho₂⟩

end Heap

/-! ## 4. Tables in another order -/

namespace Machine

/-- The tables of one machine hold what those of another hold, in another order: the bindings of each
frame, the modules, and the members of each module. -/
structure Relisted (m m' : Machine) : Prop where
  heap_eq : m'.heap = m.heap
  temps_eq : m'.temps = m.temps
  frames : List.Forall₂ (fun f f' : Frame => f.entries.Perm f'.entries)
    m.scopes.frames.toList m'.scopes.frames.toList
  modules : ∃ modules, m.modules.modules.Perm modules ∧
    List.Forall₂ (fun x x' => x.2.members.Perm x'.2.members) modules m'.modules.modules

/-- The root lists that machines gather from tables in another order have the same members. -/
theorem Relisted.mem_roots {m m' : Machine} (h : m.Relisted m') (a : Handle) :
    a ∈ m.roots ↔ a ∈ m'.roots := by
  have hscopes : a ∈ m.scopes.refs ↔ a ∈ m'.scopes.refs := by
    rw [ScopeStack.mem_refs_iff, ScopeStack.mem_refs_iff]
    have hframes := h.frames
    generalize m.scopes.frames.toList = fs, m'.scopes.frames.toList = fs' at hframes
    induction hframes with
    | nil => rfl
    | cons hf _ ih =>
      rw [List.exists_mem_cons_iff, List.exists_mem_cons_iff]
      exact or_congr (hf.filterMap _).mem_iff ih
  have hmodules : a ∈ m.modules.refs ↔ a ∈ m'.modules.refs := by
    obtain ⟨modules, hperm, hall⟩ := h.modules
    rw [ModuleTable.refs, ModuleTable.refs, (hperm.flatMap_right _).mem_iff]
    clear hperm
    generalize m'.modules.modules = modules' at hall
    induction hall with
    | nil => rfl
    | cons hx _ ih =>
      rw [List.flatMap_cons, List.flatMap_cons, List.mem_append, List.mem_append]
      exact or_congr (hx.filterMap _).mem_iff ih
  rw [roots, roots, h.temps_eq, List.mem_append, List.mem_append, List.mem_append, List.mem_append,
    hscopes, hmodules]

/-- Another heap, on both. -/
theorem Relisted.withHeap {m m' : Machine} (h : m.Relisted m') (heap : Heap) :
    Relisted { m with heap } { m' with heap } :=
  ⟨rfl, h.temps_eq, h.frames, h.modules⟩

/-- Collections of machines with tables in another order. -/
theorem Relisted.collectKeeping? {m m' : Machine} (h : m.Relisted m') (more : List Handle) :
    ∃ result : Option (Nat × Heap),
      m.collectKeeping? more = result.map (fun (n, heap) => (n, { m with heap })) ∧
      m'.collectKeeping? more = result.map (fun (n, heap) => (n, { m' with heap })) := by
  refine ⟨m.heap.collect? (more ++ m.roots), rfl, ?_⟩
  have hsame : ∀ r, r ∈ more ++ m'.roots ↔ r ∈ more ++ m.roots := fun r => by
    rw [List.mem_append, List.mem_append, h.mem_roots]
  rw [Machine.collectKeeping?, h.heap_eq, m.heap.collect?_congr hsame]

/-- **One allocation**: machines with tables in another order give a value the same slot. -/
theorem Relisted.tryAllocate {m m' : Machine} (h : m.Relisted m') (v : Value) :
    (m.tryAllocate v).1 = (m'.tryAllocate v).1 ∧
      (m.tryAllocate v).2.Relisted (m'.tryAllocate v).2 := by
  have hinsert : ∀ {a b : Machine}, a.Relisted b →
      (a.insert v).1 = (b.insert v).1 ∧ (a.insert v).2.Relisted (b.insert v).2 := by
    intro a b hab
    simp only [Machine.insert, hab.heap_eq, true_and]
    exact hab.withHeap _
  unfold Machine.tryAllocate makeRoom?
  rw [h.heap_eq]
  split_ifs
  · obtain ⟨result, he, he'⟩ := h.collectKeeping? v.refs
    rw [he, he']
    cases result with
    | none => exact ⟨rfl, h⟩
    | some x => exact hinsert (h.withHeap x.2)
  · exact hinsert h

/-- Place values one after the other, with what came of each. -/
def placeAll (m : Machine) : List Value → List (Except Refusal Ref) × Machine
  | [] => ([], m)
  | v :: vs =>
    let (reply, m) := m.tryAllocate v
    let (replies, m) := m.placeAll vs
    (reply :: replies, m)

/-- Any number of allocations. -/
theorem Relisted.placeAll {m m' : Machine} (h : m.Relisted m') (vs : List Value) :
    (m.placeAll vs).1 = (m'.placeAll vs).1 ∧ (m.placeAll vs).2.Relisted (m'.placeAll vs).2 := by
  induction vs generalizing m m' with
  | nil => exact ⟨rfl, h⟩
  | cons v vs ih =>
    obtain ⟨hreply, hone⟩ := h.tryAllocate v
    obtain ⟨hreplies, hall⟩ := ih hone
    simp only [Machine.placeAll]
    exact ⟨by rw [hreply, hreplies], hall⟩

/-! ## 5. The order of the roots is invisible -/

/-- **No one can tell in which order the roots were listed.**  After any run of actions on a new heap,
whether marks are set or not, a collection has a result, and it frees as many values and leaves the
same heap behind for any two lists of the same roots; and then all that can be done to the heap comes
to the same, however the roots are listed there.  Machines whose tables hold the same values in another
order gather the same roots: they place all values in the same slots, and collect the same. -/
theorem root_order_is_invisible (config : HeapConfig) (earlier : List Heap.Action)
    {roots roots' : List Handle} (hsame : ∀ r, r ∈ roots ↔ r ∈ roots') {later later' : List Heap.Action}
    (hlater : List.Forall₂ Heap.Action.Relisted later later') {m m' : Machine}
    (hm : m.Relisted m') (vs : List Value) :
    (∃ replies h n h' answers h'', (Heap.initial config).actAll? earlier = some (replies, h) ∧
      h.collect? roots = some (n, h') ∧ h.collect? roots' = some (n, h') ∧
      h'.actAll? later = some (answers, h'') ∧ h'.actAll? later' = some (answers, h'')) ∧
    (∀ r, r ∈ m.roots ↔ r ∈ m'.roots) ∧
    (m.placeAll vs).1 = (m'.placeAll vs).1 ∧ (m.placeAll vs).2.heap = (m'.placeAll vs).2.heap ∧
    (m.placeAll vs).2.collectGarbage?.map (fun x => (x.1, x.2.heap)) =
      (m'.placeAll vs).2.collectGarbage?.map (fun x => (x.1, x.2.heap)) := by
  have hinit : (Heap.initial config).InOrder := ⟨[], [], (Heap.Layout.initial config).toArranged, rfl⟩
  obtain ⟨replies, h, he, ho⟩ := hinit.actAll earlier
  obtain ⟨reply, h', hact, ho', -⟩ := ho.act (.operation (.collect roots))
  obtain ⟨answers, h'', hlast, -⟩ := ho'.actAll later
  obtain ⟨hreplies, hlisted⟩ := hm.placeAll vs
  refine ⟨?_, hm.mem_roots, hreplies, hlisted.heap_eq.symm, ?_⟩
  · obtain ⟨⟨n, h₁⟩, hc, heq⟩ := Option.map_eq_some_iff.1 hact
    obtain ⟨-, rfl⟩ := Prod.mk.inj heq
    exact ⟨replies, h, n, h₁, answers, h'', he, hc, h.collect?_congr hsame ▸ hc, hlast,
      Heap.actAll?_relisted hlater h₁ ▸ hlast⟩
  · obtain ⟨result, hc, hc'⟩ := hlisted.collectKeeping? []
    rw [collectGarbage?, collectGarbage?, hc, hc', Option.map_map, Option.map_map]
    rfl

/-- Two values that hold each other, and one that nothing holds. -/
def twoHeld : List Heap.Action :=
  [.operation (.insert (.ofVector #[.heap ⟨1, 0⟩])), .operation (.insert (.ofVector #[.heap ⟨0, 0⟩])),
    .operation (.insert (.ofInt 7))]

/-- The heap with these values. -/
def twoHeldHeap : Heap where
  slots := #[.live ⟨.ofVector #[.heap ⟨1, 0⟩], 0, false, none, some 1⟩,
    .live ⟨.ofVector #[.heap ⟨0, 0⟩], 0, false, some 0, some 2⟩,
    .live ⟨.ofInt 7, 0, false, some 1, none⟩]
  head := some 0
  tail := some 2
  free := none
  live := 3
  config := ⟨0, true⟩
  stats := ⟨3, 0, 0⟩

/-- Bindings of the two values that hold each other. -/
def twoHeldEntries : Bindings :=
  [(⟨1⟩, ⟨.heap ⟨0, 0⟩, .mutable, .builtin⟩), (⟨2⟩, ⟨.heap ⟨1, 0⟩, .mutable, .builtin⟩)]

/-- A machine on that heap which collects at every allocation, with some bindings in its global
frame. -/
def holding (entries : Bindings) : Machine :=
  { bare ⟨⟨0, true⟩, none, .terminal, false, .standard⟩ .initial with
    heap := twoHeldHeap
    scopes := ScopeStack.initial.modifyEntries 0 fun _ => entries }

/-- One of the three values goes, whichever of the two others is listed first, and machines that bind
these two in one order and in the other place new values in the same slots. -/
theorem root_order_is_invisible_ring :
    (∃ h', twoHeldHeap.collect? [⟨0, 0⟩, ⟨1, 0⟩] = some (1, h') ∧
      twoHeldHeap.collect? [⟨1, 0⟩, ⟨0, 0⟩, ⟨1, 0⟩] = some (1, h')) ∧
    ((holding twoHeldEntries).placeAll [.ofInt 8, .ofInt 9]).1 =
      ((holding twoHeldEntries.reverse).placeAll [.ofInt 8, .ofInt 9]).1 := by
  have hm : (holding twoHeldEntries).Relisted (holding twoHeldEntries.reverse) :=
    ⟨rfl, rfl, .cons (List.reverse_perm _).symm .nil, [], .nil, .nil⟩
  have hsame : ∀ r : Handle, r ∈ [⟨0, 0⟩, ⟨1, 0⟩] ↔ r ∈ [⟨1, 0⟩, ⟨0, 0⟩, ⟨1, 0⟩] := by simp
  obtain ⟨⟨replies, h, n, h', answers, h'', he, hc, hc', -⟩, -, hplace, -⟩ :=
    root_order_is_invisible ⟨0, true⟩ twoHeld hsame .nil hm [.ofInt 8, .ofInt 9]
  have hrun : (Heap.initial ⟨0, true⟩).actAll? twoHeld =
      some ([some ⟨0, 0⟩, some ⟨1, 0⟩, some ⟨2, 0⟩], twoHeldHeap) := rfl
  obtain ⟨rfl, rfl⟩ := Prod.mk.inj (Option.some.inj (hrun.symm.trans he))
  have hmark : Heap.markFrom twoHeldHeap.slots [⟨0, 0⟩, ⟨1, 0⟩] =
      #[.live ⟨.ofVector #[.heap ⟨1, 0⟩], 0, true, none, some 1⟩,
        .live ⟨.ofVector #[.heap ⟨0, 0⟩], 0, true, some 0, some 2⟩,
        .live ⟨.ofInt 7, 0, false, some 1, none⟩] := by
    simp [Heap.markFrom, twoHeldHeap, Value.refs, Value.ofVector, Payload.refs, Payload.elements?,
      Ref.handle?]
  have hone : (twoHeldHeap.collect? [⟨0, 0⟩, ⟨1, 0⟩]).map Prod.fst = some 1 := by
    rw [Heap.collect?, Heap.mark, hmark]
    rfl
  obtain rfl : n = 1 := by simpa [hc] using hone
  exact ⟨⟨h', hc, hc'⟩, hplace⟩

end Machine

end ScriptMachine
