/-
# Copies made side by side

The copy of a value is made by a loop that visits one original after the other.  Between two visits
the machine is not as a waiting computation may find it, since a shell that is under way changes its
elements; but nothing that was held when the copy began has changed (`Machine.Preserves`), and that is
the order in which the loop is followed here.

`Copying w₀ w copies copies'` is the invariant of the loop, for a copy that began in the world `w₀`:
originals are held in `w₀`, two originals that are paired have both been copied or neither, and their
copies are paired, new, and temporary roots.  Visits are counted: each takes an original of which
there is no copy yet, and there are no more originals than live values, so the loop ends before its
budget does.

* `Copying.store`: copies are stored until the next original has to be visited;
* `Copying.copyFrom`: the loop ends on both sides, with copies that are kept;
* `Effect.Agree.duplicate`: copies of values that are kept.
-/
import ScriptMachine.Machine.Duplicate
import ScriptMachine.Proofs.Heap.Store
import ScriptMachine.Proofs.Twin.Agreement

namespace ScriptMachine

/-! ## 1. Nothing held has changed -/

/-- A machine that has more temporary roots, but on which nothing held has changed. -/
structure Machine.Preserves (m m' : Machine) : Prop where
  temps : m.temps.toList <+: m'.temps.toList
  modules_eq : m'.modules = m.modules
  calls_eq : m'.calls = m.calls
  held : ∀ h, m.Held h → m'.heap.get? h = m.heap.get? h

theorem Machine.Preserves.evolves {m m' : Machine} (h : m.Preserves m') : m.Evolves m' :=
  ⟨h.temps, h.modules_eq, h.calls_eq, fun a v ha hv =>
    ⟨v, (h.held a ha).trans hv, List.prefix_rfl⟩⟩

/-- There are no more copies than values that may have one. -/
theorem Copies.size_le_ncard {copies : Copies} {s : Set Handle} (hs : s.Finite)
    (hkeys : ∀ a ∈ copies, a ∈ s) : copies.size ≤ s.ncard := by
  have hnodup : copies.keys.Nodup :=
    (Std.HashMap.distinct_keys (m := copies)).imp fun hne => by simpa using hne
  have hsub : ↑copies.keys.toFinset ⊆ s := fun a ha => hkeys a (by simpa using ha)
  have hcard := Set.ncard_le_ncard hsub hs
  rwa [Set.ncard_coe_finset, List.toFinset_card_of_nodup hnodup, Std.HashMap.length_keys] at hcard

/-- There are fewer copies than values that may have one, as long as one of these has none. -/
theorem Copies.size_lt_ncard {copies : Copies} {s : Set Handle} (hs : s.Finite)
    (hkeys : ∀ a ∈ copies, a ∈ s) {a : Handle} (ha : a ∈ s) (hnew : copies[a]? = none) :
    copies.size < s.ncard := by
  have hmem : a ∉ copies := by
    rw [Std.HashMap.mem_iff_isSome_getElem?, hnew]
    simp
  have hle : copies.size ≤ (s \ {a}).ncard :=
    Copies.size_le_ncard (hs.subset Set.sdiff_subset) fun b hb =>
      ⟨hkeys b hb, fun he => hmem (Set.mem_singleton_iff.1 he ▸ hb)⟩
  have hone := Set.ncard_sdiff_singleton_add_one ha hs
  omega

/-- There are fewer copies of live values than live values as long as one of them has none. -/
theorem Heap.WellFormed.size_copies_lt {h : Heap} (hw : h.WellFormed) {copies : Copies}
    (hkeys : ∀ a ∈ copies, ∃ v, h.get? a = some v) {a : Handle} (ha : ∃ v, h.get? a = some v)
    (hnew : copies[a]? = none) : copies.size < h.live := by
  obtain ⟨used, free, hl⟩ := hw
  have hmem : ∀ b, (∃ v, h.get? b = some v) → b ∈ {r | h.contains r = true} := fun b hb => by
    rw [Set.mem_ofPred_eq, Heap.contains_eq, Option.isSome_iff_exists]
    exact hb
  rw [← hl.ncard_resolving.1]
  exact Copies.size_lt_ncard hl.ncard_resolving.2 (fun b hb => hmem b (hkeys b hb)) (hmem a ha) hnew

/-! ## 2. The invariant -/

section Copying

variable {exact : Prop}

/-- A pair of copies: both are temporary roots, and neither was held when the copy began. -/
structure World.NewPair (w₀ w : World exact) (a b : Handle) : Prop where
  pair : w.pairs a b
  leftTemp : Ref.heap a ∈ w.left.temps.toList
  rightTemp : Ref.heap b ∈ w.right.temps.toList
  leftNew : ¬ w₀.left.Held a
  rightNew : ¬ w₀.right.Held b

/-- What stands for an original on both sides: the singleton itself, or a pair of copies. -/
def World.Copied (w₀ w : World exact) : Ref → Ref → Prop := Ref.Alike (w₀.NewPair w)

/-- Where the copies on both sides stand. -/
structure Copying (w₀ w : World exact) (copies copies' : Copies) : Prop where
  left : w₀.left.Preserves w.left
  right : w₀.right.Preserves w.right
  known : ∀ a b, w₀.pairs a b → w₀.left.Held a → w₀.right.Held b →
    Option.Rel (w₀.Copied w) copies[a]? copies'[b]?
  leftKeys : ∀ a ∈ copies, w₀.left.Held a
  rightKeys : ∀ a ∈ copies', w₀.right.Held a

/-- Containers under way on both sides. -/
structure Pending.Alike (w₀ w : World exact) (p p' : Pending) : Prop where
  shell : ∃ a b, p.shell = .heap a ∧ p'.shell = .heap b ∧ w₀.NewPair w a b
  position_eq : p.position = p'.position
  rest : List.Forall₂ w₀.Kept p.rest p'.rest

/-- The loops on both sides have ended, or are about to visit originals that are paired. -/
inductive CopyState.Alike (w₀ w : World exact) (copies copies' : Copies) :
    CopyState → CopyState → Prop where
  | finished {c c' : Ref} : w₀.Copied w c c' →
      CopyState.Alike w₀ w copies copies' (.finished c) (.finished c')
  | visit {a b : Handle} {pending pending' : List Pending} : w₀.pairs a b → w₀.left.Held a →
      w₀.right.Held b → copies[a]? = none → copies'[b]? = none →
      List.Forall₂ (Pending.Alike w₀ w) pending pending' →
      CopyState.Alike w₀ w copies copies' (.visit (.heap a) pending) (.visit (.heap b) pending')

variable {w₀ w w' : World exact} {copies copies' : Copies}

/-- Temporary roots are held on to. -/
theorem World.NewPair.kept {a b : Handle} (h : w₀.NewPair w a b) : w.Kept (.heap a) (.heap b) := by
  obtain ⟨v, u, hv, hu, -⟩ := w.values a b h.pair
  refine .heap ⟨h.pair, .root ?_ hv, .root ?_ hu⟩
  · exact List.mem_filterMap.2 ⟨_, List.mem_append_right _ h.leftTemp, rfl⟩
  · exact List.mem_filterMap.2 ⟨_, List.mem_append_right _ h.rightTemp, rfl⟩

theorem World.Copied.kept {c c' : Ref} (h : w₀.Copied w c c') : w.Kept c c' := by
  cases h with
  | nil => exact .nil
  | bool b => exact .bool b
  | heap h => exact h.kept

theorem World.NewPair.mono {a b : Handle} (h : w₀.NewPair w a b) (hle : w ≤ w') :
    w₀.NewPair w' a b := by
  have hkept : w'.Kept (.heap a) (.heap b) := h.kept.mono hle
  cases hkept with
  | heap hab =>
    exact ⟨hab.1, hle.1.temps.subset h.leftTemp, hle.2.temps.subset h.rightTemp, h.leftNew,
      h.rightNew⟩

theorem World.Copied.mono {c c' : Ref} (h : w₀.Copied w c c') (hle : w ≤ w') :
    w₀.Copied w' c c' :=
  h.transfer fun _ _ _ _ hab => hab.mono hle

theorem Pending.Alike.mono {p p' : Pending} (h : p.Alike w₀ w p') (hle : w ≤ w') :
    p.Alike w₀ w' p' := by
  obtain ⟨⟨a, b, ha, hb, hab⟩, hpos, hrest⟩ := h
  exact ⟨⟨a, b, ha, hb, hab.mono hle⟩, hpos, hrest⟩

/-- An original has a copy on both sides or on neither. -/
theorem Copying.known? (hc : Copying w₀ w copies copies') {r r' : Ref} (h : w₀.Kept r r') :
    (∃ c c', copies.known? r = some c ∧ copies'.known? r' = some c' ∧ w₀.Copied w c c') ∨
    (∃ a b, r = .heap a ∧ r' = .heap b ∧ w₀.pairs a b ∧ w₀.left.Held a ∧ w₀.right.Held b ∧
      copies[a]? = none ∧ copies'[b]? = none) := by
  cases h with
  | nil => exact .inl ⟨.nil, .nil, rfl, rfl, .nil⟩
  | bool b => exact .inl ⟨.bool b, .bool b, rfl, rfl, .bool b⟩
  | @heap a b hab =>
    obtain ⟨hpair, ha, hb⟩ := hab
    rcases optionRel_cases (hc.known a b hpair ha hb) with ⟨hl, hr⟩ | ⟨c, c', hl, hr, hcc'⟩
    · exact .inr ⟨a, b, rfl, rfl, hpair, ha, hb, hl, hr⟩
    · exact .inl ⟨c, c', hl, hr, hcc'⟩

/-! ## 3. Stores -/

/-- The same element stored into payloads that are alike. -/
theorem Payload.Alike.setElement {pairs : Pairing} {p q : Payload} (h : p.Alike pairs q) (i : Nat)
    {r s : Ref} (hrs : r.Alike pairs s) : (p.setElement i r).Alike pairs (q.setElement i s) := by
  have hset : ∀ {xs ys : Array Ref}, List.Forall₂ (Ref.Alike pairs) xs.toList ys.toList →
      List.Forall₂ (Ref.Alike pairs) (xs.setIfInBounds i r).toList
        (ys.setIfInBounds i s).toList := by
    intro xs ys hxy
    have hsize : xs.size = ys.size := by simpa using hxy.length_eq
    refine forall₂_of_getElem? fun j => ?_
    have hj := forall₂_getElem? hxy j
    simp only [Array.getElem?_toList, Array.getElem?_setIfInBounds] at hj ⊢
    by_cases hij : i = j
    · rw [if_pos hij, if_pos hij, hsize]
      by_cases hlt : i < ys.size
      · rw [if_pos hlt, if_pos hlt]
        exact .some hrs
      · rw [if_neg hlt, if_neg hlt]
        exact .none
    · rw [if_neg hij, if_neg hij]
      exact hj
  cases h with
  | vector hxy => exact .vector (hset hxy)
  | fields hxy => exact .fields (hset hxy)
  | plain hp =>
    have hself : p.setElement i r = p ∧ p.setElement i s = p := by
      cases p <;> simp_all [Payload.setElement, Payload.elements?]
    rw [hself.1, hself.2]
    exact .plain hp

/-- A store changes no callable. -/
theorem Payload.callable?_setElement (p : Payload) (i : Nat) (r : Ref) :
    (p.setElement i r).callable? = p.callable? := by
  cases p <;> rfl

/-- A shell that is under way is not stale. -/
theorem World.NewPair.stale? {a b : Handle} (h : w₀.NewPair w a b) :
    w.left.stale? (.heap a) = none ∧ w.right.stale? (.heap b) = none := by
  obtain ⟨v, u, hv, hu, -⟩ := w.values a b h.pair
  simp [Machine.stale?, Heap.contains_eq, hv, hu]

/-- A store into a pair of shells changes nothing that was held when the copy began. -/
theorem Copying.write (hc : Copying w₀ w copies copies') {a b : Handle} (hab : w₀.NewPair w a b)
    (i : Nat) {c c' : Ref} (hcc' : w₀.Copied w c c') :
    ∃ w' : World exact, w.left.modifyPayload (.heap a) (·.setElement i c) = w'.left ∧
      w.right.modifyPayload (.heap b) (·.setElement i c') = w'.right ∧
      Copying w₀ w' copies copies' ∧ (∀ x y, w₀.NewPair w x y → w₀.NewPair w' x y) := by
  have hfg : ∀ v u, w.left.heap.get? a = some v → w.right.heap.get? b = some u →
      (v.payload.setElement i c).Alike w.pairs (u.payload.setElement i c') := by
    intro v u hv hu
    obtain ⟨x, y, hx, hy, hxy, -⟩ := w.values a b hab.pair
    obtain rfl : x = v := Option.some.inj (hx.symm.trans hv)
    obtain rfl : y = u := Option.some.inj (hy.symm.trans hu)
    exact hxy.payload.setElement i hcc'.kept.alike
  have heq : exact → (fun p : Payload => p.setElement i c) = fun p => p.setElement i c' := by
    intro he
    rw [Ref.Alike.eq hcc'.kept.alike (w.diagonal he)]
  let w' := w.write hab.pair hfg (fun p => p.callable?_setElement i c) heq
  have hnew : ∀ x y, w₀.NewPair w x y → w₀.NewPair w' x y := fun x y h =>
    ⟨h.pair, h.leftTemp, h.rightTemp, h.leftNew, h.rightNew⟩
  refine ⟨w', rfl, rfl, ⟨?_, ?_, fun x y hxy hx hy => ?_, hc.leftKeys, hc.rightKeys⟩, hnew⟩
  · refine ⟨hc.left.temps, hc.left.modules_eq, hc.left.calls_eq, fun x hx => ?_⟩
    have hne : x ≠ a := fun he => hab.leftNew (he ▸ hx)
    rw [← hc.left.held x hx]
    simp only [w', World.write, Machine.modifyPayload, Heap.modifyPayload, Heap.get?_modifyValue,
      if_neg hne]
  · refine ⟨hc.right.temps, hc.right.modules_eq, hc.right.calls_eq, fun x hx => ?_⟩
    have hne : x ≠ b := fun he => hab.rightNew (he ▸ hx)
    rw [← hc.right.held x hx]
    simp only [w', World.write, Machine.modifyPayload, Heap.modifyPayload, Heap.get?_modifyValue,
      if_neg hne]
  · rcases optionRel_cases (hc.known x y hxy hx hy) with ⟨hl, hr⟩ | ⟨d, d', hl, hr, hdd'⟩
    · rw [hl, hr]
      exact .none
    · rw [hl, hr]
      exact .some (hdd'.transfer fun _ _ _ _ => hnew _ _)

/-- **Stores along the containers under way**: they end on both sides with the whole copy, or before
two originals that are paired and of which there is no copy yet.  The induction is on the stores that
are left. -/
theorem Copying.store (hc : Copying w₀ w copies copies') {c c' : Ref} (hcc' : w₀.Copied w c c')
    {pending pending' : List Pending} (hp : List.Forall₂ (Pending.Alike w₀ w) pending pending') :
    ∃ (w' : World exact) (state state' : CopyState),
      w.left.store copies c pending = (state, w'.left) ∧
      w.right.store copies' c' pending' = (state', w'.right) ∧
      Copying w₀ w' copies copies' ∧ state.Alike w₀ w' copies copies' state' := by
  induction hn : Pending.work pending using Nat.strongRecOn generalizing w c c' pending pending' with
  | ind n ih =>
    subst hn
    cases hp with
    | nil =>
      exact ⟨w, _, _, by rw [Machine.store], by rw [Machine.store], hc, .finished hcc'⟩
    | @cons p p' outer outer' hpp' houter =>
      obtain ⟨shell, position, elements⟩ := p
      obtain ⟨shell', position', elements'⟩ := p'
      obtain ⟨⟨a, b, ha, hb, hab⟩, hpos, hrest⟩ := hpp'
      simp only at ha hb hpos hrest
      subst ha hb hpos
      obtain ⟨hs, hs'⟩ := hab.stale?
      obtain ⟨w₁, hl, hr, hc₁, hnew⟩ := hc.write hab position hcc'
      have houter₁ : List.Forall₂ (Pending.Alike w₀ w₁) outer outer' := by
        refine houter.imp fun p p' hpp' => ?_
        obtain ⟨⟨x, y, hx, hy, hxy⟩, hpos, hrest⟩ := hpp'
        exact ⟨⟨x, y, hx, hy, hnew x y hxy⟩, hpos, hrest⟩
      have hshell : w₀.Copied w₁ (.heap a) (.heap b) := .heap (hnew a b hab)
      rw [Machine.store, Machine.store, hs, hs']
      simp only [hl, hr]
      cases hrest with
      | nil => exact ih _ (by simp [Pending.work]) hc₁ hshell houter₁ rfl
      | @cons e e' rest rest' he hrest =>
        cases hrest with
        | nil => exact ih _ (by simp [Pending.work]) hc₁ hshell houter₁ rfl
        | @cons next next' rest rest' hnext hrest =>
          -- the container goes on with its next element
          have hpending : List.Forall₂ (Pending.Alike w₀ w₁)
              (⟨.heap a, position + 1, next :: rest⟩ :: outer)
              (⟨.heap b, position + 1, next' :: rest'⟩ :: outer') :=
            .cons ⟨⟨a, b, rfl, rfl, hnew a b hab⟩, rfl, .cons hnext hrest⟩ houter₁
          rcases hc₁.known? hnext with ⟨d, d', hd, hd', hdd'⟩ |
            ⟨x, y, rfl, rfl, hxy, hx, hy, hnone, hnone'⟩
          · simp only [hd, hd']
            exact ih _ (by simp [Pending.work]) hc₁ hdd' hpending rfl
          · have hk : copies.known? (.heap x) = none := hnone
            have hk' : copies'.known? (.heap y) = none := hnone'
            simp only [hk, hk']
            exact ⟨w₁, _, _, rfl, rfl, hc₁, .visit hxy hx hy hnone hnone' hpending⟩

/-! ## 4. Visits -/

/-- The invariant after a visit: the new pair is the copy of the original. -/
theorem Copying.visit (hc : Copying w₀ w copies copies') {a b x y : Handle} (hab : w₀.pairs a b)
    (ha : w₀.left.Held a) (hb : w₀.right.Held b) (hal : w.Allocated x y w') :
    w₀.NewPair (w'.pushTemp hal.pair) x y ∧
      Copying w₀ (w'.pushTemp hal.pair) (copies.insert a (.heap x))
        (copies'.insert b (.heap y)) := by
  have hle : w ≤ w'.pushTemp hal.pair := le_trans hal.le (w'.le_pushTemp hal.pair)
  have hnew : w₀.NewPair (w'.pushTemp hal.pair) x y := by
    refine ⟨hal.pair, ?_, ?_, fun hx => ?_, fun hy => ?_⟩
    · simp [World.pushTemp, Machine.root]
    · simp [World.pushTemp, Machine.root]
    · exact (hal.leftHeld x (hc.left.evolves.held_of_held hx)).1 rfl
    · exact (hal.rightHeld y (hc.right.evolves.held_of_held hy)).1 rfl
  refine ⟨hnew, ⟨?_, ?_, fun c d hcd hc' hd => ?_, fun c hmem => ?_, fun d hmem => ?_⟩⟩
  · refine ⟨hc.left.temps.trans hle.1.temps, hle.1.modules_eq.trans hc.left.modules_eq,
      hle.1.calls_eq.trans hc.left.calls_eq, fun c hheld => ?_⟩
    rw [← hc.left.held c hheld]
    exact (hal.leftHeld c (hc.left.evolves.held_of_held hheld)).2
  · refine ⟨hc.right.temps.trans hle.2.temps, hle.2.modules_eq.trans hc.right.modules_eq,
      hle.2.calls_eq.trans hc.right.calls_eq, fun c hheld => ?_⟩
    rw [← hc.right.held c hheld]
    exact (hal.rightHeld c (hc.right.evolves.held_of_held hheld)).2
  · rw [Std.HashMap.getElem?_insert, Std.HashMap.getElem?_insert]
    by_cases hca : a = c
    · have hdb : b = d := w₀.functional a b d hab (hca ▸ hcd)
      rw [if_pos (by simpa using hca), if_pos (by simpa using hdb)]
      exact .some (.heap hnew)
    · have hdb : b ≠ d := fun he => hca (w₀.injective a c b hab (he ▸ hcd))
      rw [if_neg (by simpa using hca), if_neg (by simpa using hdb)]
      rcases optionRel_cases (hc.known c d hcd hc' hd) with ⟨hl, hr⟩ | ⟨e, e', hl, hr, hee'⟩
      · rw [hl, hr]
        exact .none
      · rw [hl, hr]
        exact .some (hee'.mono hle)
  · rcases Std.HashMap.mem_insert.1 hmem with he | hmem
    · exact (by simpa using he : a = c) ▸ ha
    · exact hc.leftKeys c hmem
  · rcases Std.HashMap.mem_insert.1 hmem with he | hmem
    · exact (by simpa using he : b = d) ▸ hb
    · exact hc.rightKeys d hmem

/-- **The loop ends on both sides**, with copies that are kept, as long as each side may still visit
as many originals as it has live values without a copy. -/
theorem Copying.copyFrom (hc : Copying w₀ w copies copies') {state state' : CopyState}
    (hs : state.Alike w₀ w copies copies' state') {n n' : Nat}
    (hn : copies.size + n = w₀.left.heap.live) (hn' : copies'.size + n' = w₀.right.heap.live) :
    Step.Agree (fun w' r r' => w₀ ≤ w' ∧ SameResult w'.Kept r r')
      (w.left.copyFrom copies n state) (w.right.copyFrom copies' n' state') := by
  induction n generalizing w copies copies' state state' n' with
  | zero =>
    cases hs with
    | finished hcc' =>
      rw [Machine.copyFrom, Machine.copyFrom]
      exact .done w rfl rfl ⟨⟨hc.left.evolves, hc.right.evolves⟩, .ok hcc'.kept⟩
    | visit hab ha hb hnone hnone' hp =>
      have := w₀.leftHeap.size_copies_lt (fun a hmem => (hc.leftKeys a hmem).resolves)
        ha.resolves hnone
      omega
  | succ n ih =>
    cases hs with
    | finished hcc' =>
      rw [Machine.copyFrom, Machine.copyFrom]
      exact .done w rfl rfl ⟨⟨hc.left.evolves, hc.right.evolves⟩, .ok hcc'.kept⟩
    | @visit a b pending pending' hab ha hb hnone hnone' hp =>
      have hlt := w₀.rightHeap.size_copies_lt (fun a hmem => (hc.rightKeys a hmem).resolves)
        hb.resolves hnone'
      obtain ⟨n', rfl⟩ : ∃ k, n' = k + 1 := ⟨n' - 1, by omega⟩
      have hle₀ : w₀ ≤ w := ⟨hc.left.evolves, hc.right.evolves⟩
      have hkept : w₀.Kept (.heap a) (.heap b) := .heap ⟨hab, ha, hb⟩
      obtain ⟨v, u, hv, hu, hvu, hlaw⟩ := (hkept.mono hle₀).alike.resolve
      -- the values are those of the originals, so their items are originals too
      have hsame : w₀.left.resolve (.heap a) = .ok v ∧ w₀.right.resolve (.heap b) = .ok u := by
        simp only [Machine.resolve, hc.left.held a ha, hc.right.held b hb] at hv hu ⊢
        obtain ⟨x, hx⟩ := Heap.Reach.resolves ha
        obtain ⟨y, hy⟩ := Heap.Reach.resolves hb
        simp only [hx, hy] at hv hu ⊢
        exact ⟨hv, hu⟩
      have hitems : List.Forall₂ w₀.Kept v.payload.items u.payload.items :=
        hkept.items hsame.1 hsame.2
      rw [Machine.copyFrom, Machine.copyFrom, hv, hu]
      simp only
      rcases w.allocate hvu hlaw with ⟨x, y, w₁, hl, hr, hal⟩ | ⟨m, hl, hfull, -⟩ |
        ⟨m, hr, hfull, -⟩
      · obtain ⟨hnew, hc₂⟩ := hc.visit hab ha hb hal
        have hle : w ≤ w₁.pushTemp hal.pair := le_trans hal.le (w₁.le_pushTemp hal.pair)
        have hp₂ := hp.imp fun _ _ hpp' => hpp'.mono hle
        have hsize : (copies.insert a (.heap x)).size + n = w₀.left.heap.live := by
          rw [Std.HashMap.size_insert, if_neg (by
            rw [Std.HashMap.mem_iff_isSome_getElem?, hnone]
            simp)]
          omega
        have hsize' : (copies'.insert b (.heap y)).size + n' = w₀.right.heap.live := by
          rw [Std.HashMap.size_insert, if_neg (by
            rw [Std.HashMap.mem_iff_isSome_getElem?, hnone']
            simp)]
          omega
        -- storing a copy leads to the next visit, or to the end
        have hstore : ∀ {c c' : Ref} {q q' : List Pending},
            w₀.Copied (w₁.pushTemp hal.pair) c c' →
            List.Forall₂ (Pending.Alike w₀ (w₁.pushTemp hal.pair)) q q' →
            Step.Agree (fun w' r r' => w₀ ≤ w' ∧ SameResult w'.Kept r r')
              (let p := (w₁.left.root (.heap x)).store (copies.insert a (.heap x)) c q
               p.2.copyFrom (copies.insert a (.heap x)) n p.1)
              (let p := (w₁.right.root (.heap y)).store (copies'.insert b (.heap y)) c' q'
               p.2.copyFrom (copies'.insert b (.heap y)) n' p.1) := by
          intro c c' q q' hcc' hq
          obtain ⟨w₃, st, st', hst, hst', hc₃, hs₃⟩ := hc₂.store hcc' hq
          have hl₃ : (w₁.left.root (.heap x)).store (copies.insert a (.heap x)) c q =
            (st, w₃.left) := hst
          have hr₃ : (w₁.right.root (.heap y)).store (copies'.insert b (.heap y)) c' q' =
            (st', w₃.right) := hst'
          simp only [hl₃, hr₃]
          exact ih hc₃ hs₃ hsize hsize'
        simp only [hl, hr]
        have hitems' : List.Forall₂ w₀.Kept (v.payload.elements?.getD #[]).toList
          (u.payload.elements?.getD #[]).toList := hitems
        generalize (v.payload.elements?.getD #[]).toList = items at hitems' ⊢
        generalize (u.payload.elements?.getD #[]).toList = items' at hitems' ⊢
        cases hitems' with
        | nil => exact hstore (.heap hnew) hp₂
        | @cons first first' rest rest' hfirst hrest =>
          have hp₃ : List.Forall₂ (Pending.Alike w₀ (w₁.pushTemp hal.pair))
              (⟨.heap x, 0, first :: rest⟩ :: pending) (⟨.heap y, 0, first' :: rest'⟩ :: pending') :=
            .cons ⟨⟨x, y, rfl, rfl, hnew⟩, rfl, .cons hfirst hrest⟩ hp₂
          rcases hc₂.known? hfirst with ⟨d, d', hd, hd', hdd'⟩ |
            ⟨c, d, rfl, rfl, hcd, hc', hd, hk, hk'⟩
          · simp only [hd, hd']
            exact hstore hdd' hp₃
          · have hunknown : Copies.known? (copies.insert a (.heap x)) (.heap c) = none := hk
            have hunknown' : Copies.known? (copies'.insert b (.heap y)) (.heap d) = none := hk'
            simp only [hunknown, hunknown']
            exact ih hc₂ (.visit hcd hc' hd hk hk' hp₃) hsize hsize'
      · simp only [hl]
        exact .leftFull _ hfull
      · simp only [hr]
        exact .rightFull _ hfull

/-- Copies of values that are kept are kept. -/
theorem Effect.Agree.duplicate {r r' : Ref} (h : w.Kept r r') :
    Effect.Agree w (Effect.duplicate r) (Effect.duplicate r') World.Kept := by
  unfold Effect.Agree Effect.duplicate Machine.duplicate
  cases h with
  | nil => exact .done w rfl rfl ⟨le_rfl, .ok .nil⟩
  | bool b => exact .done w rfl rfl ⟨le_rfl, .ok (.bool b)⟩
  | heap hab =>
    have hc : Copying w w ∅ ∅ := by
      refine ⟨⟨List.prefix_rfl, rfl, rfl, fun _ _ => rfl⟩, ⟨List.prefix_rfl, rfl, rfl, fun _ _ => rfl⟩,
        fun a b _ _ _ => ?_, fun a ha => ?_, fun a ha => ?_⟩
      · simp only [Std.HashMap.getElem?_empty]
        exact .none
      · simp at ha
      · simp at ha
    exact hc.copyFrom (.visit hab.1 hab.2.1 hab.2.2 (by simp) (by simp) .nil) (by simp) (by simp)

end Copying

end ScriptMachine
