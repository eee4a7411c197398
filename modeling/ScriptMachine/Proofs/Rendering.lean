/-
# The two renderings agree

Where every type inherits the built-in method `str`, the rendering that asks the values and the one
that asks no one come to the same text.  The first one calls a method for each value on the way, keeps
count of the vectors around it on the machine and places each text on the heap, with a collection
whenever one is due; the second one counts down and only reads.

Both are compared with what the machine shows on which the rendering began.  What lies below the
vector that is being rendered is reachable at every moment, as each value is a temporary root while
its method runs, so it still is on the heap when its turn comes.

* `TypeTable.Tree.lookupMethod_inherited`: a method that only the root has is found on every type;
* `Machine.Affords`: room for all texts at once, or for one after the other if the collector runs;
* `Machine.exists_renderNested`: the plain rendering has a text;
* `Machine.renderAll_completes`, `Machine.renders`: one vector, and all depths;
* `Machine.render_eq_renderPlain`: the two renderings.
-/
import ScriptMachine.Proofs.Balance
import ScriptMachine.Proofs.BuiltinTables
import ScriptMachine.Proofs.Completion

namespace ScriptMachine

open Effect

/-! ## 1. A method of the root -/

/-- **A method that only the root has is found on every type.** -/
theorem TypeTable.Tree.lookupMethod_inherited {t : TypeTable} (h : t.Tree) {name : Name}
    {entry : MethodEntry} (hroot : t.ownMethodOf name .baseObject = some entry)
    (hother : ∀ id, id ≠ .baseObject → t.ownMethodOf name id = none) {id : TypeId}
    (hid : (t.get? id).isSome = true) : t.lookupMethod id name = .ok ⟨.baseObject, entry⟩ := by
  refine h.induct (P := fun id => t.lookupMethod id name = .ok ⟨.baseObject, entry⟩) ?_ ?_ id hid
  · rw [ownMethodOf] at hroot
    simp only [lookupMethod, h.chain_root, List.findSome?_cons, hroot, Option.map_some]
  · intro id info hinfo hne ih
    have hnone := hother id hne
    rw [ownMethodOf] at hnone
    rw [lookupMethod, h.chain_of hinfo hne, List.findSome?_cons, hnone]
    exact ih

namespace Machine

variable {m₀ m m' : Machine} {d n k frames slots : Nat} {r e : Ref} {v : Value} {text : String}

/-- Several values have texts if each of them has one. -/
theorem exists_mapM {f : Ref → Except Defect String} {items : List Ref}
    (h : ∀ e ∈ items, ∃ text, f e = .ok text) : ∃ texts, items.mapM f = .ok texts := by
  induction items with
  | nil => exact ⟨[], rfl⟩
  | cons e rest ih =>
    obtain ⟨text, htext⟩ := h e List.mem_cons_self
    obtain ⟨texts, htexts⟩ := ih fun e he => h e (List.mem_cons_of_mem _ he)
    refine ⟨text :: texts, ?_⟩
    rw [List.mapM_cons, htext, htexts]
    rfl

/-- The texts of several values, one by one. -/
theorem forall₂_of_mapM {f : Ref → Except Defect String} {items : List Ref} {texts : List String}
    (h : items.mapM f = .ok texts) : List.Forall₂ (fun e text => f e = .ok text) items texts := by
  induction items generalizing texts with
  | nil =>
    obtain rfl : [] = texts := Except.ok.inj h
    exact .nil
  | cons e rest ih =>
    rw [List.mapM_cons] at h
    cases hfirst : f e with
    | error defect =>
      rw [hfirst] at h
      cases h
    | ok text =>
      cases hrest : rest.mapM f with
      | error defect =>
        rw [hfirst, hrest] at h
        cases h
      | ok texts' =>
        rw [hfirst, hrest] at h
        obtain rfl : text :: texts' = texts := Except.ok.inj h
        exact .cons hfirst (ih hrest)

theorem items_vector {items : Array Ref} (h : v.payload = .vector items) :
    v.payload.items = items.toList := by
  rw [h]
  rfl

/-! ## 2. What the plain rendering shows -/

/-- How many values the plain rendering shows, each as often as it does. -/
def shown (m : Machine) : Nat → Ref → Nat
  | depth, r =>
    match m.resolve r with
    | .error _ => 0
    | .ok v =>
      match depth, v.payload with
      | depth + 1, .vector items => 1 + (items.toList.map fun item => m.shown depth item).sum
      | _, _ => 1

/-- A value whose elements are shown. -/
theorem shown_vector {items : Array Ref} (hv : m.resolve r = .ok v)
    (hitems : v.payload = .vector items) :
    m.renderNested (d + 1) r = (items.toList.mapM (m.renderNested d)).map bracketed ∧
      m.shown (d + 1) r = 1 + (items.toList.map (m.shown d)).sum := by
  constructor
  · rw [renderNested, hv]
    simp only [hitems]
    cases items.toList.mapM (m.renderNested d) with
    | ok texts => rfl
    | error e => rfl
  · rw [shown, hv]
    simp only [hitems]

/-- A value that is shown by itself: not a vector, or one that is too deep inside others. -/
theorem shown_scalar (hv : m.resolve r = .ok v) (hd : d = 0 ∨ ∀ items, v.payload ≠ .vector items) :
    m.renderNested d r = .ok (m.renderScalar v) ∧ m.shown d r = 1 := by
  cases d with
  | zero =>
    rw [renderNested, shown, hv]
    exact ⟨rfl, rfl⟩
  | succ d =>
    rw [renderNested, shown, hv]
    obtain ⟨type, payload⟩ := v
    cases payload with
    | vector items => exact absurd rfl (hd.resolve_left (Nat.succ_ne_zero d) items)
    | _ => exact ⟨rfl, rfl⟩

/-- **The plain rendering has a text** on a closed heap. -/
theorem exists_renderNested (hcl : m.heap.Closed) (hv : m.resolve r = .ok v) (d : Nat) :
    ∃ text, m.renderNested d r = .ok text := by
  induction d generalizing r v with
  | zero => exact ⟨_, (shown_scalar hv (.inl rfl)).1⟩
  | succ d ih =>
    by_cases hvec : ∃ items, v.payload = .vector items
    swap
    · exact ⟨_, (shown_scalar hv (.inr (not_exists.1 hvec))).1⟩
    obtain ⟨items, hitems⟩ := hvec
    have hitem : ∀ e ∈ items.toList, ∃ text, m.renderNested d e = .ok text := by
      intro e he
      rw [← items_vector hitems] at he
      obtain ⟨w, hw⟩ := exists_resolve_item hcl hv he
      exact ih hw
    obtain ⟨texts, htexts⟩ := exists_mapM hitem
    rw [(shown_vector hv hitems).1, htexts]
    exact ⟨bracketed texts, rfl⟩

/-- What has a plain rendering resolves. -/
theorem exists_resolve (h : m.renderNested d r = .ok text) : ∃ v, m.resolve r = .ok v := by
  cases hv : m.resolve r with
  | ok v => exact ⟨v, rfl⟩
  | error defect =>
    rw [renderNested.eq_def] at h
    simp [hv] at h

/-! ## 3. While a value is rendered -/

/-- A machine that shows a value as another one does: it has the same names, types and values below
it. -/
structure Shares (m₀ m : Machine) (r : Ref) : Prop where
  names_eq : m.names = m₀.names
  types_eq : m.types = m₀.types
  same : ∀ a ∈ m₀.heap.Below r, m.heap.get? a = m₀.heap.get? a

namespace Shares

theorem resolve (h : m₀.Shares m r) (hv : m₀.resolve r = .ok v) : m.resolve r = .ok v := by
  cases r with
  | nil => exact hv
  | bool b => exact hv
  | heap a =>
    have ha := resolve_heap.1 hv
    exact resolve_heap.2 ((h.same a (Heap.below_heap ha)).trans ha)

theorem item (h : m₀.Shares m r) (hv : m₀.resolve r = .ok v) (he : e ∈ v.payload.items) :
    m₀.Shares m e := by
  obtain ⟨a, rfl, ha⟩ := exists_handle hv he
  exact ⟨h.names_eq, h.types_eq, fun b hb => h.same b (Heap.below_item ha he hb)⟩

/-- What a rooted value shows is not changed by allocations. -/
theorem spares (h : m₀.Shares m r) (hr : m.Rooted r) (hs : m.Spares m') : m₀.Shares m' r where
  names_eq := by rw [hs.parts, ← h.names_eq]
  types_eq := by rw [hs.parts, ← h.types_eq]
  same a ha := (hs.get?_below hr (Heap.below_subset h.same ha)).trans (h.same a ha)

/-- Calls, counters and temporary roots do not show. -/
theorem inside (h : m₀.Shares m r) {temps : Array Ref} {calls : CallStack} {renderDepth : Nat} :
    m₀.Shares { m with temps, calls, renderDepth } r :=
  ⟨h.names_eq, h.types_eq, h.same⟩

theorem renderScalar_eq (h : m₀.Shares m r) (v : Value) : m.renderScalar v = m₀.renderScalar v := by
  simp only [renderScalar, typeText, Machine.text, h.names_eq, h.types_eq]

end Shares

/-- A heap that allocations have made of the one of a machine: the roots reach what they did, and at
most `n` more values are live. -/
structure Retains (m : Machine) (heap : Heap) (n : Nat) : Prop where
  spares : m.Spares { m with heap }
  wellTyped : { m with heap }.WellTyped
  closed : heap.Closed
  config_eq : heap.config = m.heap.config
  live_le : heap.live ≤ m.heap.live + n

theorem Retains.trans {heap heap' : Heap} (h : m.Retains heap n)
    (h' : { m with heap }.Retains heap' k) : m.Retains heap' (n + k) where
  spares := h.spares.trans h'.spares
  wellTyped := h'.wellTyped
  closed := h'.closed
  config_eq := h'.config_eq.trans h.config_eq
  live_le := by
    have hle := h.live_le
    have hle' : heap'.live ≤ heap.live + k := h'.live_le
    omega

/-- What was spared inside, where there are more temporary roots, is spared. -/
theorem Retains.inside {temps : Array Ref} {calls : CallStack} {renderDepth : Nat} {heap : Heap}
    (htemps : m.temps.toList <+: temps.toList)
    (h : { m with temps, calls, renderDepth }.Retains heap n) : m.Retains heap n where
  spares := by
    refine ⟨rfl, List.prefix_rfl, h.spares.wellFormed, fun a ha => h.spares.kept a ?_⟩
    exact ha.of_subset fun c hc x hx => .root (mem_roots_of_temps htemps hc) hx
  wellTyped := ⟨h.wellTyped.builtins, h.wellTyped.values⟩
  closed := h.closed
  config_eq := h.config_eq
  live_le := h.live_le

/-- One more value, without references. -/
theorem Allocates.retains {a : Handle} (h : m.Allocates v a m') (ht : m.WellTyped)
    (hcl : m.heap.Closed) (hv : v.WellTyped m.types m.modules) (hrefs : v.refs = []) :
    m' = { m with heap := m'.heap } ∧ m.Retains m'.heap 1 := by
  have hparts : m' = { m with heap := m'.heap } := by
    have hspares := h.spares.parts
    rw [h.temps_eq] at hspares
    exact hspares
  have htyped : m'.WellTyped := by
    have hallocated := ht.allocate hv
    rwa [h.eq] at hallocated
  have hclosed : m'.heap.Closed := h.closed hcl fun b hb => by
    rw [hrefs] at hb
    cases hb
  exact ⟨hparts, hparts ▸ h.spares, hparts ▸ htyped, hclosed, h.config_eq, h.live_le⟩

/-- A computation has come to an answer, and to another heap. -/
def Yields {α : Type} (m : Machine) (n : Nat) (a : α) (m' : Machine) (b : α) : Prop :=
  b = a ∧ ∃ heap, m' = { m with heap } ∧ m.Retains heap n

/-- A computation has placed a text, and has come to another heap. -/
def Places (m : Machine) (n : Nat) (text : String) (m' : Machine) (r : Ref) : Prop :=
  ∃ a heap, r = .heap a ∧ m' = { m with heap } ∧ heap.get? a = some (.ofStr text) ∧ m.Retains heap n

/-- A machine on which vectors can be rendered `d` deep, with room for some calls. -/
structure Ready (m : Machine) (d frames : Nat) : Prop where
  wellFormed : m.heap.WellFormed
  closed : m.heap.Closed
  wellTyped : m.WellTyped
  inherited : ∀ id, (m.types.get? id).isSome = true → ∃ owner name location,
    m.types.lookupMethod id m.methods.str =
      .ok ⟨owner, .native ⟨name, 1, false, .objectStr⟩, location⟩
  depth : m.renderDepth + d = maxRenderDepth
  room : ∀ limit, m.calls.limit = some limit → m.calls.depth + frames ≤ limit

theorem Ready.retains {heap : Heap} (h : m.Ready d frames) (hr : m.Retains heap n) :
    { m with heap }.Ready d frames :=
  ⟨hr.spares.wellFormed, hr.closed, hr.wellTyped, h.inherited, h.depth, h.room⟩

theorem Ready.unchanged (h : m.Ready d frames) : m.Retains m.heap 0 :=
  ⟨.refl h.wellFormed, h.wellTyped, h.closed, rfl, Nat.le_refl _⟩

/-- Inside calls and vectors, what is left of depth and room is looked at anew. -/
theorem Ready.inside {d' frames' renderDepth : Nat} {temps : Array Ref} {calls : CallStack}
    (h : m.Ready d frames) (hdepth : renderDepth + d' = maxRenderDepth)
    (hroom : ∀ limit, calls.limit = some limit → calls.depth + frames' ≤ limit) :
    { m with temps, calls, renderDepth }.Ready d' frames' :=
  ⟨h.wellFormed, h.closed, ⟨h.wellTyped.builtins, h.wellTyped.values⟩, h.inherited, hdepth, hroom⟩

/-- There is room for `n` texts in `slots` slots: for all of them at once, or for one after the other, if
the collector runs. -/
def Affords (m : Machine) (slots n : Nat) : Prop :=
  m.heap.live + n ≤ slots ∨ m.Collects ∧ m.reached < slots

namespace Affords

theorem mono (h : m.Affords slots n) (hle : k ≤ n) : m.Affords slots k :=
  h.imp_left fun hroom => by omega

/-- What is left after the first `k` of them. -/
theorem retains {heap : Heap} (h : m.Affords slots (k + n)) (hm : m.Ready d frames)
    (hr : m.Retains heap k) : { m with heap }.Affords slots n := by
  refine h.imp (fun hroom => ?_) fun ⟨hcollects, hreached⟩ => ⟨?_, ?_⟩
  · have hle := hr.live_le
    show heap.live + n ≤ slots
    omega
  · exact hr.spares.collects rfl hr.config_eq hcollects
  · exact (hr.spares.reached_le rfl hm.wellFormed hm.closed hcollects.roots).trans_lt hreached

/-- Calls and counters take no room. -/
theorem inside {calls : CallStack} {renderDepth : Nat} (h : m.Affords slots n) :
    { m with calls, renderDepth }.Affords slots n :=
  h.imp_right fun ⟨hcollects, hreached⟩ =>
    ⟨⟨hcollects.enabled, hcollects.threshold_lt, hcollects.roots⟩, hreached⟩

/-- A value that the roots reach takes no room as one of them. -/
theorem root (h : m.Affords slots n) (hm : m.Ready d frames) (hv : m.resolve r = .ok v)
    (hr : m.Rooted r) : (m.root r).Affords slots n := by
  have hheap := m.heap_root r
  refine h.imp (fun hroom => hheap ▸ hroom) fun ⟨hcollects, hreached⟩ => ⟨hcollects.root hv, ?_⟩
  exact (hr.reached_root hm.wellFormed).trans_lt hreached

/-- A text is placed where there is room for one. -/
theorem completes_allocate (h : m.Affords slots (n + 1)) (hm : m.Ready d frames) (text : String) :
    (allocate (.ofStr text) m).Completes slots fun m' r =>
      ∃ a, r = .heap a ∧ m.Allocates (.ofStr text) a m' := by
  refine Effect.completes_allocate hm.wellFormed fun m' hfull hlive => ?_
  rcases h with hroom | ⟨hcollects, hreached⟩
  · omega
  · exact (hcollects.maxSlots_le_reached hm.wellFormed rfl hfull).trans_lt hreached

end Affords

/-! ## 4. One vector -/

/-- Values are rendered through their methods as a machine shows them, up to some depth. -/
def Renders (m₀ : Machine) (slots d : Nat) : Prop :=
  ∀ m r text, m₀.Shares m r → m₀.renderNested d r = .ok text → m.Ready d (d + 1) →
    (m.root r).Affords slots (m₀.shown d r) →
    (render r m).Completes slots (m.Yields (m₀.shown d r) text)

/-- **The elements of a vector, first to last.**  The induction is on the elements: those that are
left have not changed, as they are rooted. -/
theorem renderAll_completes (hd : m₀.Renders slots d) {items : List Ref} {texts : List String}
    (htexts : List.Forall₂ (fun e text => m₀.renderNested d e = .ok text) items texts)
    (hitems : ∀ e ∈ items, m₀.Shares m e ∧ m.Rooted e) (hm : m.Ready d (d + 1))
    (hroom : m.Affords slots (items.map (m₀.shown d)).sum) (before : List String) :
    (renderAll items before m).Completes slots
      (m.Yields (items.map (m₀.shown d)).sum (before.reverse ++ texts)) := by
  induction htexts generalizing m before with
  | nil => exact .done ⟨(List.append_nil _).symm, m.heap, rfl, hm.unchanged⟩
  | @cons e text rest texts htext _ ih =>
    rw [List.map_cons, List.sum_cons] at hroom ⊢
    obtain ⟨hshares, hrooted⟩ := hitems e List.mem_cons_self
    obtain ⟨v, hv⟩ := exists_resolve htext
    have hfirst : (m.root e).Affords slots (m₀.shown d e) :=
      (hroom.mono (Nat.le_add_right _ _)).root hm (hshares.resolve hv) hrooted
    refine completes_bind (hd m e text hshares htext hm hfirst) ?_
    rintro m' text ⟨rfl, heap, rfl, hretains⟩
    have hrest : ∀ e ∈ rest, m₀.Shares { m with heap } e ∧ { m with heap }.Rooted e := by
      intro e he
      obtain ⟨hshares, hrooted⟩ := hitems e (List.mem_cons_of_mem _ he)
      exact ⟨hshares.spares hrooted hretains.spares, hretains.spares.rooted hrooted⟩
    refine (ih hrest (hm.retains hretains) (hroom.retains hm hretains) (text :: before)).imp ?_
    rintro m'' texts'' ⟨rfl, heap', rfl, hretains'⟩
    exact ⟨by simp, heap', rfl, hretains.trans hretains'⟩

/-- The built-in method on a value that is shown by itself. -/
theorem renderBuiltin_scalar (hv : m.resolve r = .ok v)
    (hdepth : maxRenderDepth ≤ m.renderDepth ∨ ∀ items, v.payload ≠ .vector items) :
    renderBuiltin r m = .done m (m.renderScalar v) := by
  have hplain : (∀ items, v.payload ≠ .vector items) →
      Effect.renderPlain r m = .done m (m.renderScalar v) := by
    intro hpayload
    rw [Effect.renderPlain, readOrDefect, Machine.renderPlain, (shown_scalar hv (.inr hpayload)).1]
  show Step.bind (value r m) _ = _
  rw [value, readOrDefect, hv]
  obtain ⟨type, payload⟩ := v
  cases payload with
  | vector items =>
    have hdeep := hdepth.resolve_right fun h => h items rfl
    show (if maxRenderDepth ≤ m.renderDepth then (pure tooDeep : Effect String) else _) m = _
    rw [if_pos hdeep]
    rfl
  | _ =>
    refine hplain fun items heq => ?_
    cases heq

/-- The built-in method on a vector whose elements are shown. -/
theorem renderBuiltin_vector {items : Array Ref} (hv : m.resolve r = .ok v)
    (hitems : v.payload = .vector items) (hdepth : m.renderDepth < maxRenderDepth) :
    renderBuiltin r m =
      (inRendering (renderAll items.toList []) >>= fun texts => pure (bracketed texts)) m := by
  show Step.bind (value r m) _ = _
  rw [value, readOrDefect, hv]
  obtain ⟨type, payload⟩ := v
  obtain rfl : payload = .vector items := hitems
  show (if maxRenderDepth ≤ m.renderDepth then (pure tooDeep : Effect String) else _) m = _
  rw [if_neg (Nat.not_le.2 hdepth)]

/-- The elements of a vector, inside it. -/
theorem renderItems_completes {items : Array Ref} {texts : List String}
    (hd : m₀.Renders slots d) (hs : m₀.Shares m r) (hr : m.Rooted r) (hv : m₀.resolve r = .ok v)
    (hitems : v.payload = .vector items)
    (htexts : List.Forall₂ (fun e text => m₀.renderNested d e = .ok text) items.toList texts)
    (hm : m.Ready (d + 1) (d + 1))
    (hroom : m.Affords slots (items.toList.map (m₀.shown d)).sum) :
    (inRendering (renderAll items.toList []) m).Completes slots
      (m.Yields (items.toList.map (m₀.shown d)).sum texts) := by
  have hkept : ∀ e ∈ items.toList, m₀.Shares m e ∧ m.Rooted e := by
    intro e he
    obtain ⟨text, -, htext⟩ := exists_mem_of_forall₂ htexts he
    obtain ⟨w, hw⟩ := exists_resolve htext
    rw [← items_vector hitems] at he
    have hshares := hs.item hv he
    exact ⟨hshares, hr.item (hs.resolve hv) he (hshares.resolve hw)⟩
  have hdepth : m.renderDepth + 1 + d = maxRenderDepth := by
    have hdepth := hm.depth
    omega
  have hall := renderAll_completes (m := { m with renderDepth := m.renderDepth + 1 }) hd htexts
    (fun e he => ⟨(hkept e he).1.inside, (hkept e he).2⟩) (hm.inside hdepth hm.room)
    hroom.inside []
  refine hall.onExit ?_
  rintro m' texts' ⟨rfl, heap, rfl, hretains⟩
  exact ⟨rfl, heap, rfl, hretains.inside List.prefix_rfl⟩

/-- **The built-in method answers with the plain rendering**, and all texts but its own are placed by
then. -/
theorem renderBuiltin_completes (hd : ∀ d', d = d' + 1 → m₀.Renders slots d')
    (hs : m₀.Shares m r) (hr : m.Rooted r) (htext : m₀.renderNested d r = .ok text)
    (hm : m.Ready d d) (hroom : m.Affords slots (m₀.shown d r)) :
    ∃ k, m₀.shown d r = k + 1 ∧ (renderBuiltin r m).Completes slots (m.Yields k text) := by
  obtain ⟨v, hv₀⟩ := exists_resolve htext
  have hv := hs.resolve hv₀
  have hdepth := hm.depth
  by_cases hscalar : d = 0 ∨ ∀ items, v.payload ≠ .vector items
  · obtain ⟨hplain, hshown⟩ := shown_scalar hv₀ hscalar
    obtain rfl : m₀.renderScalar v = text := Except.ok.inj (hplain.symm.trans htext)
    refine ⟨0, hshown, ?_⟩
    rw [renderBuiltin_scalar hv (hscalar.imp_left fun hzero => by omega), hs.renderScalar_eq]
    exact .done ⟨rfl, m.heap, rfl, hm.unchanged⟩
  · obtain ⟨hpos, hvec⟩ := not_or.1 hscalar
    obtain ⟨d, rfl⟩ := Nat.exists_eq_add_one_of_ne_zero hpos
    obtain ⟨items, hitems⟩ := not_forall_not.1 hvec
    obtain ⟨hplain, hshown⟩ := shown_vector (d := d) hv₀ hitems
    rw [hplain] at htext
    cases htexts : items.toList.mapM (m₀.renderNested d) with
    | error defect => rw [htexts] at htext; cases htext
    | ok texts =>
      rw [htexts] at htext
      obtain rfl : bracketed texts = text := Except.ok.inj htext
      refine ⟨_, hshown.trans (Nat.add_comm _ _), ?_⟩
      rw [renderBuiltin_vector hv hitems (by omega)]
      refine completes_bind (renderItems_completes (hd d rfl) hs hr hv₀ hitems
        (forall₂_of_mapM htexts) hm (hroom.mono (by omega))) ?_
      rintro m' texts' ⟨rfl, heap, rfl, hretains⟩
      exact .done ⟨rfl, heap, rfl, hretains⟩

/-! ## 5. One value -/

/-- The text of a text that was placed. -/
theorem textOrPlain_eq {a : Handle} (h : m.heap.get? a = some (.ofStr text)) :
    textOrPlain (.heap a) m = .done m text := by
  show Step.bind (value (.heap a) m) _ = _
  rw [value, readOrDefect, resolve_heap.2 h]
  rfl

/-- A temporary root. -/
theorem exists_temps (m : Machine) (r : Ref) : ∃ temps, m.root r = { m with temps } ∧
    m.temps.toList <+: temps.toList ∧ ∀ a, r = .heap a → Ref.heap a ∈ temps.toList := by
  cases r with
  | nil => exact ⟨m.temps, rfl, List.prefix_rfl, nofun⟩
  | bool b => exact ⟨m.temps, rfl, List.prefix_rfl, nofun⟩
  | heap a =>
    refine ⟨m.temps.push (.heap a), rfl, by simp, fun b hb => ?_⟩
    rw [← hb]
    simp

/-- A type as a value describes a type. -/
theorem WellTyped.isSome_described (hm : m.WellTyped) {described : TypeId}
    (hv : m.resolve r = .ok v) (hp : v.payload = .type described) :
    (m.types.get? described).isSome = true := by
  obtain ⟨type, payload⟩ := v
  obtain rfl : payload = .type described := hp
  cases r with
  | nil => cases hv
  | bool b => cases hv
  | heap a => exact (hm.values a _ (resolve_heap.1 hv)).2

/-- The call of the method `str` on a value: the built-in one is found, also on a type, which is
asked for its own methods if that is the name of the one for new instances. -/
theorem Ready.callMethod_eq (hm : m.Ready d frames) (hv : m.resolve r = .ok v) :
    ∃ name, callMethod r m.methods.str [] .builtin m =
      call (.native ⟨name, 1, false, .objectStr⟩) [r] .builtin m := by
  have hfound : ∀ type, (m.types.get? type).isSome = true → ∃ name,
      callOnType type m.methods.str r [] .builtin m =
        call (.native ⟨name, 1, false, .objectStr⟩) [r] .builtin m := by
    intro type htype
    obtain ⟨owner, name, location, hlookup⟩ := hm.inherited type htype
    refine ⟨name, ?_⟩
    show Step.bind (readOrRaise _ m) _ = _
    rw [readOrRaise, hlookup]
    rfl
  have htype := hm.wellTyped.isSome_type hv
  show ∃ name, Step.bind (value r m) _ = _
  rw [value, readOrDefect, hv]
  refine hfound _ ?_
  split
  · next described hp =>
    split
    · exact hm.wellTyped.isSome_described hv hp
    · exact htype
  · exact htype

/-- **The body of the method `str`**: a text is placed, and it is the plain rendering. -/
theorem objectStr_completes (hd : ∀ d', d = d' + 1 → m₀.Renders slots d')
    (hs : m₀.Shares m r) (hr : m.Rooted r) (htext : m₀.renderNested d r = .ok text)
    (hm : m.Ready d d) (hroom : m.Affords slots (m₀.shown d r)) :
    (Procedure.objectStr.run [r] m).Completes slots (m.Places (m₀.shown d r) text) := by
  obtain ⟨k, hk, hbuiltin⟩ := renderBuiltin_completes hd hs hr htext hm hroom
  rw [hk] at hroom
  refine completes_bind hbuiltin ?_
  rintro m' text ⟨rfl, heap, rfl, hretains⟩
  have hone : { m with heap }.Affords slots (0 + 1) := hroom.retains hm hretains
  refine (hone.completes_allocate (hm.retains hretains) text).imp ?_
  rintro m' - ⟨a, rfl, hallocates⟩
  obtain ⟨hparts, hplaced⟩ := hallocates.retains hretains.wellTyped hretains.closed rfl rfl
  exact ⟨a, m'.heap, rfl, hparts, hallocates.get?_eq, hk ▸ hretains.trans hplaced⟩

/-- A call for whose frame there is room, and what is left of the room. -/
theorem Ready.exists_push (hm : m.Ready d (frames + 1)) (frame : CallFrame) :
    ∃ calls, m.calls.push frame = (.ok (), calls) ∧ { m with calls }.Ready d frames := by
  have hroom : ∀ limit, m.calls.limit = some limit → m.calls.depth < limit := by
    intro limit hlimit
    have hroom := hm.room limit hlimit
    omega
  obtain ⟨calls, hpush, hdepth, hlimit⟩ := CallStack.exists_push hroom frame
  refine ⟨calls, hpush, hm.inside hm.depth fun limit h => ?_⟩
  have hroom := hm.room limit (hlimit ▸ h)
  omega

/-- **One value**: its method runs as a call with the value as a temporary root, and both are gone
when the text is read. -/
theorem renders_of_items (hd : ∀ d', d = d' + 1 → m₀.Renders slots d') : m₀.Renders slots d := by
  intro m r text hs htext hm hroom
  obtain ⟨v, hv⟩ := exists_resolve htext
  obtain ⟨temps, hroot, htemps, hmem⟩ := exists_temps m r
  rw [hroot] at hroom
  have hm₁ : { m with temps }.Ready d (d + 1) := hm.inside hm.depth hm.room
  obtain ⟨name, hcall⟩ := hm₁.callMethod_eq (hs.inside.resolve hv)
  obtain ⟨calls, hpush, hm₂⟩ := hm₁.exists_push ⟨name, .builtin⟩
  have hrooted : { m with temps, calls }.Rooted r := by
    rintro a rfl
    exact reach_of_temp (hmem a rfl) (resolve_heap.1 (hs.resolve hv))
  have hbody := objectStr_completes hd hs.inside hrooted htext hm₂ hroom.inside
  have hnative : (call (.native ⟨name, 1, false, .objectStr⟩) [r] .builtin { m with temps }).Completes
      slots ({ m with temps }.Places (m₀.shown d r) text) := by
    refine completes_native rfl hpush hbody ?_
    rintro m' t ⟨a, heap, rfl, rfl, hget, hretains⟩
    exact ⟨rfl, a, heap, rfl, rfl, hget, hretains.inside List.prefix_rfl⟩
  -- the frame has come off and the root goes now, so nothing but the answer still holds the text
  have hmethod : (withRoots (do Effect.root r; callMethod r m.methods.str [] .builtin) m).Completes
      slots (m.Places (m₀.shown d r) text) := by
    show ((callMethod r m.methods.str [] .builtin (m.root r)).onExit _).Completes slots _
    rw [hroot, hcall]
    refine hnative.onExit ?_
    rintro m' t ⟨a, heap, rfl, rfl, hget, hretains⟩
    refine ⟨a, heap, rfl, ?_, hget, hretains.inside htemps⟩
    rw [releaseTo, shrink_of_prefix htemps]
  refine completes_bind (x := withRoots (do Effect.root r; callMethod r m.methods.str [] .builtin))
    hmethod ?_
  rintro m' t ⟨a, heap, rfl, rfl, hget, hretains⟩
  rw [textOrPlain_eq hget]
  exact .done ⟨rfl, heap, rfl, hretains⟩

/-- **All depths.**  The induction is on how deep vectors are still rendered. -/
theorem renders (m₀ : Machine) (slots d : Nat) : m₀.Renders slots d := by
  induction d with
  | zero => exact renders_of_items nofun
  | succ d ih =>
    refine renders_of_items fun d' hd' => ?_
    obtain rfl : d = d' := Nat.succ.inj hd'
    exact ih

/-! ## 6. Agreement -/

/-- How many slots are certainly enough: for all texts at once, or, if the collector runs, for one more
value than the roots reach. -/
theorem exists_affords (hv : m.resolve r = .ok v) (n : Nat) :
    ∃ slots, (m.root r).Affords slots n ∧ (Heap.maxSlots < slots →
      Heap.maxSlots < m.heap.live + n ∧ (m.Collects → Heap.maxSlots ≤ (m.root r).reached)) := by
  have hheap := m.heap_root r
  by_cases hone : m.Collects ∧ (m.root r).reached < m.heap.live + n
  · obtain ⟨hcollects, hreached⟩ := hone
    refine ⟨(m.root r).reached + 1, .inr ⟨hcollects.root hv, Nat.lt_succ_self _⟩, fun hslots => ?_⟩
    exact ⟨by omega, fun _ => by omega⟩
  · refine ⟨m.heap.live + n, .inl (by rw [hheap]), fun hslots => ⟨hslots, fun hcollects => ?_⟩⟩
    have hmany := Nat.not_lt.1 fun hlt => hone ⟨hcollects, hlt⟩
    omega

/-- **The two renderings agree.**  On a machine with a closed and well-typed heap, where all types
inherit the built-in method `str`, with no vector being rendered and room for 33 more calls, the
rendering of a value through its methods ends with the text of the plain rendering.  Nothing but the
heap changes, and there nothing that the roots reach, whatever the collections on the way.

The only other end is a heap with all of its 2^32 slots in use, which are then too few for what was
live before and one text for each value that is shown.  If the collector runs, each text is gone before
the next one needs its place: then the roots and the value itself reach as many values as there are
slots, and not even one text has room.  On the machines that hosts come to the collector runs if it is
on and its threshold is below the number of slots (`Sound.collects`). -/
theorem render_eq_renderPlain {name : Name} {location : Location} (hw : m.heap.WellFormed)
    (hcl : m.heap.Closed) (htyped : m.WellTyped) (htree : m.types.Tree)
    (hstr : m.types.ownMethodOf m.methods.str .baseObject =
      some ⟨.native ⟨name, 1, false, .objectStr⟩, location⟩)
    (hother : ∀ id, id ≠ .baseObject → m.types.ownMethodOf m.methods.str id = none)
    (hdepth : m.renderDepth = 0)
    (hroom : ∀ limit, m.calls.limit = some limit → m.calls.depth + 33 ≤ limit)
    (hv : m.resolve r = .ok v) :
    ∃ text, m.renderPlain r = .ok text ∧
      ((∃ needed heap, (∀ extra, m.run (needed + extra) (render r) = .value { m with heap } text) ∧
        m.Spares { m with heap }) ∨
      (∃ needed m', (∀ extra, m.run (needed + extra) (render r) =
          .defect m' (.heapExhausted .allocFailed)) ∧
        Heap.maxSlots ≤ m'.heap.live ∧
        Heap.maxSlots < m.heap.live + m.shown maxRenderDepth r ∧
        (m.Collects → Heap.maxSlots ≤ (m.root r).reached))) := by
  obtain ⟨text, htext⟩ := exists_renderNested hcl hv maxRenderDepth
  refine ⟨text, htext, ?_⟩
  have hready : m.Ready maxRenderDepth (maxRenderDepth + 1) :=
    ⟨hw, hcl, htyped, fun id hid => ⟨_, _, _, htree.lookupMethod_inherited hstr hother hid⟩,
      by rw [hdepth, Nat.zero_add], hroom⟩
  obtain ⟨slots, haffords, hshort⟩ := exists_affords hv (m.shown maxRenderDepth r)
  have hcompletes := m.renders slots maxRenderDepth m r text ⟨rfl, rfl, fun _ _ => rfl⟩ htext hready
    haffords
  obtain ⟨needed, outcome, hrun, hcomplete⟩ := run_of_completes hcompletes
  cases outcome with
  | value m' text' =>
    obtain ⟨rfl, heap, rfl, hretains⟩ := hcomplete
    exact .inl ⟨needed, heap, hrun, hretains.spares⟩
  | defect m' defect =>
    obtain ⟨rfl, hlive, hslots⟩ := hcomplete
    exact .inr ⟨needed, m', hrun, hlive, hshort hslots⟩
  | fault m' kind => exact hcomplete.elim
  | outOfSteps m' => exact hcomplete.elim

/-- A machine with the method `str` and room for 33 calls, which collects at every allocation.  Its
heap has two vectors that hold each other, and it has no root. -/
def ringShown : Machine :=
  { installMethod .baseObject (bare ⟨⟨0, true⟩, some 33, .terminal, false, .standard⟩ .initial)
      (.fixed "str" 1 .objectStr) with heap := ring }

theorem ringShown_wellTyped : ringShown.WellTyped where
  builtins := by decide +kernel
  values := by
    intro a v hv
    rcases ring_cases hv with ⟨-, rfl⟩ | ⟨-, rfl⟩
    · rfl
    · rfl

theorem ringShown_tree : ringShown.types.Tree :=
  (TypeTable.tree_initial .initial).of_shape (TypeTable.shape_insertMethod _ _ _ _)

theorem ringShown_str :
    ringShown.types.ownMethodOf ringShown.methods.str .baseObject =
      some ⟨.native ⟨ringShown.methods.str, 1, false, .objectStr⟩, .builtin⟩ := by
  let m := bare ⟨⟨0, true⟩, some 33, .terminal, false, .standard⟩ .initial
  have hname : (m.intern "str").1 = ringShown.methods.str := by decide +kernel
  have hthere : (m.types.get? .baseObject).isSome = true :=
    (wellTyped_bare _ _).builtins 0 (Nat.zero_le _)
  let spec : NativeSpec := .fixed "str" 1 .objectStr
  have hinsert := insertMethod_installMethod hthere (show spec.name ≠ "" by decide)
  rw [← hname]
  exact (TypeTable.ownMethodOf_insertMethod hinsert _ _).trans (if_pos ⟨rfl, rfl⟩)

theorem ringShown_inherits (id : TypeId) (hid : id ≠ .baseObject) :
    ringShown.types.ownMethodOf ringShown.methods.str id = none := by
  have hnone : ∀ i < ringShown.types.types.size, i ≠ 0 →
      (ringShown.types.ownMethodOf ringShown.methods.str ⟨i⟩).isNone = true := by
    decide +kernel
  by_cases hsize : id.index < ringShown.types.types.size
  · exact Option.isNone_iff_eq_none.1 (hnone id.index hsize fun h => hid (congrArg TypeId.mk h))
  · rw [TypeTable.ownMethodOf, TypeTable.get?, Array.getElem?_eq_none (Nat.not_lt.1 hsize)]
    rfl

theorem ringShown_collects : ringShown.Collects where
  enabled := rfl
  threshold_lt := by decide
  roots := by
    have hroots : ringShown.roots = [] := rfl
    rw [hroots]
    exact nofun

/-- The ring has a rendering, up to the depth at which it is cut. -/
theorem render_eq_renderPlain_ring :
    ∃ text needed heap, ringShown.renderPlain (.heap ⟨1, 0⟩) = .ok text ∧
      ∀ extra, ringShown.run (needed + extra) (render (.heap ⟨1, 0⟩)) =
        .value { ringShown with heap } text := by
  obtain ⟨text, htext, hend⟩ := render_eq_renderPlain (m := ringShown) (r := .heap ⟨1, 0⟩)
    ring_wellFormed ring_closed ringShown_wellTyped ringShown_tree ringShown_str ringShown_inherits
    rfl (by rintro limit ⟨⟩; decide) rfl
  rcases hend with ⟨needed, heap, hrun, -⟩ | ⟨needed, m', -, -, -, hmax⟩
  · exact ⟨text, needed, heap, htext, hrun⟩
  · -- each of the many texts can take the place of one before it
    have hreached : (ringShown.root (.heap ⟨1, 0⟩)).reached ≤ 2 :=
      (ring_wellFormed.finite_reach _).2
    have hslots := hmax ringShown_collects
    simp only [Heap.maxSlots] at hslots
    omega

end Machine

end ScriptMachine
