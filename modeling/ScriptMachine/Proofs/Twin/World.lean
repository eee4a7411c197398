/-
# Two machines side by side

A `World` is a pair of machines that run the same program, with the pairing of their handles.  What a
program can tell apart is the same on both sides when read through the pairing; the heaps may differ
in everything else: slots, generations, thresholds, and values that nothing holds any more.

A world is about two claims at once.  If `exact` holds, the two machines are one and the same and
every live handle is paired with itself: then a world says that whatever a machine holds resolves.
If it does not, the machines are independent of each other, and a world says that they agree.

Evaluation goes from world to world.  What it may rely on later is what the temporary roots and the
modules hold on to (`Held`), directly or through other values: such handles keep resolving, and their
values at most grow (`Machine.Evolves`).  Worlds are ordered by that relation on both sides.

* `World.Kept`: references that are alike and held on to;
* `World.Kept.mono`: they stay so in every later world.
-/
import Mathlib.Order.Defs.PartialOrder
import ScriptMachine.Proofs.Heap.Collection
import ScriptMachine.Proofs.Twin.Alike

namespace ScriptMachine

/-! ## 1. Natives that count on an argument -/

/-- The procedures that take their first argument for granted. -/
def Procedure.needsArgument : Procedure → Bool
  | .string | .typeOf | .hash | .dbg | .length | .sqrt | .abs | .floor => true
  | _ => false

/-- The arity of a native function guarantees what its body counts on. -/
def NativeFunction.Lawful (f : NativeFunction) : Prop :=
  ∀ n, f.accepts n = true → f.procedure.needsArgument = true → 0 < n

/-- A callable whose arity guarantees what its body counts on; user functions count on nothing. -/
def Callable.Lawful : Callable → Prop
  | .user _ => True
  | .native f => f.Lawful

/-- A value that is lawful if it can be called. -/
def Value.Lawful (v : Value) : Prop := ∀ c, v.payload.callable? = some c → c.Lawful

/-- A table of types all of whose methods are lawful. -/
def TypeTable.Lawful (t : TypeTable) : Prop :=
  ∀ info ∈ t.types, ∀ x ∈ info.methods, x.2.callable.Lawful

/-- A value that cannot be called is lawful. -/
theorem Value.Lawful.of_callable? {v : Value} (hv : v.payload.callable? = none) : v.Lawful := by
  intro c hc
  rw [hv] at hc
  cases hc

/-- A method that is found is lawful. -/
theorem TypeTable.Lawful.lookupMethod {t : TypeTable} (ht : t.Lawful) {id : TypeId} {name : Name}
    {found : Resolved} (h : t.lookupMethod id name = .ok found) : found.entry.callable.Lawful := by
  unfold TypeTable.lookupMethod at h
  split at h
  · next resolved hsome =>
    obtain rfl : resolved = found := by simpa using h
    obtain ⟨owner, -, howner⟩ := List.exists_of_findSome?_eq_some hsome
    obtain ⟨entry, hentry, rfl⟩ := Option.map_eq_some_iff.1 howner
    obtain ⟨info, hinfo, hown⟩ := Option.bind_eq_some_iff.1 hentry
    obtain ⟨x, hx, rfl⟩ := Option.map_eq_some_iff.1 hown
    exact ht info (Array.mem_of_getElem? hinfo) x (List.mem_of_find?_eq_some hx)
  · cases h

/-- A change of one type that keeps its methods lawful keeps the table lawful. -/
theorem TypeTable.Lawful.modify {t : TypeTable} (ht : t.Lawful) (id : TypeId)
    {f : TypeInfo → TypeInfo} (hname : ∀ info, (f info).name = info.name)
    (hf : ∀ info, (∀ x ∈ info.methods, x.2.callable.Lawful) →
      ∀ x ∈ (f info).methods, x.2.callable.Lawful) : (t.modify id f hname).Lawful := by
  intro info hinfo
  obtain ⟨i, hi⟩ := Array.getElem?_of_mem hinfo
  rw [TypeTable.modify, Array.getElem?_modify] at hi
  split at hi
  · obtain ⟨old, hold, rfl⟩ := Option.map_eq_some_iff.1 hi
    exact hf old (ht old (Array.mem_of_getElem? hold))
  · exact ht info (Array.mem_of_getElem? hi)

/-- A new type has no methods. -/
theorem TypeTable.Lawful.make {t : TypeTable} (ht : t.Lawful) (kind : TypeKind) (parent : TypeId)
    (name : Name) : (t.make kind parent name).2.Lawful := by
  intro info hinfo
  rcases TypeTable.mem_types_make hinfo with hold | rfl
  · exact ht info hold
  · exact nofun

/-- A lawful method installed in a lawful table. -/
theorem TypeTable.Lawful.insertMethod {t : TypeTable} (ht : t.Lawful) (id : TypeId)
    {callable : Callable} (hc : callable.Lawful) (location : Location) :
    (t.insertMethod id callable location).2.Lawful := by
  rcases t.insertMethod_cases id callable location with ⟨why, hinsert⟩ | ⟨-, hinsert⟩
  · rw [hinsert]
    exact ht
  · rw [hinsert]
    refine ht.modify id ?_ fun info hinfo x hx => ?_
    · exact fun _ => rfl
    · rcases List.mem_cons.1 hx with rfl | hx
      · exact hc
      · exact hinfo x (List.mem_of_mem_filter hx)

/-- Closing a type keeps its methods. -/
theorem TypeTable.Lawful.close {t : TypeTable} (ht : t.Lawful) (id : TypeId) :
    (t.close id).2.Lawful := by
  rcases t.close_cases id with ⟨why, hclose⟩ | ⟨-, hclose⟩
  · rw [hclose]
    exact ht
  · rw [hclose]
    refine ht.modify id ?_ fun info hinfo => hinfo
    exact fun _ => rfl

/-! ## 2. Worlds -/

/-- A heap on which nothing is under way. -/
def Heap.WellFormed (h : Heap) : Prop := ∃ used free, h.Layout used free

/-- Two machines that run the same program, and the pairing of their handles. -/
structure World (exact : Prop) where
  left : Machine
  right : Machine
  pairs : Pairing
  leftHeap : left.heap.WellFormed
  rightHeap : right.heap.WellFormed
  functional : ∀ a b b', pairs a b → pairs a b' → b = b'
  injective : ∀ a a' b, pairs a b → pairs a' b → a = a'
  /-- Paired handles resolve, to values that are alike. -/
  values : ∀ a b, pairs a b → ∃ v w, left.heap.get? a = some v ∧ right.heap.get? b = some w ∧
    v.Alike pairs w ∧ v.Lawful
  temps : List.Forall₂ (Ref.Alike pairs) left.temps.toList right.temps.toList
  scopes : left.scopes.Alike pairs right.scopes
  modules : left.modules.Alike pairs right.modules
  names_eq : left.names = right.names
  methods_eq : left.methods = right.methods
  types_eq : left.types = right.types
  faults_eq : left.faults = right.faults
  calls_eq : left.calls = right.calls
  console_eq : left.console = right.console
  echo_eq : left.echo = right.echo
  renderDepth_eq : left.renderDepth = right.renderDepth
  digest_eq : left.digest = right.digest
  lawful : left.types.Lawful
  /-- In an exact world there is one machine, and every live handle is its own partner. -/
  same : exact → left = right
  diagonal : exact → ∀ a b, pairs a b → a = b
  total : exact → ∀ a v, left.heap.get? a = some v → pairs a a

/-! ## 3. What is held on to -/

/-- The references that outlive the steps of an evaluation: members of modules and temporary
roots. -/
def Machine.anchors (m : Machine) : List Ref := m.modules.values ++ m.temps.toList

/-- The handles that can be reached from the anchors. -/
def Machine.Held (m : Machine) : Handle → Prop :=
  Heap.Reach m.heap.get? (m.anchors.filterMap Ref.handle?)

/-- What an evaluation leaves of a machine for those who wait for it: the calls under way and the
anchors are still there, and what they hold has at most grown. -/
structure Machine.Evolves (m m' : Machine) : Prop where
  temps : m.temps.toList <+: m'.temps.toList
  modules_eq : m'.modules = m.modules
  calls_eq : m'.calls = m.calls
  held : ∀ h v, m.Held h → m.heap.get? h = some v →
    ∃ v', m'.heap.get? h = some v' ∧ v.payload.items <+: v'.payload.items

/-- A list that goes on keeps its elements in their positions. -/
theorem getElem?_of_isPrefix {α : Type} {l l' : List α} (h : l <+: l') {i : Nat} {x : α}
    (hx : l[i]? = some x) : l'[i]? = some x := by
  obtain ⟨t, rfl⟩ := h
  rw [List.getElem?_append_left (List.getElem?_eq_some_iff.1 hx).1]
  exact hx

/-- A handle among references. -/
theorem mem_filterMap_handle? {h : Handle} {refs : List Ref} :
    h ∈ refs.filterMap Ref.handle? ↔ ∃ i : Nat, refs[i]? = some (.heap h) := by
  rw [List.mem_filterMap]
  constructor
  · rintro ⟨r, hr, hh⟩
    cases r with
    | heap a =>
      obtain rfl : a = h := by simpa [Ref.handle?] using hh
      exact List.mem_iff_getElem?.1 hr
    | nil => simp [Ref.handle?] at hh
    | bool b => simp [Ref.handle?] at hh
  · rintro ⟨i, hi⟩
    exact ⟨_, List.mem_of_getElem? hi, rfl⟩

namespace Machine.Evolves

variable {m m' m'' : Machine}

/-- The anchors of a machine go on being its anchors. -/
theorem anchors (h : m.Evolves m') : m.anchors <+: m'.anchors := by
  rw [Machine.anchors, Machine.anchors, h.modules_eq, List.prefix_append_right_inj]
  exact h.temps

/-- What is held stays held. -/
theorem held_of_held (h : m.Evolves m') {a : Handle} (ha : m.Held a) : m'.Held a := by
  induction ha with
  | @root r v hroot hv =>
    obtain ⟨i, hi⟩ := mem_filterMap_handle?.1 hroot
    obtain ⟨v', hv', -⟩ := h.held r v (.root hroot hv) hv
    exact .root (mem_filterMap_handle?.2 ⟨i, getElem?_of_isPrefix h.anchors hi⟩) hv'
  | @edge r r' v v' hr hv hmem hv' ih =>
    obtain ⟨w, hw, hgrown⟩ := h.held r v hr hv
    obtain ⟨w', hw', -⟩ := h.held r' v' (.edge hr hv hmem hv') hv'
    exact .edge ih hw (Payload.mem_refs.2 (hgrown.subset (Payload.mem_refs.1 hmem))) hw'

theorem refl (m : Machine) : m.Evolves m :=
  ⟨List.prefix_rfl, rfl, rfl, fun _ v _ hv => ⟨v, hv, List.prefix_rfl⟩⟩

theorem trans (h : m.Evolves m') (h' : m'.Evolves m'') : m.Evolves m'' where
  temps := h.temps.trans h'.temps
  modules_eq := h'.modules_eq.trans h.modules_eq
  calls_eq := h'.calls_eq.trans h.calls_eq
  held := by
    intro a v ha hv
    obtain ⟨v', hv', hgrown⟩ := h.held a v ha hv
    obtain ⟨v'', hv'', hgrown'⟩ := h'.held a v' (h.held_of_held ha) hv'
    exact ⟨v'', hv'', hgrown.trans hgrown'⟩

/-- A machine with the same heap, the same modules, the same calls, and no fewer temporary roots. -/
theorem of_heap_eq (ht : m.temps.toList <+: m'.temps.toList) (hm : m'.modules = m.modules)
    (hc : m'.calls = m.calls) (hh : m'.heap = m.heap) : m.Evolves m' :=
  ⟨ht, hm, hc, fun _ v _ hv => ⟨v, hh ▸ hv, List.prefix_rfl⟩⟩

end Machine.Evolves

/-! ## 4. The order of worlds -/

namespace World

variable {exact : Prop}

/-- A later world: both machines have evolved. -/
instance : Preorder (World exact) where
  le w w' := w.left.Evolves w'.left ∧ w.right.Evolves w'.right
  le_refl w := ⟨.refl _, .refl _⟩
  le_trans _ _ _ h h' := ⟨h.1.trans h'.1, h.2.trans h'.2⟩

/-- References that are alike in a world. -/
def Alike (w : World exact) : Ref → Ref → Prop := Ref.Alike w.pairs

/-- References that are alike in a world, and held on to by both machines. -/
def Kept (w : World exact) : Ref → Ref → Prop :=
  Ref.Alike fun a b => w.pairs a b ∧ w.left.Held a ∧ w.right.Held b

variable {w w' : World exact} {r s : Ref}

theorem Kept.alike (h : w.Kept r s) : w.Alike r s := h.transfer fun _ _ _ _ hab => hab.1

/-- The anchors of the two machines, one by one. -/
theorem anchors (w : World exact) :
    List.Forall₂ w.Alike w.left.anchors w.right.anchors :=
  List.rel_append w.modules.values w.temps

/-- The partner of a reference to the heap is one as well. -/
theorem Alike.heap_left {a : Handle} (h : w.Alike (.heap a) s) : ∃ b, s = .heap b ∧ w.pairs a b := by
  cases h with
  | heap hab => exact ⟨_, rfl, hab⟩

/-- The elements at one position of lists of references that are alike. -/
theorem pairs_of_getElem? {refs refs' : List Ref} (h : List.Forall₂ w.Alike refs refs') {i : Nat}
    {a b : Handle} (ha : refs[i]? = some (.heap a)) (hb : refs'[i]? = some (.heap b)) :
    w.pairs a b := by
  have hi := forall₂_getElem? h i
  rw [ha, hb] at hi
  cases hi with
  | some hab =>
    cases hab with
    | heap hab => exact hab

theorem exists_pairs_of_getElem? {refs refs' : List Ref} (h : List.Forall₂ w.Alike refs refs')
    {i : Nat} {a : Handle} (ha : refs[i]? = some (.heap a)) :
    ∃ b, refs'[i]? = some (.heap b) ∧ w.pairs a b := by
  rcases optionRel_cases (forall₂_getElem? h i) with ⟨hnone, -⟩ | ⟨r, s, hr, hs, hrs⟩
  · rw [ha] at hnone
    cases hnone
  · rw [ha] at hr
    obtain rfl : Ref.heap a = r := Option.some.inj hr
    obtain ⟨b, rfl, hab⟩ := Alike.heap_left hrs
    exact ⟨b, hs, hab⟩

/-- A handle that is held has a partner that is held, and is paired with it in every later world.
The induction follows the path from an anchor: the path leads through the same positions on both
sides, now and later. -/
theorem exists_pairs_of_held (hle : w ≤ w') {a : Handle} (ha : w.left.Held a) :
    ∃ b, w.pairs a b ∧ w'.pairs a b ∧ w.right.Held b := by
  induction ha with
  | @root r v hroot hv =>
    obtain ⟨i, hi⟩ := mem_filterMap_handle?.1 hroot
    obtain ⟨b, hb, hpair⟩ := exists_pairs_of_getElem? w.anchors hi
    obtain ⟨_, u, -, hu, -⟩ := w.values r b hpair
    refine ⟨b, hpair, ?_, .root (mem_filterMap_handle?.2 ⟨i, hb⟩) hu⟩
    exact pairs_of_getElem? w'.anchors (getElem?_of_isPrefix hle.1.anchors hi)
      (getElem?_of_isPrefix hle.2.anchors hb)
  | @edge c a v v' hc hv hmem hv' ih =>
    obtain ⟨d, hcd, hcd', hd⟩ := ih
    obtain ⟨x, u, hx, hu, hxu, -⟩ := w.values c d hcd
    obtain rfl : v = x := Option.some.inj (hv.symm.trans hx)
    obtain ⟨i, hi⟩ := List.mem_iff_getElem?.1 (Payload.mem_refs.1 hmem)
    obtain ⟨b, hb, hab⟩ := exists_pairs_of_getElem? hxu.payload.items hi
    obtain ⟨_, u', -, hu', -⟩ := w.values a b hab
    have hbmem : b ∈ u.refs := Payload.mem_refs.2 (List.mem_of_getElem? hb)
    refine ⟨b, hab, ?_, .edge hd hu hbmem hu'⟩
    -- the values have grown on both sides, and the position is still there
    obtain ⟨v₁, hv₁, hgrown⟩ := hle.1.held c v hc hv
    obtain ⟨u₁, hu₁, hgrown'⟩ := hle.2.held d u hd hu
    obtain ⟨y, z, hy, hz, hyz, -⟩ := w'.values c d hcd'
    obtain rfl : v₁ = y := Option.some.inj (hv₁.symm.trans hy)
    obtain rfl : u₁ = z := Option.some.inj (hu₁.symm.trans hz)
    exact pairs_of_getElem? hyz.payload.items (getElem?_of_isPrefix hgrown hi)
      (getElem?_of_isPrefix hgrown' hb)

/-- **What is kept stays kept.** -/
theorem Kept.mono (hle : w ≤ w') (h : w.Kept r s) : w'.Kept r s := by
  refine h.transfer fun a b _ _ hab => ?_
  obtain ⟨hpair, ha, hb⟩ := hab
  obtain ⟨b', hab', hab'', -⟩ := exists_pairs_of_held hle ha
  obtain rfl : b = b' := w.functional a b b' hpair hab'
  exact ⟨hab'', hle.1.held_of_held ha, hle.2.held_of_held hb⟩

theorem forall₂_kept_mono (hle : w ≤ w') {rs ss : List Ref} (h : List.Forall₂ w.Kept rs ss) :
    List.Forall₂ w'.Kept rs ss :=
  h.imp fun _ _ hrs => hrs.mono hle

/-! ## 5. Resolving -/

/-- The values behind references that are alike. -/
theorem Alike.resolve (h : w.Alike r s) : ∃ v u, w.left.resolve r = .ok v ∧
    w.right.resolve s = .ok u ∧ v.Alike w.pairs u ∧ v.Lawful := by
  cases h with
  | nil => exact ⟨_, _, rfl, rfl, .plain rfl, .of_callable? rfl⟩
  | bool b => exact ⟨_, _, rfl, rfl, .plain rfl, .of_callable? rfl⟩
  | heap hab =>
    obtain ⟨v, u, hv, hu, hvu, hlaw⟩ := w.values _ _ hab
    exact ⟨v, u, by rw [Machine.resolve, hv], by rw [Machine.resolve, hu], hvu, hlaw⟩

/-- The items of values that are kept are kept. -/
theorem Kept.items (h : w.Kept r s) {v u : Value} (hv : w.left.resolve r = .ok v)
    (hu : w.right.resolve s = .ok u) :
    List.Forall₂ w.Kept v.payload.items u.payload.items := by
  cases h with
  | nil =>
    obtain rfl : Value.ofNil = v := by simpa [Machine.resolve] using hv
    obtain rfl : Value.ofNil = u := by simpa [Machine.resolve] using hu
    exact .nil
  | bool b =>
    obtain rfl : Value.ofBool b = v := by simpa [Machine.resolve] using hv
    obtain rfl : Value.ofBool b = u := by simpa [Machine.resolve] using hu
    exact .nil
  | @heap a b hab =>
    obtain ⟨hpair, ha, hb⟩ := hab
    obtain ⟨x, y, hx, hy, hxy, -⟩ := w.values a b hpair
    obtain rfl : x = v := by simpa [Machine.resolve, hx] using hv
    obtain rfl : y = u := by simpa [Machine.resolve, hy] using hu
    refine forall₂_transfer hxy.payload.items fun r' hr' s' hs' hrs => hrs.transfer ?_
    rintro c d rfl rfl hcd
    obtain ⟨x', y', hx', hy', -⟩ := w.values c d hcd
    exact ⟨hcd, ha.edge hx (Payload.mem_refs.2 hr') hx', hb.edge hy (Payload.mem_refs.2 hs') hy'⟩

end World

end ScriptMachine
