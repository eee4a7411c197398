/-
# What a host does, side by side

A host makes a machine, defines types on it and collects.  Two machines made from the same choices,
those about the heap left aside, are a world: the same natives are installed on both, in the same
order, and there is room for all of them.

* `World.boot`: new machines;
* `Machine.Sound`: a machine that is a world on its own;
* `Effect.StaysSound.defineType`, `Machine.Sound.collectGarbage`: what hosts do keeps that.
-/
import ScriptMachine.Machine.Host
import ScriptMachine.Proofs.TypeTree
import ScriptMachine.Proofs.Twin.Run

namespace ScriptMachine

/-! ## 1. Changes that hosts make -/

namespace World

variable {exact : Prop} (w : World exact)

/-- Other names, the same on both sides. -/
def withNames (names : NameTable) : World exact :=
  { w with
    left := { w.left with names }
    right := { w.right with names }
    names_eq := rfl
    same := fun he => by rw [w.same he] }

/-- Other modules on both sides. -/
def withModules {t t' : ModuleTable} (h : t.Alike w.pairs t') (heq : exact → t = t') : World exact :=
  { w with
    left := { w.left with modules := t }
    right := { w.right with modules := t' }
    modules := h
    same := fun he => by rw [w.same he, heq he] }

/-- Room for `k` more values on both sides, or only one machine. -/
def HasRoom (k : Nat) : Prop :=
  exact ∨ (w.left.heap.slots.size + k ≤ Heap.maxSlots ∧ w.right.heap.slots.size + k ≤ Heap.maxSlots)

variable {w}

/-- Placing values that are alike where there is room takes one place on each side.  Only a machine on
its own may have none, and then its heap is full on both sides. -/
theorem HasRoom.allocate {k : Nat} (hroom : w.HasRoom (k + 1)) {v u : Value}
    (hvu : v.Alike w.pairs u) (hlaw : v.Lawful) : ∃ w' : World exact, w'.HasRoom k ∧
      ((∃ r r', w.left.tryAllocate v = (.ok r, w'.left) ∧ w.right.tryAllocate u = (.ok r', w'.right) ∧
        w'.Alike r r') ∨
      ∃ why, w.left.tryAllocate v = (.error why, w'.left) ∧
        w.right.tryAllocate u = (.error why, w'.right)) := by
  rcases hroom with he | ⟨hleft, hright⟩
  · rcases w.allocate hvu hlaw with ⟨a, b, w', hl, hr, ha⟩ | hfull
    · exact ⟨w', .inl he, .inl ⟨_, _, hl, hr, .heap ha.pair⟩⟩
    · -- the one machine is full
      have hright : w.right.tryAllocate u = w.left.tryAllocate v := by
        rw [w.same he, hvu.eq (w.diagonal he)]
      obtain ⟨h, -, ht, hres⟩ := Machine.tryAllocate_eq w.leftHeap v
      rw [hright] at hfull ⊢
      rcases hres with ⟨a, h', hok, -⟩ | ⟨herror, -⟩
      · rcases hfull with ⟨m, hl, -⟩ | ⟨m, hl, -⟩
        · rw [hok] at hl
          cases hl
        · rw [hok] at hl
          cases hl
      · have hroots : ∀ a ∈ w.left.roots, a ∈ v.refs ++ w.left.roots :=
          fun _ => List.mem_append_right _
        have ht' : w.right.heap.Trimmed (v.refs ++ w.left.roots) h := w.same he ▸ ht
        refine ⟨w.trim ht hroots ht' (w.same he ▸ hroots) fun _ => rfl, .inl he, .inr ⟨_, herror, ?_⟩⟩
        rw [herror]
        simp only [World.trim, w.same he]
  · rcases w.allocate hvu hlaw with ⟨a, b, w', hl, hr, ha⟩ | ⟨m, -, -, hfull⟩ | ⟨m, -, -, hfull⟩
    · have hgrown := ha.leftSize
      have hgrown' := ha.rightSize
      exact ⟨w', .inr ⟨by omega, by omega⟩, .inl ⟨_, _, hl, hr, .heap ha.pair⟩⟩
    · omega
    · omega

end World

namespace ModuleTable.Alike

variable {pairs : Pairing} {t u : ModuleTable}

theorem register (h : t.Alike pairs u) (name : Name) :
    SameResult (ModuleTable.Alike pairs) (t.register name) (u.register name) := by
  unfold ModuleTable.register
  rw [← h.contains_eq]
  split
  · exact .error _
  · split
    · exact .error _
    · exact .ok (.cons ⟨rfl, .nil⟩ h)

theorem insertMember (h : t.Alike pairs u) (owner name : Name) {r r' : Ref}
    (hr : r.Alike pairs r') :
    SameResult (ModuleTable.Alike pairs) (t.insertMember owner name r)
      (u.insertMember owner name r') := by
  unfold ModuleTable.insertMember
  rcases optionRel_cases (h.get? owner) with ⟨hl, hr'⟩ | ⟨a, b, hl, hr', hab⟩
  · rw [hl, hr']
    exact .error _
  · rw [hl, hr']
    have htaken : (a.get? name).isSome = (b.get? name).isSome := by
      rcases optionRel_cases (hab.get? name) with ⟨hl, hr'⟩ | ⟨_, _, hl, hr', -⟩
      · rw [hl, hr']
      · rw [hl, hr']
        rfl
    simp only [← htaken]
    split
    · exact .error _
    · refine .ok (List.rel_map ?_ h)
      intro x y hxy
      obtain ⟨n, a⟩ := x
      obtain ⟨n', b⟩ := y
      obtain ⟨rfl, hab⟩ : n = n' ∧ a.Alike pairs b := hxy
      simp only
      split
      · exact ⟨rfl, .cons ⟨rfl, hr⟩ hab⟩
      · exact ⟨rfl, hab⟩

end ModuleTable.Alike

/-- The machines of a world with room for `k` more values. -/
def Matched (exact : Prop) (k : Nat) (m m' : Machine) : Prop :=
  ∃ w : World exact, m = w.left ∧ m' = w.right ∧ w.HasRoom k

section Matched

variable {exact : Prop} {k : Nat} {m m' : Machine}

/-! ## 2. Names, bindings and modules -/

namespace Matched

theorem mono (h : Matched exact k m m') {k' : Nat} (hle : k' ≤ k) : Matched exact k' m m' := by
  obtain ⟨w, hl, hr, hroom⟩ := h
  exact ⟨w, hl, hr, hroom.imp_right fun hroom => ⟨by omega, by omega⟩⟩

theorem intern (h : Matched exact k m m') (s : String) :
    (m.intern s).1 = (m'.intern s).1 ∧ Matched exact k (m.intern s).2 (m'.intern s).2 := by
  obtain ⟨w, rfl, rfl, hroom⟩ := h
  unfold Machine.intern
  rw [← w.names_eq]
  exact ⟨rfl, w.withNames _, rfl, rfl, hroom⟩

/-- A value without references placed and bound for good. -/
theorem installGlobal (h : Matched exact (k + 1) m m') (name : Name) {v : Value}
    (hv : v.payload.elements? = none) (hlaw : v.Lawful) :
    Matched exact k (m.installGlobal name v).2 (m'.installGlobal name v).2 := by
  obtain ⟨w, rfl, rfl, hroom⟩ := h
  obtain ⟨w', hroom', ⟨r, r', hl, hr, hrr'⟩ | ⟨why, hl, hr⟩⟩ := hroom.allocate (.plain hv) hlaw
  · unfold Machine.installGlobal
    rw [hl, hr]
    have hentry : Entry.Alike w'.pairs ⟨r, .immutable, .builtin⟩ ⟨r', .immutable, .builtin⟩ :=
      ⟨hrr', rfl, rfl⟩
    have heq : exact → (w'.left.scopes.bindGlobal name ⟨r, .immutable, .builtin⟩).2 =
        (w'.right.scopes.bindGlobal name ⟨r', .immutable, .builtin⟩).2 := by
      intro he
      rw [w'.same he, Ref.Alike.eq hrr' (w'.diagonal he)]
    exact ⟨w'.withScopes (w'.scopes.bindGlobal name hentry).2 heq, rfl, rfl, hroom'⟩
  · unfold Machine.installGlobal
    rw [hl, hr]
    exact ⟨w', rfl, rfl, hroom'⟩

theorem bindType (h : Matched exact (k + 1) m m') (type : TypeId) :
    Matched exact k (m.bindType type).2 (m'.bindType type).2 := by
  have hname : m.types.nameOf type = m'.types.nameOf type := by
    obtain ⟨w, rfl, rfl, -⟩ := h
    rw [w.types_eq]
  unfold Machine.bindType
  rw [← hname]
  exact h.installGlobal _ rfl (.of_callable? rfl)

end Matched

/-! ## 3. Natives -/

/-- A native function whose arity guarantees what its body counts on. -/
def NativeSpec.isLawful (spec : NativeSpec) : Bool :=
  !spec.procedure.needsArgument || 0 < spec.arity

theorem NativeSpec.isLawful.function {spec : NativeSpec} (h : spec.isLawful = true) (name : Name) :
    (spec.function name).Lawful := by
  intro n haccepts hneeds
  have hpos : 0 < spec.arity := by
    simpa [NativeSpec.isLawful, NativeSpec.function, show spec.procedure.needsArgument = true from hneeds]
      using h
  have hle : spec.arity ≤ n := by
    simp only [NativeFunction.accepts, NativeSpec.function] at haccepts
    cases hvariadic : spec.variadic with
    | true =>
      simp only [hvariadic, if_true] at haccepts
      exact of_decide_eq_true haccepts
    | false =>
      have hn : n = spec.arity := by simpa [hvariadic] using haccepts
      omega
  omega

/-- All natives are lawful. -/
theorem NativeSpec.isLawful_tables :
    (∀ table ∈ NativeSpec.methodTables, ∀ spec ∈ table.2, spec.isLawful = true) ∧
      (∀ spec ∈ NativeSpec.globals, spec.isLawful = true) ∧
      ∀ spec ∈ NativeSpec.mathematics, spec.isLawful = true := by
  decide

theorem Value.Lawful.ofBuiltin {f : NativeFunction} (hf : f.Lawful) : (Value.ofBuiltin f).Lawful := by
  intro c hc
  obtain rfl := Option.some.inj hc
  exact hf

namespace Matched

theorem registerNative (h : Matched exact (k + 1) m m') {spec : NativeSpec}
    (hspec : spec.isLawful = true) :
    Matched exact k (m.registerNative spec).2 (m'.registerNative spec).2 := by
  obtain ⟨hname, h⟩ := h.intern spec.name
  unfold Machine.registerNative
  simp only
  rw [← hname]
  exact h.installGlobal _ rfl (.ofBuiltin (NativeSpec.isLawful.function hspec _))

theorem installMethod (h : Matched exact k m m') (type : TypeId) {spec : NativeSpec}
    (hspec : spec.isLawful = true) :
    Matched exact k (m.installMethod type spec) (m'.installMethod type spec) := by
  obtain ⟨hname, w, hl, hr, hroom⟩ := h.intern spec.name
  have hlawful : (Callable.native (spec.function (m.intern spec.name).1)).Lawful :=
    NativeSpec.isLawful.function hspec _
  have hlaw := w.lawful.insertMethod type hlawful .builtin
  refine ⟨w.withTypes hlaw, ?_, ?_, hroom⟩
  · simp only [Machine.installMethod, World.withTypes, hl]
  · simp only [Machine.installMethod, World.withTypes, hr, hname, w.types_eq]

/-- Tables of modules taken over on both sides, or refused on both. -/
theorem adoptModules {w : World exact} (hroom : w.HasRoom k) {t t' : Except Refusal ModuleTable}
    (ht : SameResult (ModuleTable.Alike w.pairs) t t') (heq : exact → t = t') :
    Matched exact k (w.left.adoptModules t) (w.right.adoptModules t') := by
  cases ht with
  | error why => exact ⟨w, rfl, rfl, hroom⟩
  | ok halike => exact ⟨w.withModules halike fun he => Except.ok.inj (heq he), rfl, rfl, hroom⟩

/-- A value without references placed as a member of a module. -/
theorem installMember (h : Matched exact (k + 1) m m') (owner : Name) (member : String)
    {value : Name → Value} (hv : ∀ name, (value name).payload.elements? = none)
    (hlaw : ∀ name, (value name).Lawful) :
    Matched exact k (m.installMember owner member value) (m'.installMember owner member value) := by
  obtain ⟨hname, w, hl, hr, hroom⟩ := h.intern member
  unfold Machine.installMember
  simp only
  rw [← hname, hl, hr]
  generalize (m.intern member).1 = name
  obtain ⟨w', hroom', ⟨r, r', hl, hr, hrr'⟩ | ⟨why, hl, hr⟩⟩ :=
    hroom.allocate (.plain (hv name)) (hlaw name)
  · rw [hl, hr]
    refine adoptModules hroom' (w'.modules.insertMember owner name hrr') fun he => ?_
    rw [w'.same he, Ref.Alike.eq hrr' (w'.diagonal he)]
  · rw [hl, hr]
    exact ⟨w', rfl, rfl, hroom'⟩

/-- Installations one after another, each of which takes at most `cost` places. -/
theorem foldl (cost : Nat) {β : Type} {f : Machine → β → Machine} {l : List β}
    (hf : ∀ k m m' b, b ∈ l → Matched exact (k + cost) m m' → Matched exact k (f m b) (f m' b))
    (h : Matched exact (k + cost * l.length) m m') : Matched exact k (l.foldl f m) (l.foldl f m') := by
  induction l generalizing m m' with
  | nil => exact h
  | cons b l ih =>
    refine ih (fun k m m' c hc => hf k m m' c (List.mem_cons_of_mem _ hc)) ?_
    refine hf _ _ _ b List.mem_cons_self (h.mono ?_)
    rw [List.length_cons, Nat.mul_succ]
    omega

theorem installMathematics (h : Matched exact (k + 4) m m') :
    Matched exact k m.installMathematics m'.installMathematics := by
  obtain ⟨hname, w, hl, hr, hroom⟩ := h.intern "math"
  unfold Machine.installMathematics
  simp only
  rw [← hname, hl, hr]
  generalize (m.intern "math").1 = owner
  refine foldl 1 (fun k m m' spec hspec hk => ?_) ?_
  · have hlaw := NativeSpec.isLawful_tables.2.2 spec hspec
    exact hk.installMember owner spec.name (fun _ => rfl) fun name =>
      .ofBuiltin (NativeSpec.isLawful.function hlaw name)
  · have hmodule := adoptModules hroom (w.modules.register owner) fun he => by rw [w.same he]
    exact hmodule.installMember owner "pi" (fun _ => rfl) fun _ => .of_callable? rfl

end Matched

/-! ## 4. New machines -/

/-- The built-in types have no methods yet. -/
theorem TypeTable.initial_lawful (names : NameTable) : (TypeTable.initial names).1.Lawful := by
  intro info hinfo
  obtain ⟨kind, parent, name, rfl⟩ := TypeTable.fresh_of_mem_initial names hinfo
  exact nofun

/-- The world of two machines on which nothing is installed.  They may differ in their choices about
the heap. -/
def World.bare (settings : Machine.Settings) (config : HeapConfig) (names : NameTable)
    (hconfig : exact → settings.heap = config) : World exact where
  left := Machine.bare settings names
  right := Machine.bare { settings with heap := config } names
  pairs := fun _ _ => False
  leftHeap := ⟨[], [], .initial settings.heap⟩
  rightHeap := ⟨[], [], .initial config⟩
  functional := nofun
  injective := nofun
  values := nofun
  temps := .nil
  scopes := ⟨.cons ⟨rfl, rfl, .nil⟩ .nil, rfl⟩
  modules := .nil
  names_eq := rfl
  methods_eq := rfl
  types_eq := rfl
  faults_eq := rfl
  calls_eq := rfl
  console_eq := rfl
  echo_eq := rfl
  renderDepth_eq := rfl
  digest_eq := rfl
  lawful := TypeTable.initial_lawful names
  same := fun he => by rw [← hconfig he]
  diagonal := nofun
  total := fun _ a v hv => by simp [Machine.bare, Heap.initial, Heap.get?, Heap.record?] at hv

/-- Installing methods makes no types. -/
theorem Machine.installMethod_types_size (type : TypeId) (m : Machine) (spec : NativeSpec) :
    (m.installMethod type spec).types.size = m.types.size := by
  rw [← TypeTable.length_shape, ← TypeTable.length_shape]
  exact congrArg List.length (m.types.shape_insertMethod type _ _)

/-- The machine with all methods installed. -/
def Machine.withMethods (settings : Machine.Settings) (names : NameTable) : Machine :=
  NativeSpec.methodTables.foldl (fun m (type, table) => table.foldl (installMethod type) m)
    (bare settings names)

theorem Machine.withMethods_types_size (settings : Machine.Settings) (names : NameTable) :
    (withMethods settings names).types.size = 11 := by
  have hbare : (bare settings names).types.size = 11 := (TypeTable.labelled_initial names).size_eq
  refine List.foldlRecOn (motive := fun m : Machine => m.types.size = 11) _ _ hbare fun m hm x _ => ?_
  refine List.foldlRecOn (motive := fun m : Machine => m.types.size = 11) _ _ hm fun m hm spec _ => ?_
  rw [Machine.installMethod_types_size, hm]

/-- **New machines are a world**, if they differ at most in the choices about the heap. -/
theorem World.boot (exact : Prop) (settings : Machine.Settings) (config : HeapConfig)
    (names : NameTable) (hconfig : exact → settings.heap = config) :
    ∃ w : World exact, Machine.boot settings names = w.left ∧
      Machine.boot { settings with heap := config } names = w.right := by
  let settings' := { settings with heap := config }
  have hbare : Matched exact 28 (Machine.bare settings names) (Machine.bare settings' names) := by
    have hroom : (#[] : Array Slot).size + 28 ≤ Heap.maxSlots := by decide
    exact ⟨World.bare settings config names hconfig, rfl, rfl, .inr ⟨hroom, hroom⟩⟩
  have hmethods : Matched exact 28 (Machine.withMethods settings names)
      (Machine.withMethods settings' names) := by
    refine Matched.foldl 0 (fun k m m' x hx hk => ?_) (by simpa using hbare)
    refine Matched.foldl 0 (fun k m m' spec hspec hk => ?_) (by simpa using hk)
    exact hk.installMethod x.1 (NativeSpec.isLawful_tables.1 x hx spec hspec)
  have htypes : Matched exact 17
      ((List.range (Machine.withMethods settings names).types.size).foldl
        (fun m i => (m.bindType ⟨i⟩).2) (Machine.withMethods settings names))
      ((List.range (Machine.withMethods settings' names).types.size).foldl
        (fun m i => (m.bindType ⟨i⟩).2) (Machine.withMethods settings' names)) := by
    rw [Machine.withMethods_types_size, Machine.withMethods_types_size]
    exact Matched.foldl 1 (fun k m m' i _ hk => hk.bindType ⟨i⟩) hmethods
  have hboot : Matched exact 0 (Machine.boot settings names) (Machine.boot settings' names) := by
    refine Matched.installMathematics (Matched.foldl 1 (fun k m m' spec hspec hk => ?_) htypes)
    exact hk.registerNative (NativeSpec.isLawful_tables.2.1 spec hspec)
  obtain ⟨w, hl, hr, -⟩ := hboot
  exact ⟨w, hl, hr⟩

end Matched

/-! ## 5. One machine on its own -/

/-- A machine whose handles all resolve, and whose heap is in order. -/
def Machine.Sound (m : Machine) : Prop := ∃ w : World True, m = w.left

theorem Machine.Sound.matched {m : Machine} (h : m.Sound) (k : Nat) : Matched True k m m := by
  obtain ⟨w, rfl⟩ := h
  exact ⟨w, rfl, w.same trivial, .inl trivial⟩

theorem Matched.sound {k : Nat} {m m' : Machine} (h : Matched True k m m') : m.Sound := by
  obtain ⟨w, rfl, -⟩ := h
  exact ⟨w, rfl⟩

/-- A computation that asked for nothing and, unless it ended with a defect, left a sound machine. -/
def Step.EndsSound {α : Type} : Step α → Prop
  | .done m _ | .fault m _ => m.Sound
  | .defect _ _ => True
  | .call _ _ _ => False

section StaysSound

variable {α β : Type} {m : Machine}

theorem Step.EndsSound.bind {x : Effect α} {f : α → Effect β} (hx : (x m).EndsSound)
    (hf : ∀ a m', m'.Sound → (f a m').EndsSound) : ((x >>= f) m).EndsSound := by
  show (Step.bind (x m) f).EndsSound
  cases hstep : x m with
  | done m' a =>
    rw [hstep] at hx
    exact hf a m' hx
  | fault m' k =>
    rw [hstep] at hx
    exact hx
  | defect m' d => trivial
  | call m' q resume =>
    rw [hstep] at hx
    exact hx.elim

/-- A computation that leaves sound machines sound. -/
def Effect.StaysSound (x : Effect α) : Prop := ∀ m, m.Sound → (x m).EndsSound

theorem Effect.StaysSound.pure (a : α) : StaysSound (Pure.pure a) := fun _ h => h

theorem Effect.StaysSound.bind {x : Effect α} {f : α → Effect β} (hx : x.StaysSound)
    (hf : ∀ a, (f a).StaysSound) : (x >>= f).StaysSound :=
  fun m h => .bind (hx m h) hf

end StaysSound

namespace Machine.Sound

variable {m : Machine}

theorem intern (h : m.Sound) (s : String) : (m.intern s).2.Sound :=
  ((h.matched 0).intern s).2.sound

/-- Other types with lawful methods. -/
theorem withTypes (h : m.Sound) {types : TypeTable} (ht : m.types.Lawful → types.Lawful) :
    { m with types }.Sound := by
  obtain ⟨w, rfl⟩ := h
  exact ⟨w.withTypes (ht w.lawful), rfl⟩

end Machine.Sound

/-- A new member leaves methods as they are. -/
theorem TypeTable.Lawful.insertMember {t : TypeTable} (ht : t.Lawful) (id : TypeId) (name : Name)
    (memberType : TypeId) : (t.insertMember id name memberType).2.Lawful := by
  rcases t.insertMember_cases id name memberType with
    ⟨why, hinsert⟩ | ⟨info, memberInfo, -, -, -, ⟨-, hinsert⟩ | ⟨-, hinsert⟩⟩
  · rw [hinsert]
    exact ht
  · rw [hinsert]
    refine ht.modify id ?_ fun _ h => h
    exact fun _ => rfl
  · rw [hinsert]
    refine ht.modify id ?_ fun _ h => h
    exact fun _ => rfl

namespace Effect

theorem StaysSound.intern (s : String) : StaysSound (intern s) := fun _ h => h.intern s

theorem StaysSound.addMember (type : TypeId) (name : Name) (memberType : TypeId) :
    StaysSound (addMember type name memberType) := by
  intro m h
  have hsound : { m with types := (m.types.insertMember type name memberType).2 }.Sound :=
    h.withTypes fun ht => ht.insertMember type name memberType
  unfold Effect.addMember
  simp only
  split
  · exact hsound
  · exact hsound
  · trivial

theorem StaysSound.addMembers (type : TypeId) (members : List (String × TypeId)) :
    StaysSound (addMembers type members) := by
  induction members with
  | nil => exact .pure _
  | cons x rest ih =>
    refine .bind (.intern x.1) fun name => .bind (.addMember type name x.2) fun result => ?_
    cases result with
    | error why => exact .pure _
    | ok offset => exact ih

/-- **Defining a type** leaves a sound machine, wherever it returns. -/
theorem StaysSound.defineType (name : String) (parent : TypeId) (members : List (String × TypeId)) :
    StaysSound (defineType name parent members) := by
  refine .bind (.intern name) fun name => .bind ?_ fun answer => ?_
  · exact fun m h => h.withTypes fun ht => ht.make .object parent name
  · cases answer with
    | error why => exact .pure _
    | ok type =>
      refine .bind (.addMembers type members) fun result => ?_
      cases result with
      | error why => exact .pure _
      | ok _ => exact .bind (fun m h => ((h.matched 1).bindType type).sound) fun _ => .pure _

end Effect

/-- **A collection** finds the heap in order and leaves a sound machine. -/
theorem Machine.Sound.collectGarbage {m : Machine} (h : m.Sound) :
    ∃ freed m', m.collectGarbage? = some (freed, m') ∧ m'.Sound := by
  obtain ⟨w, rfl⟩ := h
  obtain ⟨n, w', hl, -⟩ := w.collectGarbage trivial
  exact ⟨n, w'.left, hl, w', rfl⟩

end ScriptMachine
