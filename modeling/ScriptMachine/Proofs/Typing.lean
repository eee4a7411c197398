/-
# Heap typing

Every value on the heap is of the type that its payload calls for: integers are Integers, texts
Strings, and so on; a module is one that is there, and so is the type that a value describes.  An
instance is of a user type that is sealed, and has a slot for each member of it.  Since a sealed type
takes no further members, that stays so, and each member of an instance can be read in every later
state.

* `Value.WellTyped`, `Machine.WellTyped`: the typing of one value, and of a heap;
* `Machine.Act.wellTyped`, `Machine.HostAct.wellTyped`: one act of a computation or of a host;
* `Machine.Leads.wellTyped`: all that a host does over time;
* `Machine.evaluate_member`: reading a member of an instance;
* `Machine.heap_well_typed`: both, on every machine that a host comes to.
-/
import ScriptMachine.Proofs.Conduct.Host
import ScriptMachine.Proofs.Heap.Handles
import ScriptMachine.Proofs.Runs
import ScriptMachine.Proofs.Twin.Run
import ScriptMachine.Proofs.TypeTree

namespace ScriptMachine

/-! ## 1. What is on the heap after an operation -/

/-- Placing a value adds that value and no other, whatever the state of the heap. -/
theorem Heap.get?_insert (h : Heap) (v : Value) {r : Handle} {w : Value}
    (hw : (h.insert v).2.get? r = some w) : w = v ∨ h.get? r = some w := by
  have hsettle : ∀ (h' : Heap) (i : Nat) (g : UInt32) (free : Option Nat), i < h'.slots.size →
      (h'.settle i g free v).2.get? r = some w → w = v ∨ h'.get? r = some w := by
    intro h' i g free hi hw
    unfold Heap.settle at hw
    split at hw
    · rw [Heap.get?_eq, Heap.occupant_place h' hi] at hw
      by_cases hir : i = r.index
      · simp only [if_pos hir, Option.bind_some] at hw
        split at hw
        · exact .inl (Option.some.inj hw).symm
        · cases hw
      · rw [if_neg hir, ← Heap.get?_eq] at hw
        exact .inr hw
    · exact .inr hw
  unfold Heap.insert at hw
  split at hw
  · next i hfree =>
    split at hw
    · next g nextFree c hslot =>
      exact hsettle h i g nextFree (Array.getElem?_eq_some_iff.1 hslot).1 hw
    · exact .inr hw
    · exact .inr hw
  · simp only at hw
    split at hw
    · -- the arena has grown by a free slot first
      rcases hsettle _ h.slots.size 0 none (by simp) hw with rfl | hold
      · exact .inl rfl
      · rw [Heap.get?_congr (h := h) (Heap.occupant_push h.slots _)] at hold
        exact .inr hold
    · exact .inr hw

namespace Machine

variable {m m' : Machine}

theorem get?_collectKeeping {more : List Handle} {freed : Nat}
    (h : m.collectKeeping? more = some (freed, m')) {r : Handle} {w : Value}
    (hw : m'.heap.get? r = some w) : m.heap.get? r = some w := by
  obtain ⟨⟨_, heap⟩, hcollect, hm⟩ := Option.map_eq_some_iff.1 h
  obtain ⟨-, rfl⟩ := Prod.mk.inj hm
  exact (Heap.Thins.collect hcollect).get? hw

/-- An allocation adds its value and no other. -/
theorem get?_tryAllocate (m : Machine) (v : Value) {r : Handle} {w : Value}
    (hw : (m.tryAllocate v).2.heap.get? r = some w) : w = v ∨ m.heap.get? r = some w := by
  unfold tryAllocate makeRoom? at hw
  split at hw
  · next m' hroom =>
    rcases m'.heap.get?_insert v hw with rfl | hold
    · exact .inl rfl
    · split at hroom
      · obtain ⟨⟨freed, m₁⟩, hcollect, rfl⟩ := Option.map_eq_some_iff.1 hroom
        exact .inr (get?_collectKeeping hcollect hold)
      · obtain rfl := Option.some.inj hroom
        exact .inr hold
  · exact .inr hw

end Machine

/-! ## 2. Well-typed values -/

/-- A value is of the type that its payload calls for, and what it names is there.  The values of nil,
true and false are not on the heap. -/
def Value.WellTyped (types : TypeTable) (modules : ModuleTable) (v : Value) : Prop :=
  match v.payload with
  | .nil | .bool _ => False
  | .int _ => v.type = .integer
  | .real _ => v.type = .real
  | .str _ => v.type = .string
  | .vector _ => v.type = .vector
  | .function _ => v.type = .function
  | .builtin _ => v.type = .builtinFn
  | .moduleNamed name => v.type = .moduleType ∧ modules.contains name = true
  | .type described => v.type = .type ∧ (types.get? described).isSome = true
  | .fields slots => v.type ≠ .baseObject ∧ ∃ info, types.get? v.type = some info ∧
      info.kind = .object ∧ info.isSealed = true ∧ slots.size = info.members.size

namespace Value.WellTyped

variable {types types' : TypeTable} {modules modules' : ModuleTable} {v : Value}

/-- Types that grow and modules that stay keep values well typed, as the type of an instance is
sealed. -/
theorem mono (h : v.WellTyped types modules) (htypes : types.Grows types')
    (hmodules : ∀ name, modules.contains name = true → modules'.contains name = true) :
    v.WellTyped types' modules' := by
  obtain ⟨type, payload⟩ := v
  cases payload with
  | nil => exact h
  | bool b => exact h
  | int i => exact h
  | real x => exact h
  | str s => exact h
  | vector items => exact h
  | function f => exact h
  | builtin f => exact h
  | moduleNamed name => exact ⟨h.1, hmodules name h.2⟩
  | type described => exact ⟨h.1, htypes.isSome h.2⟩
  | fields slots =>
    obtain ⟨hbase, info, hinfo, hkind, hsealed, hsize⟩ := h
    obtain ⟨info', hinfo', hgrows⟩ := htypes _ info hinfo
    refine ⟨hbase, info', hinfo', hgrows.kind_eq.trans hkind, hgrows.isSealed hsealed, ?_⟩
    rw [hgrows.members_eq hsealed, hsize]

/-- Another element changes neither the kind nor the size of a payload. -/
theorem setElement (h : v.WellTyped types modules) (position : Nat) (r : Ref) :
    Value.WellTyped types modules { v with payload := v.payload.setElement position r } := by
  obtain ⟨type, payload⟩ := v
  cases payload with
  | fields slots =>
    obtain ⟨hbase, info, hinfo, hkind, hsealed, hsize⟩ := h
    exact ⟨hbase, info, hinfo, hkind, hsealed, by simpa using hsize⟩
  | _ => exact h

/-- Only vectors take one more element. -/
theorem push (h : v.WellTyped types modules) (r : Ref) :
    Value.WellTyped types modules { v with payload := v.payload.push r } := by
  obtain ⟨type, payload⟩ := v
  cases payload with
  | _ => exact h

end Value.WellTyped

/-! ## 3. Well-typed machines -/

namespace Machine

variable {m m' : Machine} {rooting : Bool}

/-- The built-in types are there, and every value on the heap is well typed. -/
structure WellTyped (m : Machine) : Prop where
  builtins : ∀ i ≤ TypeTable.builtins.length, (m.types.get? ⟨i⟩).isSome = true
  values : ∀ h v, m.heap.get? h = some v → v.WellTyped m.types m.modules

/-- The type of every value is there. -/
theorem WellTyped.isSome_type (hm : m.WellTyped) {r : Ref} {v : Value} (hv : m.resolve r = .ok v) :
    (m.types.get? v.type).isSome = true := by
  have hbuiltin : ∀ t : TypeId, t.index ≤ 10 → v.type = t → (m.types.get? v.type).isSome = true := by
    rintro t ht rfl
    exact hm.builtins v.type.index ht
  cases r with
  | nil =>
    obtain rfl := Except.ok.inj hv
    exact hbuiltin .nil (by decide) rfl
  | bool b =>
    obtain rfl := Except.ok.inj hv
    exact hbuiltin .boolean (by decide) rfl
  | heap a =>
    simp only [resolve] at hv
    split at hv
    · next w hw =>
      obtain rfl := Except.ok.inj hv
      have htyped := hm.values a w hw
      obtain ⟨type, payload⟩ := w
      cases payload with
      | nil => exact htyped.elim
      | bool b => exact htyped.elim
      | int i => exact hbuiltin .integer (by decide) htyped
      | real x => exact hbuiltin .real (by decide) htyped
      | str s => exact hbuiltin .string (by decide) htyped
      | vector items => exact hbuiltin .vector (by decide) htyped
      | function f => exact hbuiltin .function (by decide) htyped
      | builtin f => exact hbuiltin .builtinFn (by decide) htyped
      | moduleNamed name => exact hbuiltin .moduleType (by decide) htyped.1
      | type described => exact hbuiltin .type (by decide) htyped.1
      | fields slots =>
        obtain ⟨-, info, hinfo, -⟩ := htyped
        rw [hinfo]
        rfl
    · cases hv

/-- What evaluation places on a well-typed heap is well typed. -/
theorem Makes.wellTyped {v : Value} (h : m.Makes v) (hm : m.WellTyped) :
    v.WellTyped m.types m.modules := by
  cases h with
  | int i => exact rfl
  | real x => exact rfl
  | str s => exact rfl
  | vector items => exact rfl
  | function f => exact rfl
  | module h => exact ⟨rfl, h⟩
  | typeOf h => exact ⟨rfl, hm.isSome_type h⟩
  | object hinfo hkind hbase hsealed hsize => exact ⟨hbase, _, hinfo, hkind, hsealed, hsize⟩
  | copy h => exact hm.values _ _ h

/-- So is what hosts place there. -/
theorem Supplies.wellTyped {v : Value} (h : m.Supplies v) : v.WellTyped m.types m.modules := by
  cases h with
  | real x => exact rfl
  | builtin f => exact rfl
  | type h => exact ⟨rfl, h⟩

namespace WellTyped

/-- The typing looks at the types, the modules and the values on the heap alone. -/
theorem of_eq (hm : m.WellTyped) (htypes : m'.types = m.types) (hmodules : m'.modules = m.modules)
    (hheap : ∀ a, m'.heap.get? a = m.heap.get? a) : m'.WellTyped where
  builtins := by
    rw [htypes]
    exact hm.builtins
  values := by
    intro a v hv
    rw [htypes, hmodules]
    exact hm.values a v ((hheap a).symm.trans hv)

theorem allocate (hm : m.WellTyped) {v : Value} (hv : v.WellTyped m.types m.modules) :
    (m.tryAllocate v).2.WellTyped := by
  have hvalues : ∀ r w, (m.tryAllocate v).2.heap.get? r = some w → w.WellTyped m.types m.modules := by
    intro r w hw
    rcases m.get?_tryAllocate v hw with rfl | hold
    · exact hv
    · exact hm.values r w hold
  obtain ⟨heap, hheap⟩ := m.exists_heap_tryAllocate v
  rw [hheap] at hvalues ⊢
  exact ⟨hm.builtins, hvalues⟩

theorem modifyPayload (hm : m.WellTyped) (r : Ref) {f : Payload → Payload}
    (hf : ∀ v : Value, v.WellTyped m.types m.modules →
      Value.WellTyped m.types m.modules { v with payload := f v.payload }) :
    (m.modifyPayload r f).WellTyped := by
  cases r with
  | nil => exact hm
  | bool b => exact hm
  | heap a =>
    refine ⟨hm.builtins, fun b w hw => ?_⟩
    rw [Machine.modifyPayload, Heap.modifyPayload, Heap.get?_modifyValue] at hw
    split at hw
    · obtain ⟨v, hv, rfl⟩ := Option.map_eq_some_iff.1 hw
      exact hf v (hm.values b v hv)
    · exact hm.values b w hw

theorem withTypes (hm : m.WellTyped) {types : TypeTable} (h : m.types.Grows types) :
    { m with types }.WellTyped :=
  ⟨fun i hi => h.isSome (hm.builtins i hi), fun a v hv => (hm.values a v hv).mono h fun _ => id⟩

theorem collect (hm : m.WellTyped) {freed : Nat} (h : m.collectGarbage? = some (freed, m')) :
    m'.WellTyped := by
  have hvalues := fun a v hv => hm.values a v (get?_collectKeeping h hv)
  obtain ⟨swept, -, hm'⟩ := Option.map_eq_some_iff.1 h
  obtain ⟨-, rfl⟩ := Prod.mk.inj hm'
  exact ⟨hm.builtins, hvalues⟩

end WellTyped

/-- **One act** of a computation. -/
theorem Act.wellTyped (h : m.Act m') (hm : m.WellTyped) : m'.WellTyped := by
  cases h with
  | allocate hv => exact hm.allocate (hv.wellTyped hm)
  | collect h => exact hm.collect h
  | store r position v => exact hm.modifyPayload r fun _ hw => hw.setElement position v
  | append r v => exact hm.modifyPayload r fun _ hw => hw.push v
  | bind name entry => exact hm.of_eq rfl rfl fun _ => rfl
  | assign name v => exact hm.of_eq rfl rfl fun _ => rfl
  | addMethod type callable location => exact hm.withTypes (.insertMethod _ _ _ _)
  | close type => exact hm.withTypes (.close _ _)
  | report kind location => exact hm.of_eq rfl rfl fun _ => rfl
  | write text => exact hm.of_eq rfl rfl fun _ => rfl
  | switch enabled => exact hm.of_eq rfl rfl fun _ => rfl

theorem Proceeds.wellTyped (h : m.Proceeds rooting m') (hm : m.WellTyped) : m'.WellTyped := by
  induction h with
  | refl m => exact hm
  | trans _ _ ih ih' => exact ih' (ih hm)
  | act h => exact h.wellTyped hm
  | root m r =>
    cases r with
    | nil => exact hm
    | bool b => exact hm
    | heap a => exact hm.of_eq rfl rfl fun _ => rfl
  | released _ ih => exact (ih hm).of_eq rfl rfl fun _ => rfl
  | scope h _ ih => exact (ih (hm.of_eq rfl rfl fun _ => rfl)).of_eq rfl rfl fun _ => rfl
  | call h _ ih => exact (ih (hm.of_eq rfl rfl fun _ => rfl)).of_eq rfl rfl fun _ => rfl
  | rendering _ ih => exact (ih (hm.of_eq rfl rfl fun _ => rfl)).of_eq rfl rfl fun _ => rfl

/-- **At every moment** of a computation the heap is well typed. -/
theorem Passes.wellTyped (h : m.Passes m') (hm : m.WellTyped) : m'.WellTyped := by
  induction h with
  | proceeds h => exact h.wellTyped hm
  | trans _ _ ih ih' => exact ih' (ih hm)
  | scope m h => exact hm.of_eq rfl rfl fun _ => rfl
  | call _ => exact hm.of_eq rfl rfl fun _ => rfl
  | rendering m => exact hm.of_eq rfl rfl fun _ => rfl
  | unwound _ ih => exact (ih hm).of_eq rfl rfl fun _ => rfl

/-- **One act** of a host. -/
theorem HostAct.wellTyped (h : m.HostAct m') (hm : m.WellTyped) : m'.WellTyped := by
  cases h with
  | names names => exact hm.of_eq rfl rfl fun _ => rfl
  | types h => exact hm.withTypes h
  | allocate hv => exact hm.allocate hv.wellTyped
  | bindGlobal name value mutability => exact hm.of_eq rfl rfl fun _ => rfl
  | modules h => exact ⟨hm.builtins, fun a v hv => (hm.values a v hv).mono (.refl _) h⟩

theorem Prepares.wellTyped (h : m.Prepares m') (hm : m.WellTyped) : m'.WellTyped := by
  induction h with
  | refl => exact hm
  | tail _ hact ih => exact hact.wellTyped ih

/-- A bare machine has the built-in types and an empty heap. -/
theorem wellTyped_bare (settings : Settings) (names : NameTable) :
    (bare settings names).WellTyped where
  builtins := by
    intro i hi
    have hsize : (bare settings names).types.size = TypeTable.builtins.length + 1 :=
      (TypeTable.labelled_initial names).size_eq
    exact TypeTable.isSome_get?_iff.2 (hsize ▸ Nat.lt_succ_of_le hi)
  values := by
    intro h v hv
    simp [bare, Heap.initial, Heap.get?, Heap.record?] at hv

/-- **All that a host does over time** keeps the heap well typed. -/
theorem Leads.wellTyped (h : m.Leads m') (hm : m.WellTyped) : m'.WellTyped := by
  induction h with
  | refl => exact hm
  | tail _ hstep ih =>
    rcases hstep.passes_or_prepares with hpasses | hprepares
    · exact hpasses.wellTyped ih
    · exact hprepares.wellTyped ih

end Machine

/-! ## 4. Reading a member -/

namespace Machine

variable {m m' : Machine}

/-- Every declared member of an instance has a field. -/
theorem WellTyped.exists_field (hm : m.WellTyped) {r : Ref} {type : TypeId} {slots : Array Ref}
    {info : TypeInfo} {member : Member} (hr : m.resolve r = .ok ⟨type, .fields slots⟩)
    (hinfo : m.types.get? type = some info) (hmember : member ∈ info.members) :
    ∃ position declared field, m.types.lookupMember type member.name = some (position, declared) ∧
      declared.name = member.name ∧ slots[position]? = some field := by
  have hsize : slots.size = info.members.size := by
    cases r with
    | nil => cases hr
    | bool b => cases hr
    | heap a =>
      simp only [resolve] at hr
      split at hr
      · next v hv =>
        obtain rfl := Except.ok.inj hr
        obtain ⟨-, info', hinfo', -, -, hsize⟩ := hm.values a _ hv
        obtain rfl : info = info' := Option.some.inj (hinfo.symm.trans hinfo')
        exact hsize
      · cases hr
  cases hfind : info.members.findIdx? fun d => d.name = member.name with
  | none =>
    have hne := Array.findIdx?_eq_none_iff.1 hfind member hmember
    simp at hne
  | some position =>
    obtain ⟨hlt, hname, -⟩ := Array.findIdx?_eq_some_iff_getElem.1 hfind
    refine ⟨position, info.members[position], slots[position], ?_, by simpa using hname, by simp⟩
    simp [TypeTable.lookupMember, hinfo, TypeInfo.member?, hfind, hlt]

/-- A member that has a field is read without a call. -/
theorem instanceMember_eq {r field : Ref} {v : Value} {name : Name}
    (h : Effect.fieldOf m v name = some field) :
    Effect.instanceMember r v name m = .done m field := by
  simp only [Effect.instanceMember, bind, Effect.bind, Effect.read, Step.bind, h]
  rfl

/-- A member node asks for its object, and answers with the field. -/
theorem perform_member (m : Machine) (object : Node) (name : Name) (location : Location) :
    ∃ resume : Continuation,
      (Request.eval ⟨.member name, [object], location⟩).perform m = .call m (.eval object) resume ∧
      ∀ (m' : Machine) (r field : Ref) (type : TypeId) (slots : Array Ref),
        m'.resolve r = .ok ⟨type, .fields slots⟩ →
        Effect.fieldOf m' ⟨type, .fields slots⟩ name = some field →
        resume m' (.ok r) = .done m' (.value field) := by
  refine ⟨_, rfl, fun m' r field type slots hr hfield => ?_⟩
  simp only [Step.bind, bind, Effect.bind, Effect.value, Effect.readOrDefect, hr,
    instanceMember_eq hfield]
  rfl

/-- **Reading a member of an instance**: the object is evaluated, and its field is the answer.  Two
steps more than for the object are enough, and nothing else happens to the machine. -/
theorem evaluate_member {n : Nat} {object : Node} {r field : Ref} {type : TypeId} {slots : Array Ref}
    {name : Name} (hobject : m.evaluate n object = .value m' r)
    (hr : m'.resolve r = .ok ⟨type, .fields slots⟩)
    (hfield : Effect.fieldOf m' ⟨type, .fields slots⟩ name = some field) (location : Location)
    (extra : Nat) :
    m.evaluate (n + 2 + extra) ⟨.member name, [object], location⟩ = .value m' field := by
  obtain ⟨resume, hperform, hresume⟩ := m.perform_member object name location
  exact evaluate_of_answer hperform hobject (hresume m' r field type slots hr hfield) extra

/-! ## 5. Typing over time -/

/-- **The heap is well typed** on every machine that a host comes to, by evaluating trees, defining
types, adding members and methods, and binding natives in any order; and at every moment of an
evaluation.  Hence a member of an instance can be read: if an object evaluates to an instance, then
for every member that its type declares the member node evaluates to a field of the instance, on the
same machine. -/
theorem heap_well_typed {settings : Settings} {names : NameTable}
    (h : (boot settings names).Leads m) :
    (∀ a v, m.heap.get? a = some v → v.WellTyped m.types m.modules) ∧
    ∀ (n : Nat) (object : Node) (m' : Machine) (r : Ref) (type : TypeId) (slots : Array Ref)
      (info : TypeInfo) (member : Member) (location : Location),
      m.evaluate n object = .value m' r → m'.resolve r = .ok ⟨type, .fields slots⟩ →
      m'.types.get? type = some info → member ∈ info.members →
      ∃ position declared field,
        m'.types.lookupMember type member.name = some (position, declared) ∧
        declared.name = member.name ∧ slots[position]? = some field ∧
        ∀ extra, m.evaluate (n + 2 + extra) ⟨.member member.name, [object], location⟩ =
          .value m' field := by
  have hm : m.WellTyped :=
    h.wellTyped ((prepares_boot settings names).wellTyped (wellTyped_bare settings names))
  refine ⟨hm.values, fun n object m' r type slots info member location hobject hr hinfo hmember => ?_⟩
  have hm' : m'.WellTyped := by
    have hpasses := (run_passes (.eval object) m n).wellTyped hm
    rwa [show m.run n (.eval object) = .value m' r from hobject] at hpasses
  obtain ⟨position, declared, field, hlookup, hname, hslot⟩ := hm'.exists_field hr hinfo hmember
  refine ⟨position, declared, field, hlookup, hname, hslot, fun extra => ?_⟩
  have hfield : Effect.fieldOf m' ⟨type, .fields slots⟩ member.name = some field := by
    simp [Effect.fieldOf, hlookup, hslot]
  exact evaluate_member hobject hr hfield location extra

/-- `Point(true)`, where `Point` is the first name after those of a new machine. -/
def pointCall : Node :=
  ⟨.call, [⟨.symbol ⟨50⟩, [], .builtin⟩, ⟨.literal (.bool true), [], .builtin⟩], .builtin⟩

/-- Whether an outcome is an instance with the one field true, of a type with a member number 51. -/
def isPoint : Outcome Ref → Bool
  | .value m r =>
    match m.resolve r with
    | .ok ⟨type, .fields slots⟩ =>
      slots == #[.bool true] &&
        (m.types.get? type).any fun info => info.members.any fun member => member.name = ⟨51⟩
    | _ => false
  | _ => false

/-- What a host comes to that defines a type `Point` with a member `x` on a new machine. -/
def definePoint : Outcome (Except Refusal TypeId) :=
  (boot ⟨⟨0, false⟩, some 5, .terminal, false, .standard⟩ .initial).run 0
    (Effect.defineType "Point" .baseObject [("x", .integer)])

/-- Whether a host that came to such a machine can call `Point(true)` there. -/
def callsPoint : Outcome (Except Refusal TypeId) → Bool
  | .value m _ => isPoint (m.evaluate 20 pointCall)
  | _ => false

theorem exists_of_callsPoint {outcome : Outcome (Except Refusal TypeId)}
    (h : callsPoint outcome = true) :
    ∃ m result, outcome = .value m result ∧ isPoint (m.evaluate 20 pointCall) = true := by
  cases outcome with
  | value m result => exact ⟨m, result, rfl, h⟩
  | fault m k => cases h
  | defect m d => cases h
  | outOfSteps m => cases h

/-- After that a program can read `Point(true).x`. -/
theorem heap_well_typed_point :
    ∃ m m', (boot ⟨⟨0, false⟩, some 5, .terminal, false, .standard⟩ .initial).Leads m ∧
      m.evaluate 22 ⟨.member ⟨51⟩, [pointCall], .builtin⟩ = .value m' (.bool true) := by
  have hcalls : callsPoint definePoint = true := by decide +kernel
  obtain ⟨m, result, hdefine, hcheck⟩ := exists_of_callsPoint hcalls
  cases hobject : m.evaluate 20 pointCall with
  | fault m' k => simp [hobject, isPoint] at hcheck
  | defect m' d => simp [hobject, isPoint] at hcheck
  | outOfSteps m' => simp [hobject, isPoint] at hcheck
  | value m' r =>
    rw [hobject, isPoint] at hcheck
    split at hcheck
    · next type slots hr =>
      simp only [Bool.and_eq_true, beq_iff_eq, Option.any_eq_true, Array.any_eq_true',
        decide_eq_true_eq] at hcheck
      obtain ⟨rfl, info, hinfo, member, hmember, hname⟩ := hcheck
      obtain ⟨position, declared, field, -, -, hfield, hread⟩ :=
        (heap_well_typed (.single (.defineType hdefine))).2 20 pointCall m' r type _ info member
          .builtin hobject hr hinfo hmember
      obtain rfl : field = .bool true := by
        have hmem := Array.mem_of_getElem? hfield
        simpa using hmem
      exact ⟨m, m', .single (.defineType hdefine), hname ▸ hread 0⟩
    · cases hcheck

end Machine

end ScriptMachine
