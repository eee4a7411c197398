/-
# Calls of plain bodies

Most native bodies ask for nothing and do not look at the calls under way.  Such a body comes to the
same under a new frame as without it, so a call of it is the body itself, as long as there is room for
the frame.

* `Effect.Plain`: the computations that do not depend on the calls under way, with a rule for each way
  of putting them together, and the native bodies that are of this kind;
* `Machine.run_native`: a call of a plain body;
* `Machine.run_callMethod`: a call of a native method with a plain body.
-/
import ScriptMachine.Proofs.BuiltinTables

namespace ScriptMachine

/-! ## 1. Computations on two call stacks -/

/-- The same end of a computation on two machines that differ in their call stacks at most. -/
inductive Step.Carried {α : Type} (calls calls' : CallStack) : Step α → Step α → Prop where
  | done (m : Machine) (a : α) :
      Carried calls calls' (.done { m with calls } a) (.done { m with calls := calls' } a)
  | fault (m : Machine) (k : FaultKind) :
      Carried calls calls' (.fault { m with calls } k) (.fault { m with calls := calls' } k)
  | defect (m : Machine) (d : Defect) :
      Carried calls calls' (.defect { m with calls } d) (.defect { m with calls := calls' } d)

/-- A computation that asks for nothing and does not depend on the calls under way. -/
def Effect.Plain {α : Type} (x : Effect α) : Prop :=
  ∀ (m : Machine) (calls calls' : CallStack),
    Step.Carried calls calls' (x { m with calls }) (x { m with calls := calls' })

/-- An allocation leaves the calls under way aside. -/
theorem Machine.tryAllocate_withCalls (m : Machine) (calls : CallStack) (v : Value) :
    { m with calls }.tryAllocate v =
      ((m.tryAllocate v).1, { (m.tryAllocate v).2 with calls }) := by
  unfold Machine.tryAllocate Machine.makeRoom?
  cases hdue : m.heap.shouldCollect with
  | false => rfl
  | true =>
    have hcollect : { m with calls }.collectKeeping? v.refs =
        (m.collectKeeping? v.refs).map fun x => (x.1, { x.2 with calls }) := by
      unfold Machine.collectKeeping?
      rw [Option.map_map]
      rfl
    simp only [if_true, hcollect, Option.map_map]
    cases m.collectKeeping? v.refs with
    | none => rfl
    | some x => rfl

namespace Effect.Plain

variable {α β : Type} {x : Effect α}

/-! ## 2. Putting computations together -/

theorem pure (a : α) : Plain (Pure.pure a : Effect α) := fun m _ _ => .done m a

theorem bind {f : α → Effect β} (hx : x.Plain) (hf : ∀ a, (f a).Plain) : (x >>= f).Plain := by
  intro m calls calls'
  have hcarried := hx m calls calls'
  show Step.Carried calls calls' (Step.bind (x _) f) (Step.bind (x _) f)
  generalize x { m with calls } = s, x { m with calls := calls' } = s' at hcarried
  cases hcarried with
  | done m' a => exact hf a m' calls calls'
  | fault m' k => exact .fault m' k
  | defect m' d => exact .defect m' d

theorem read {f : Machine → α} (hf : ∀ (m : Machine) calls, f { m with calls } = f m) :
    (Effect.read f).Plain := by
  intro m calls calls'
  rw [Effect.read, Effect.read, hf m calls, hf m calls']
  exact .done m (f m)

theorem raise (k : FaultKind) : Plain (Effect.raise k : Effect α) := fun m _ _ => .fault m k

theorem raiseWith {kind : Machine → FaultKind}
    (hkind : ∀ (m : Machine) calls, kind { m with calls } = kind m) :
    Plain (Effect.raiseWith kind : Effect α) := by
  intro m calls calls'
  rw [Effect.raiseWith, Effect.raiseWith, hkind m calls, hkind m calls']
  exact .fault m (kind m)

theorem readOrDefect {f : Machine → Except Defect α}
    (hf : ∀ (m : Machine) calls, f { m with calls } = f m) : (Effect.readOrDefect f).Plain := by
  intro m calls calls'
  rw [Effect.readOrDefect, Effect.readOrDefect, hf m calls, hf m calls']
  cases f m with
  | ok a => exact .done m a
  | error d => exact .defect m d

theorem value (r : Ref) : (Effect.value r).Plain := readOrDefect fun _ _ => rfl

theorem raiseAbout (r : Ref) (kind : String → FaultKind) :
    Plain (Effect.raiseAbout r kind : Effect α) :=
  bind (readOrDefect fun _ _ => rfl) fun _ => raise _

theorem allocate (v : Value) : (Effect.allocate v).Plain := by
  intro m calls calls'
  rw [Effect.allocate, Effect.allocate, m.tryAllocate_withCalls calls,
    m.tryAllocate_withCalls calls']
  generalize m.tryAllocate v = result
  obtain ⟨result, m'⟩ := result
  cases result with
  | ok r => exact .done m' r
  | error why => exact .defect m' _

theorem allocateOrRaise (result : Except FaultKind NumericResult) :
    (Effect.allocateOrRaise result).Plain := by
  cases result with
  | error k => exact raise k
  | ok result =>
    cases result with
    | int i => exact allocate _
    | real x => exact allocate _
    | bool b => exact pure _

/-! ## 3. Native bodies -/

theorem numericMethod (op : BinaryOp) (l r : Ref) : (Effect.numericMethod op l r).Plain := by
  refine bind (value l) fun a => bind (value r) fun b => ?_
  split
  · exact allocateOrRaise _
  · exact pure _

theorem negateMethod (r : Ref) : (Effect.negateMethod r).Plain := by
  refine bind (value r) fun v => ?_
  split
  · exact allocateOrRaise _
  · exact pure _

theorem textMethod (test : Comparison) (l r : Ref) : (Effect.textMethod test l r).Plain := by
  have hpair : (Effect.textPair l r).Plain := by
    refine bind (value l) fun a => ?_
    split
    · exact pure _
    · exact bind (value r) fun _ => pure _
  refine bind hpair fun pair => ?_
  split
  · exact pure _
  · exact pure _

theorem sameType (l r : Ref) : (Effect.sameType l r).Plain := by
  refine bind (value l) fun a => ?_
  split
  · exact pure _
  · exact bind (value r) fun _ => pure _

theorem hashValue (r : Ref) : (Effect.hashValue r).Plain :=
  bind (value r) fun _ => bind (read fun _ _ => rfl) fun _ => allocate _

theorem newNumber (receiver : Ref) (args : List Ref) : (Effect.newNumber receiver args).Plain := by
  have hsource : ∀ target, (Effect.constructedFrom target args).Plain := by
    intro target
    match args with
    | [] => exact pure _
    | [arg] =>
      refine bind (value arg) fun v => ?_
      split
      · exact pure _
      · exact raiseAbout _ _
    | _ :: _ :: _ => exact raiseWith fun _ _ => rfl
  refine bind (bind (value receiver) fun v => pure _) fun target => bind (hsource target) fun n => ?_
  split
  · exact allocate _
  · split
    · exact allocate _
    · exact allocate _

end Effect.Plain

/-! ## 4. Receivers -/

/-- The built-in type that a payload calls for; instances are of types of their own. -/
def Payload.home? : Payload → Option TypeId
  | nil => some .nil
  | bool _ => some .boolean
  | int _ => some .integer
  | real _ => some .real
  | str _ => some .string
  | vector _ => some .vector
  | function _ => some .function
  | builtin _ => some .builtinFn
  | moduleNamed _ => some .moduleType
  | type _ => some .type
  | fields _ => none

theorem Payload.real?_eq_some_iff {p : Payload} {x : Double} : p.real? = some x ↔ p = .real x := by
  cases p <;> simp [Payload.real?]

theorem Payload.str?_eq_some_iff {p : Payload} {s : String} : p.str? = some s ↔ p = .str s := by
  cases p <;> simp [Payload.str?]

theorem Payload.type?_eq_some_iff {p : Payload} {t : TypeId} : p.type? = some t ↔ p = .type t := by
  cases p <;> simp [Payload.type?]

/-- Values are of the types that their payloads call for. -/
theorem Machine.WellTyped.type_of_home {m : Machine} (hm : m.WellTyped) {r : Ref} {v : Value}
    (hv : m.resolve r = .ok v) {type : TypeId} (hhome : v.payload.home? = some type) :
    v.type = type := by
  cases r with
  | nil =>
    obtain rfl := Except.ok.inj hv
    exact Option.some.inj hhome
  | bool b =>
    obtain rfl := Except.ok.inj hv
    exact Option.some.inj hhome
  | heap a =>
    have htyped := hm.values a v (Machine.resolve_heap.1 hv)
    obtain ⟨own, payload⟩ := v
    cases payload with
    | nil => exact htyped.elim
    | bool b => exact htyped.elim
    | int i => exact htyped.trans (Option.some.inj hhome)
    | real x => exact htyped.trans (Option.some.inj hhome)
    | str s => exact htyped.trans (Option.some.inj hhome)
    | vector items => exact htyped.trans (Option.some.inj hhome)
    | function f => exact htyped.trans (Option.some.inj hhome)
    | builtin f => exact htyped.trans (Option.some.inj hhome)
    | moduleNamed name => exact htyped.1.trans (Option.some.inj hhome)
    | type described => exact htyped.1.trans (Option.some.inj hhome)
    | fields slots => cases hhome

/-- So apart from instances the payload is all there is to know. -/
theorem Machine.WellTyped.eq_of_payload {m : Machine} (hm : m.WellTyped) {r : Ref} {v : Value}
    (hv : m.resolve r = .ok v) {p : Payload} (hpayload : v.payload = p) {type : TypeId}
    (hhome : p.home? = some type) : v = ⟨type, p⟩ := by
  subst hpayload
  obtain rfl := hm.type_of_home hv hhome
  rfl

/-! ## 5. Calls -/

/-- The calls under way leave room for some more. -/
def CallStack.Admits (s : CallStack) (frames : Nat) : Prop :=
  ∀ limit, s.limit = some limit → s.depth + frames ≤ limit

instance (s : CallStack) (frames : Nat) : Decidable (s.Admits frames) :=
  decidable_of_iff (∀ limit ∈ s.limit, s.depth + frames ≤ limit) Iff.rfl

theorem CallStack.Admits.mono {s : CallStack} {frames fewer : Nat} (h : s.Admits frames)
    (hle : fewer ≤ frames) : s.Admits fewer := by
  intro limit hlimit
  have hroom := h limit hlimit
  omega

/-- One more call takes one place. -/
theorem CallStack.Admits.exists_push {s : CallStack} {frames : Nat} (h : s.Admits (frames + 1))
    (frame : CallFrame) : ∃ s', s.push frame = (.ok (), s') ∧ s'.Admits frames := by
  have hroom : ∀ limit, s.limit = some limit → s.depth < limit := by
    intro limit hlimit
    have hle := h limit hlimit
    omega
  obtain ⟨s', hpush, hdepth, hlimit⟩ := CallStack.exists_push hroom frame
  refine ⟨s', hpush, fun limit hlimit' => ?_⟩
  have hle := h limit (hlimit ▸ hlimit')
  omega

/-- Two outcomes that no one can tell apart.  A defect ends everything, so the machine that it leaves
behind does not count. -/
inductive Outcome.Same {α : Type} : Outcome α → Outcome α → Prop where
  | value (m : Machine) (a : α) : Same (.value m a) (.value m a)
  | fault (m : Machine) (k : FaultKind) : Same (.fault m k) (.fault m k)
  | defect (m m' : Machine) (d : Defect) : Same (.defect m d) (.defect m' d)

theorem Outcome.Same.eq_value {α : Type} {m : Machine} {a : α} {outcome : Outcome α}
    (h : (Outcome.value m a).Same outcome) : outcome = .value m a := by
  cases h
  rfl

theorem Outcome.Same.eq_fault {α : Type} {m : Machine} {k : FaultKind} {outcome : Outcome α}
    (h : (Outcome.fault m k).Same outcome) : outcome = .fault m k := by
  cases h
  rfl

namespace Machine

variable {α : Type} {m : Machine} {args : List Ref} {location : Location}

/-- A run depends on what the computation comes to on its machine. -/
theorem run_congr {x y : Effect α} (h : x m = y m) (n : Nat) : m.run n x = m.run n y := by
  rw [Machine.run, Machine.run, h]

/-- Reading a value goes on with it. -/
theorem bind_value {r : Ref} {v : Value} (hv : m.resolve r = .ok v) (f : Value → Effect α) :
    (Effect.value r >>= f) m = f v m := by
  show Step.bind (Effect.value r m) f = _
  rw [Effect.value, Effect.readOrDefect, hv]
  rfl

/-- A plain computation takes no steps. -/
theorem run_of_plain {x : Effect α} (hx : x.Plain) (n : Nat) : m.run n x = m.run 0 x := by
  have hcarried := hx m m.calls m.calls
  unfold Machine.run
  rw [show ({ m with calls := m.calls } : Machine) = m from rfl] at hcarried
  generalize x m = s at hcarried
  cases hcarried with
  | done m' a => rfl
  | fault m' k => rfl
  | defect m' d => rfl

/-- **A call of a plain body** is the body, where there is room for the call. -/
theorem run_native {f : NativeFunction} (haccepts : f.accepts args.length = true)
    (hroom : m.calls.Admits 1) (hplain : (f.procedure.run args).Plain) (n : Nat) :
    (m.run 0 (f.procedure.run args)).Same (m.run (n + 1) (Effect.call (.native f) args location)) := by
  obtain ⟨calls, hpush, -⟩ := hroom.exists_push ⟨f.name, location⟩
  have hbegin : Effect.beginCall ⟨f.name, location⟩ m = .done { m with calls } () := by
    rw [Effect.beginCall, hpush]
  have hend : ∀ m' : Machine, Effect.endCall { m' with calls } =
      .done { m' with calls := m.calls } () := by
    intro m'
    rw [Effect.endCall, if_neg (by simp [CallStack.isEmpty, (CallStack.of_push_ok hpush).1]),
      CallStack.pop_of_push hpush]
  have hperform : (Request.call (.native f) args location).perform m =
      (((f.procedure.run args { m with calls }).attempt.bind fun outcome m =>
        (Effect.endCall m).bind fun _ => Effect.readOrRaise fun _ => outcome).bind
        fun v m => .done m (.value v)) := by
    show Step.bind (Effect.enterNative f args location (f.procedure.run args) m) _ = _
    rw [Effect.enterNative, if_pos haccepts]
    show Step.bind (Step.bind (Effect.beginCall ⟨f.name, location⟩ m) _) _ = _
    rw [hbegin]
    rfl
  show Outcome.Same (m.run 0 (f.procedure.run args)) (m.run (n + 1) (Effect.request _))
  unfold Machine.run Effect.request
  simp only [Step.run, hperform]
  -- under the frame the body ends as without it, and the frame is taken back either way
  have hcarried := hplain m m.calls calls
  generalize f.procedure.run args { m with calls } = s' at hcarried ⊢
  have hsame : ({ m with calls := m.calls } : Machine) = m := rfl
  rw [hsame] at hcarried
  generalize f.procedure.run args m = s at hcarried ⊢
  cases hcarried with
  | done m' a =>
    simp only [Step.attempt, Step.bind, hend]
    exact .value _ a
  | fault m' k =>
    simp only [Step.attempt, Step.bind, hend]
    exact .fault _ k
  | defect m' d => exact .defect _ _ d

/-- The type on which a method of a value is looked up. -/
def methodType (m : Machine) (v : Value) (method : Name) : TypeId :=
  match v.payload with
  | .type described => if method = m.methods.new then described else v.type
  | _ => v.type

theorem methodType_of_ne {method : Name} (v : Value) (h : method ≠ m.methods.new) :
    m.methodType v method = v.type := by
  unfold methodType
  split
  · rw [if_neg h]
  · rfl

/-- A method that is found is called with the receiver as first argument. -/
theorem callOnType_eq {type : TypeId} {receiver : Ref} {method : Name} {found : Resolved}
    (hfound : m.types.lookupMethod type method = .ok found) :
    Effect.callOnType type method receiver args location m =
      Effect.call found.entry.callable (receiver :: args) location m := by
  show Step.bind (Effect.readOrRaise _ m) _ = _
  rw [Effect.readOrRaise, hfound]
  rfl

theorem callMethod_eq {receiver : Ref} {method : Name} {v : Value} {found : Resolved}
    (hv : m.resolve receiver = .ok v)
    (hfound : m.types.lookupMethod (m.methodType v method) method = .ok found) :
    Effect.callMethod receiver method args location m =
      Effect.call found.entry.callable (receiver :: args) location m := by
  exact (bind_value hv _).trans (callOnType_eq hfound)

/-- **A call of a native method with a plain body** is the body, with the receiver first. -/
theorem run_callMethod {receiver : Ref} {method : Name} {v : Value} {owner : TypeId}
    {spec : NativeSpec} (hv : m.resolve receiver = .ok v)
    (hfound : m.types.lookupMethod (m.methodType v method) method =
      .ok ⟨owner, spec.entry method⟩)
    (haccepts : (spec.function method).accepts (args.length + 1) = true)
    (hroom : m.calls.Admits 1) (hplain : (spec.procedure.run (receiver :: args)).Plain) (n : Nat) :
    (m.run 0 (spec.procedure.run (receiver :: args))).Same
      (m.run (n + 1) (Effect.callMethod receiver method args location)) := by
  have hcall : Effect.callMethod receiver method args location m =
      Effect.call (.native (spec.function method)) (receiver :: args) location m :=
    callMethod_eq hv hfound
  have haccepts' : (spec.function method).accepts (receiver :: args).length = true := haccepts
  have hsame := @run_native m (receiver :: args) location _ haccepts' hroom hplain n
  rwa [run_congr hcall]

end Machine

end ScriptMachine
