/-
# Operators and their methods

An operator on two numbers is computed at once.  The types of numbers have methods for the operators
as well, so the same could be had by calling the method of the left operand.  As long as these methods
are the built-in ones, both ways come to the same: the same value or the same fault, on the same
machine.

* `Machine.Delivers`: what the result of an operator on numbers comes to on a machine;
* `Machine.HoldsOperators`: a type has the built-in methods for the operators;
* `Machine.session?`: a session in which they stay, with values of many kinds;
* `Machine.operators_are_methods`: both ways, for all operators.
-/
import Mathlib.Tactic.MkIffOfInductiveProp
import ScriptMachine.Proofs.Completion
import ScriptMachine.Proofs.PlainCalls

namespace ScriptMachine

theorem BinaryOp.mem_all (op : BinaryOp) : op ∈ all := by
  cases op <;> decide

/-! ## 1. Results -/

/-- The value that a numeric result has to be placed as; booleans need no place. -/
def NumericResult.placed? : NumericResult → Option Value
  | int i => some (.ofInt i)
  | real x => some (.ofReal x)
  | bool _ => none

namespace Machine

variable {m : Machine}

/-- **What the result of an operator on numbers comes to.**  A fault is raised and a boolean is given
without any change; a number is placed on the heap, if not all slots are in use. -/
inductive Delivers (m : Machine) : Except FaultKind NumericResult → Outcome Ref → Prop where
  | raised (k : FaultKind) : Delivers m (.error k) (.fault m k)
  | truth (b : Bool) : Delivers m (.ok (.bool b)) (.value m (.bool b))
  | placed {result : NumericResult} {v : Value} {a : Handle} {m' : Machine}
      (hv : result.placed? = some v) (h : m.Allocates v a m') :
      Delivers m (.ok result) (.value m' (.heap a))
  | full {result : NumericResult} {v : Value} {m' : Machine} (hv : result.placed? = some v)
      (h : Heap.maxSlots ≤ m'.heap.live) :
      Delivers m (.ok result) (.defect m' (.heapExhausted .allocFailed))

theorem delivers_allocate (hw : m.heap.WellFormed) {result : NumericResult} {v : Value}
    (hv : result.placed? = some v) (n : Nat) :
    m.Delivers (.ok result) (m.run n (Effect.allocate v)) := by
  unfold Machine.run Effect.allocate
  rcases Machine.tryAllocate_cases hw v with ⟨a, m', ha⟩ | ⟨m', hfull, hmax, -⟩
  · rw [ha.eq]
    exact .placed hv ha
  · rw [hfull]
    exact .full hv hmax

theorem delivers_allocateOrRaise (hw : m.heap.WellFormed)
    (result : Except FaultKind NumericResult) (n : Nat) :
    m.Delivers result (m.run n (Effect.allocateOrRaise result)) := by
  cases result with
  | error k => exact .raised k
  | ok result =>
    cases result with
    | int i => exact delivers_allocate hw rfl n
    | real x => exact delivers_allocate hw rfl n
    | bool b => exact .truth b

/-! ## 2. Operators on numbers -/

variable {l r : Ref} {v w : Value} {x y : Number} {location : Location}

theorem binaryOp_eq (op : BinaryOp) (hl : m.resolve l = .ok v) (hr : m.resolve r = .ok w)
    (hx : v.payload.number? = some x) (hy : w.payload.number? = some y) :
    Effect.binaryOp op l r location m =
      Effect.allocateOrRaise (Number.evalBinary op x y) m := by
  refine (bind_value hl _).trans ((bind_value hr _).trans ?_)
  rw [hx, hy]

theorem numericMethod_eq (op : BinaryOp) (hl : m.resolve l = .ok v) (hr : m.resolve r = .ok w)
    (hx : v.payload.number? = some x) (hy : w.payload.number? = some y) :
    Effect.numericMethod op l r m = Effect.allocateOrRaise (Number.evalBinary op x y) m := by
  refine (bind_value hl _).trans ((bind_value hr _).trans ?_)
  rw [hx, hy]

theorem unaryOp_eq (hl : m.resolve l = .ok v) (hx : v.payload.number? = some x) :
    Effect.unaryOp .neg l location m = Effect.allocateOrRaise x.negate m := by
  refine (bind_value hl _).trans ?_
  rw [hx]

theorem negateMethod_eq (hl : m.resolve l = .ok v) (hx : v.payload.number? = some x) :
    Effect.negateMethod l m = Effect.allocateOrRaise x.negate m := by
  refine (bind_value hl _).trans ?_
  rw [hx]

/-! ## 3. The methods of numbers -/

/-- A type still has the built-in methods for the operators. -/
def HoldsOperators (m : Machine) (type : TypeId) : Prop :=
  (∀ op ∈ BinaryOp.all, ∀ text ∈ op.method?, m.Standard type text) ∧
    m.Standard type UnaryOp.neg.method

instance (type : TypeId) : Decidable (m.HoldsOperators type) := inferInstanceAs (Decidable (_ ∧ _))

/-- Numbers are of one of two types. -/
theorem WellTyped.type_of_number (hm : m.WellTyped) (hl : m.resolve l = .ok v)
    (hx : v.payload.number? = some x) : v.type = .integer ∨ v.type = .real := by
  have hhome : ∀ type, v.payload.home? = some type → v.type = type := fun _ => hm.type_of_home hl
  obtain ⟨type, payload⟩ := v
  cases payload with
  | int i => exact .inl (hhome _ rfl)
  | real x => exact .inr (hhome _ rfl)
  | _ => cases hx

theorem builtin?_numeric {type : TypeId} (htype : type = .integer ∨ type = .real) {op : BinaryOp}
    {text : String} (htext : op.method? = some text) :
    NativeSpec.builtin? type text = some (.fixed text 2 (.numeric op)) := by
  have hall : ∀ type ∈ [TypeId.integer, .real], ∀ op ∈ BinaryOp.all, ∀ text ∈ op.method?,
      NativeSpec.builtin? type text = some (.fixed text 2 (.numeric op)) := by decide +kernel
  exact hall type (by simpa using htype) op op.mem_all text htext

theorem builtin?_negate {type : TypeId} (htype : type = .integer ∨ type = .real) :
    NativeSpec.builtin? type UnaryOp.neg.method = some (.fixed "neg" 1 .numericNeg) := by
  rcases htype with rfl | rfl <;> decide +kernel

/-- The names of the operators' methods are not that of constructors. -/
theorem Regular.ne_new (hm : m.Regular) {text : String} {name : Name}
    (hname : m.names.get? text = some name) (htext : text ≠ "new") : name ≠ m.methods.new := by
  rintro rfl
  exact htext (NameTable.text_eq_of_get? hname hm.spelled.new)

/-- **One operator, both ways**: at once, and as a built-in method of the type of its first operand. -/
theorem Regular.delivers_alike (hm : m.Regular) (hroom : m.calls.Admits 1)
    (hl : m.resolve l = .ok v) {text : String} {name : Name} (hname : m.names.get? text = some name)
    (hnew : text ≠ "new") (hstandard : m.Standard v.type text) {spec : NativeSpec}
    (hspec : NativeSpec.builtin? v.type text = some spec) (args : List Ref)
    (haccepts : (spec.function name).accepts (args.length + 1) = true)
    (hplain : (spec.procedure.run (l :: args)).Plain) {result : Except FaultKind NumericResult}
    (hbody : spec.procedure.run (l :: args) m = Effect.allocateOrRaise result m) {fast : Effect Ref}
    (hfast : fast m = Effect.allocateOrRaise result m) :
    ∃ outcome, m.Delivers result outcome ∧ (∀ n, m.run n fast = outcome) ∧
      ∀ n, outcome.Same (m.run (n + 1) (Effect.callMethod l name args location)) := by
  -- what both come to is the allocation of the result
  refine ⟨m.run 0 (Effect.allocateOrRaise result), delivers_allocateOrRaise hm.wellFormed result 0,
    fun n => ?_, fun n => ?_⟩
  · rw [run_congr hfast, run_of_plain (.allocateOrRaise result)]
  · have hfound : m.types.lookupMethod (m.methodType v name) name =
        .ok ⟨v.type, spec.entry name⟩ := by
      rw [methodType_of_ne v (hm.ne_new hname hnew)]
      exact hm.lookupMethod_own hname hstandard hspec (hm.wellTyped.isSome_type hl)
    rw [← run_congr hbody]
    exact run_callMethod hl hfound haccepts hroom hplain n

/-! ## 4. A session -/

/-- A reference that resolves to a certain value. -/
def Shows (m : Machine) (r : Ref) (p : Value → Bool) : Prop := (m.resolve r).toOption.any p = true

instance (r : Ref) (p : Value → Bool) : Decidable (m.Shows r p) := inferInstanceAs (Decidable (_ = _))

theorem Shows.exists_resolve {p : Value → Bool} (h : m.Shows r p) :
    ∃ v, m.resolve r = .ok v ∧ p v = true := by
  unfold Shows at h
  cases hr : m.resolve r with
  | error d =>
    rw [hr] at h
    cases h
  | ok v =>
    rw [hr] at h
    exact ⟨v, rfl, h⟩

/-- A constant in a tree. -/
def constant (value : Literal) : Node := ⟨.literal value, [], .builtin⟩

/-- A bound name in a tree. -/
def symbol (name : Nat) : Node := ⟨.symbol ⟨name⟩, [], .builtin⟩

/-- `[7, 0, Kind(), Integer, type(1), Meters, 1.5]`, where `Kind` and `Meters` are the first two names
after those of a new machine. -/
def collection : Node :=
  ⟨.vector, [constant (.int 7), constant (.int 0), ⟨.call, [symbol 50], .builtin⟩, symbol 4,
    ⟨.call, [symbol 38, constant (.int 1)], .builtin⟩, symbol 51,
    constant (.real ⟨0x3ff8000000000000⟩)], .builtin⟩

/-- The machine of a host that defines a type `Kind` below Type and a type `Meters` below Real on a new
machine, and evaluates the collection. -/
def session? : Option Machine :=
  match (boot ⟨⟨0, false⟩, some 5, .terminal, false, .standard⟩ .initial).run 0
      (Effect.defineType "Kind" .type []) with
  | .value m _ =>
    match m.run 0 (Effect.defineType "Meters" .real []) with
    | .value m _ => some (m.evaluate 60 collection).machine
    | _ => none
  | _ => none

/-- What the session leaves as it was: there is room for two more calls, and the methods of operators,
equality and hashes are the built-in ones. -/
@[mk_iff]
structure Unchanged (m : Machine) : Prop where
  room : m.calls.Admits 2
  integer : m.HoldsOperators .integer
  real : m.HoldsOperators .real
  types : ∀ i < m.types.size, ∀ text ∈ ["eq", "ne", "hash"], m.Standard ⟨i⟩ text

instance : Decidable m.Unchanged := decidable_of_iff _ m.unchanged_iff.symm

/-- What the session leaves behind: the values of the collection, next to those of a new machine. -/
@[mk_iff]
structure Collected (m : Machine) : Prop where
  seven : m.Shows (.heap ⟨30, 0⟩) fun v => v.payload.int? == some 7
  zero : m.Shows (.heap ⟨31, 0⟩) fun v => v.payload.int? == some 0
  fraction : m.Shows (.heap ⟨35, 0⟩) fun v =>
    v.payload.real?.map Double.bits == some 0x3ff8000000000000
  kind : m.Shows (.heap ⟨32, 0⟩) fun v =>
    v.payload matches .fields _ && m.types.isSubtype v.type .type
  integer : m.Shows (.heap ⟨3, 0⟩) fun v => v.payload.type? == some .integer
  typeOfOne : m.Shows (.heap ⟨34, 0⟩) fun v => v.payload.type? == some .integer
  meters : m.Shows (.heap ⟨29, 0⟩) fun v => v.payload.type? == some ⟨12⟩
  hash : m.Shows (.heap ⟨15, 0⟩) fun v => v.payload matches .builtin ⟨⟨28⟩, 1, false, .hash⟩
  below : m.types.isSubtype ⟨12⟩ .real = true
  constructor : ((m.types.lookupMethod ⟨12⟩ m.methods.new).toOption.any fun found =>
    isNative ⟨m.methods.new, 1, true, .numericNew⟩ found.entry) = true

instance : Decidable m.Collected := decidable_of_iff _ m.collected_iff.symm

theorem Unchanged.standard (h : m.Unchanged) (hm : m.Arises) {text : String}
    (htext : text ∈ ["eq", "ne", "hash"]) (type : TypeId) : m.Standard type text :=
  hm.regular.standard (fun i hi => h.types i hi text htext) type

/-- The session is one of a host, with the digest of every machine that brings no other. -/
theorem arises_of_session (h : session? = some m) : m.Arises ∧ m.digest = .standard := by
  unfold session? at h
  split at h
  · next m₁ kind hkind =>
    split at h
    · next m₂ meters hmeters =>
      obtain rfl := Option.some.inj h
      have hleads := Relation.ReflTransGen.tail (.tail (.single (HostStep.defineType hkind))
        (.defineType hmeters)) (.evaluate m₂ 60 collection)
      exact ⟨⟨_, [], _, hleads, .refl _⟩, (Leads.develops hleads).digest_eq.trans (digest_boot _ _)⟩
    · cases h
  · cases h

/-- The session can be run. -/
theorem exists_session :
    ∃ m : Machine, m.Arises ∧ m.digest = .standard ∧ m.Unchanged ∧ m.Collected := by
  have hcheck : (session?.any fun m => m.Unchanged ∧ m.Collected) = true := by decide +kernel
  obtain ⟨m, hsession, hfacts⟩ := (Option.any_eq_true _ _).1 hcheck
  obtain ⟨harises, hdigest⟩ := arises_of_session hsession
  exact ⟨m, harises, hdigest, of_decide_eq_true hfacts⟩

theorem number?_of_int? {p : Payload} {i : Int64} (h : p.int? = some i) :
    p.number? = some (.int i) := by
  cases p with
  | int j => exact congrArg (Option.map Number.int) h
  | _ => cases h

/-! ## 5. Both ways -/

/-- **Operators on numbers are their methods.**  On every machine that comes about, where Integer and
Real have the built-in methods for the operators and there is room for one more call: for all numbers,
integer or real, an operator at once and the method that stands for it end alike.  Both raise the fault
that the operator has for these numbers, or both give its result, and the machine is the same
afterwards, with a new number in the same place; unless all slots of the heap are in use.  The same
holds of the minus sign. -/
theorem operators_are_methods (hm : m.Arises) (hroom : m.calls.Admits 1)
    (hinteger : m.HoldsOperators .integer) (hreal : m.HoldsOperators .real)
    (hl : m.resolve l = .ok v) (hx : v.payload.number? = some x) (location : Location) :
    (∀ op text r w y, BinaryOp.method? op = some text → m.resolve r = .ok w →
      w.payload.number? = some y →
      ∃ name outcome, m.names.get? text = some name ∧ m.methods.binary? op = some name ∧
        m.Delivers (Number.evalBinary op x y) outcome ∧
        (∀ n, m.run n (Effect.binaryOp op l r location) = outcome) ∧
        ∀ n, outcome.Same (m.run (n + 1) (Effect.callMethod l name [r] location))) ∧
    ∃ name outcome, m.names.get? UnaryOp.neg.method = some name ∧ m.methods.unary .neg = name ∧
      m.Delivers x.negate outcome ∧
      (∀ n, m.run n (Effect.unaryOp .neg l location) = outcome) ∧
      ∀ n, outcome.Same (m.run (n + 1) (Effect.callMethod l name [] location)) := by
  have hreg := hm.regular
  have htype := hreg.wellTyped.type_of_number hl hx
  have hholds : m.HoldsOperators v.type := by
    rcases htype with h | h
    · exact h ▸ hinteger
    · exact h ▸ hreal
  refine ⟨fun op text r w y htext hr hy => ?_, ?_⟩
  · obtain ⟨name, hbinary, hname⟩ := hreg.spelled.binary op text htext
    have hnew : text ≠ "new" := by
      rintro rfl
      cases op <;> simp [BinaryOp.method?] at htext
    obtain ⟨outcome, hdelivers, hfast, hslow⟩ := hreg.delivers_alike hroom hl hname hnew
      (hholds.1 op op.mem_all text htext) (builtin?_numeric htype htext) [r] rfl (.numericMethod op l r)
      (numericMethod_eq op hl hr hx hy) (binaryOp_eq op hl hr hx hy)
    exact ⟨name, outcome, hname, hbinary, hdelivers, hfast, hslow⟩
  · obtain ⟨outcome, hdelivers, hfast, hslow⟩ := hreg.delivers_alike hroom hl
      (hreg.spelled.unary .neg) (by decide) hholds.2 (builtin?_negate htype) [] rfl
      (.negateMethod l) (negateMethod_eq hl hx) (unaryOp_eq hl hx)
    exact ⟨_, outcome, hreg.spelled.unary .neg, rfl, hdelivers, hfast, hslow⟩

/-- After the session `7 / 0` is the same fault both ways. -/
theorem operators_are_methods_division :
    ∃ (m : Machine) (name : Name), m.Arises ∧ m.names.get? "div" = some name ∧
      m.run 0 (Effect.binaryOp .div (.heap ⟨30, 0⟩) (.heap ⟨31, 0⟩) .builtin) =
        .fault m .divisionByZero ∧
      m.run 1 (Effect.callMethod (.heap ⟨30, 0⟩) name [.heap ⟨31, 0⟩] .builtin) =
        .fault m .divisionByZero := by
  obtain ⟨m, harises, -, hunchanged, hcollected⟩ := exists_session
  obtain ⟨v, hv, hx⟩ := hcollected.seven.exists_resolve
  obtain ⟨w, hw, hy⟩ := hcollected.zero.exists_resolve
  obtain ⟨name, outcome, hname, -, hdelivers, hfast, hslow⟩ :=
    (operators_are_methods harises (hunchanged.room.mono (by decide)) hunchanged.integer
      hunchanged.real hv (number?_of_int? (beq_iff_eq.1 hx)) .builtin).1 .div "div" _ w _ rfl hw
      (number?_of_int? (beq_iff_eq.1 hy))
  have hresult : Number.evalBinary .div (.int 7) (.int 0) = .error .divisionByZero := rfl
  rw [hresult] at hdelivers
  cases hdelivers
  exact ⟨m, name, harises, hname, hfast 0, (hslow 0).eq_fault⟩

end Machine

end ScriptMachine
