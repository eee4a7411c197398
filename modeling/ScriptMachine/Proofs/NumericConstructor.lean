/-
# The constructor of numbers

Integer and Real share one native constructor, and types that derive from them inherit it.  It looks at
the type it constructs for: for Real itself it makes a real, and for every other type an integer.  So a
type below Integer gives integers, as it should, but so does a type below Real: the fraction of the
argument is dropped there.

* `Machine.source?`: the number that the arguments give;
* `Machine.Constructing`: the ways to construct a value of a type;
* `Machine.newNumber_eq`: the body of the constructor;
* `Machine.numeric_constructor`: what is constructed, for all types and arguments.
-/
import ScriptMachine.Proofs.OperatorMethods

namespace ScriptMachine

/-- The number as an integer, without its fraction. -/
def Number.whole : Number → Int64
  | int i => i
  | real x => x.truncate

namespace Machine

variable {m : Machine} {type : TypeId} {receiver : Ref} {args : List Ref} {v : Value}
  {location : Location}

/-! ## 1. Arguments -/

/-- The number that the arguments of a constructor give: zero without any, and what a single one can
be converted to. -/
def source? (m : Machine) : List Ref → Option Number
  | [] => some (.int 0)
  | [arg] => (m.resolve arg).toOption.bind fun v => Effect.toNumber? v.payload
  | _ => none

theorem constructedFrom_eq (type : TypeId) (hlive : ∀ arg ∈ args, ∃ w, m.resolve arg = .ok w) :
    (∀ number, m.source? args = some number →
      Effect.constructedFrom type args m = .done m number) ∧
    (m.source? args = none → ∃ k, Effect.constructedFrom type args m = .fault m k) := by
  match args with
  | [] =>
    refine ⟨fun number h => ?_, nofun⟩
    obtain rfl := Option.some.inj h
    rfl
  | _ :: _ :: _ => exact ⟨nofun, fun _ => ⟨_, rfl⟩⟩
  | [arg] =>
    obtain ⟨w, hw⟩ := hlive arg (by simp)
    have hsource : m.source? [arg] = Effect.toNumber? w.payload := by
      rw [source?, hw]
      rfl
    rw [hsource]
    refine ⟨fun number h => ?_, fun h => ?_⟩
    · refine (bind_value hw _).trans ?_
      rw [h]
      rfl
    · refine ⟨.invalidOperand "new" (m.typeText w.type), (bind_value hw _).trans ?_⟩
      rw [h]
      show Step.bind (Effect.typeText arg m) _ = _
      rw [Effect.typeText, Effect.readOrDefect, hw]
      rfl

/-! ## 2. The body -/

/-- What the constructor makes for a type. -/
def constructed (type : TypeId) (number : Number) : NumericResult :=
  if type = .real then .real number.toReal else .int number.whole

/-- **The body of the constructor**: the type that is constructed for decides what becomes of the
number. -/
theorem newNumber_eq (hv : m.resolve receiver = .ok v) (htype : v.payload.type?.getD v.type = type)
    (hlive : ∀ arg ∈ args, ∃ w, m.resolve arg = .ok w) :
    (∀ number, m.source? args = some number →
      Effect.newNumber receiver args m = Effect.allocateResult (constructed type number) m) ∧
    (m.source? args = none → ∃ k, Effect.newNumber receiver args m = .fault m k) := by
  have htarget : Effect.constructedType receiver m = .done m type := by
    rw [← htype]
    exact bind_value hv _
  have hbody : Effect.newNumber receiver args m = (Effect.constructedFrom type args m).bind
      fun number => Effect.allocateResult (constructed type number) := by
    show Step.bind (Effect.constructedType receiver m) _ = _
    rw [htarget]
    show Step.bind (Effect.constructedFrom type args m) _ = _
    congr 1
    funext number
    rw [constructed]
    split
    · rfl
    · cases number with
      | int i => rfl
      | real x => rfl
  obtain ⟨hgiven, hnone⟩ := constructedFrom_eq type hlive
  refine ⟨fun number h => ?_, fun h => ?_⟩
  · rw [hbody, hgiven number h]
    rfl
  · obtain ⟨k, hk⟩ := hnone h
    refine ⟨k, ?_⟩
    rw [hbody, hk]
    rfl

/-! ## 3. Constructions -/

/-- The two ways to construct a value of a type: a call of a value that describes the type, and the
method `new`, of such a value or of a value of the type. -/
inductive Constructing (m : Machine) (type : TypeId) (receiver : Ref) (args : List Ref)
    (location : Location) : Effect Ref → Prop where
  | call {v : Value} (hv : m.resolve receiver = .ok v) (htype : v.payload = .type type) :
      Constructing m type receiver args location (Effect.callValue receiver args location)
  | method {v : Value} (hv : m.resolve receiver = .ok v)
      (htype : m.methodType v m.methods.new = type) :
      Constructing m type receiver args location
        (Effect.callMethod receiver m.methods.new args location)

/-- Either way the method `new` of the type is called with the receiver first, and the receiver tells
the type. -/
theorem Constructing.calls {x : Effect Ref} (h : m.Constructing type receiver args location x)
    {found : Resolved} (hfound : m.types.lookupMethod type m.methods.new = .ok found) :
    x m = Effect.call found.entry.callable (receiver :: args) location m ∧
      ∃ v, m.resolve receiver = .ok v ∧ v.payload.type?.getD v.type = type := by
  cases h with
  | @call v hv htype =>
    refine ⟨?_, v, hv, by rw [htype]; rfl⟩
    refine (bind_value hv _).trans ?_
    rw [htype]
    exact callOnType_eq hfound
  | @method v hv htype =>
    refine ⟨callMethod_eq hv (htype.symm ▸ hfound), v, hv, ?_⟩
    rw [← htype, methodType]
    cases v.payload with
    | type described => exact (if_pos rfl).symm
    | _ => rfl

/-- **What the constructor of numbers constructs.**  On every machine that comes about, where there is
room for one more call, let the method `new` of a type be the built-in constructor of numbers, and let
it be called through a value that describes the type or through a value of the type, on any arguments.
Arguments that give no number are a fault.  Otherwise Real gets a real, with the fraction of the number;
and every other type gets an integer, from which the fraction is dropped: the types that derive from
Integer, and also those that derive from Real without being Real. -/
theorem numeric_constructor (hm : m.Arises) (hroom : m.calls.Admits 1) {x : Effect Ref}
    (hx : m.Constructing type receiver args location x) {found : Resolved}
    (hfound : m.types.lookupMethod type m.methods.new = .ok found)
    {name : Name} (hnative : found.entry.callable = .native ⟨name, 1, true, .numericNew⟩)
    (hlive : ∀ arg ∈ args, ∃ w, m.resolve arg = .ok w) :
    (m.source? args = none → ∃ k, ∀ n, m.run (n + 1) x = .fault m k) ∧
    (∀ number, m.source? args = some number →
      ∃ outcome, (∀ n, outcome.Same (m.run (n + 1) x)) ∧
        (type = .real → m.Delivers (.ok (.real number.toReal)) outcome) ∧
        (type ≠ .real → m.Delivers (.ok (.int number.whole)) outcome)) ∧
    (m.types.isSubtype type .integer = true → type ≠ .real) := by
  have hreg := hm.regular
  obtain ⟨hcall, v, hv, htype⟩ := hx.calls hfound
  obtain ⟨hgiven, hnone⟩ := newNumber_eq hv htype hlive
  have hsame : ∀ n, (m.run 0 (Effect.newNumber receiver args)).Same (m.run (n + 1) x) := by
    intro n
    have haccepts : (⟨name, 1, true, .numericNew⟩ : NativeFunction).accepts
        (receiver :: args).length = true := by simp [NativeFunction.accepts]
    rw [run_congr hcall, hnative]
    exact run_native haccepts hroom (.newNumber receiver args) n
  refine ⟨fun h => ?_, fun number h => ?_, ?_⟩
  · obtain ⟨k, hk⟩ := hnone h
    have hfault : m.run 0 (Effect.newNumber receiver args) = .fault m k := by
      rw [Machine.run, hk]
      rfl
    exact ⟨k, fun n => (hfault ▸ hsame n).eq_fault⟩
  · have hdelivers : m.Delivers (.ok (constructed type number))
        (m.run 0 (Effect.newNumber receiver args)) := by
      rw [run_congr (hgiven number h)]
      exact delivers_allocateOrRaise hreg.wellFormed (.ok (constructed type number)) 0
    refine ⟨_, hsame, fun hreal => ?_, fun hreal => ?_⟩
    · rwa [constructed, if_pos hreal] at hdelivers
    · rwa [constructed, if_neg hreal] at hdelivers
  · rintro hsub rfl
    rw [TypeTable.isSubtype_iff, hreg.tree.chain_builtin hreg.rooted (by decide) (by decide)] at hsub
    exact absurd hsub (by decide)

/-- After the session the type `Meters` is below Real, and `Meters(1.5)` makes an integer of what is
left of 1.5 without its fraction. -/
theorem numeric_constructor_meters :
    ∃ (m : Machine) (x : Double) (outcome : Outcome Ref), m.Arises ∧ x.bits = 0x3ff8000000000000 ∧
      m.types.isSubtype ⟨12⟩ .real = true ∧ m.resolve (.heap ⟨29, 0⟩) = .ok (.ofType ⟨12⟩) ∧
      m.resolve (.heap ⟨35, 0⟩) = .ok (.ofReal x) ∧
      outcome.Same (m.run 1 (Effect.callValue (.heap ⟨29, 0⟩) [.heap ⟨35, 0⟩] .builtin)) ∧
      m.Delivers (.ok (.int x.truncate)) outcome := by
  obtain ⟨m, harises, -, hunchanged, hcollected⟩ := exists_session
  have htyped := harises.regular.wellTyped
  obtain ⟨v, hv, htype⟩ := hcollected.meters.exists_resolve
  obtain rfl := htyped.eq_of_payload hv (Payload.type?_eq_some_iff.1 (beq_iff_eq.1 htype)) rfl
  obtain ⟨w, hw, hbits⟩ := hcollected.fraction.exists_resolve
  obtain ⟨x, hreal, hx⟩ := Option.map_eq_some_iff.1 (beq_iff_eq.1 hbits)
  obtain rfl := htyped.eq_of_payload hw (Payload.real?_eq_some_iff.1 hreal) rfl
  obtain ⟨found, hfound, hentry⟩ : ∃ found, m.types.lookupMethod ⟨12⟩ m.methods.new = .ok found ∧
      found.entry = ⟨.native ⟨m.methods.new, 1, true, .numericNew⟩, .builtin⟩ := by
    have hnew := hcollected.constructor
    cases hlookup : m.types.lookupMethod ⟨12⟩ m.methods.new with
    | error why =>
      rw [hlookup] at hnew
      cases hnew
    | ok found =>
      rw [hlookup] at hnew
      exact ⟨found, rfl, isNative_iff.1 hnew⟩
  have hsource : m.source? [.heap ⟨35, 0⟩] = some (.real x) := by
    rw [source?, hw]
    rfl
  obtain ⟨outcome, hsame, -, hwhole⟩ :=
    (numeric_constructor harises (hunchanged.room.mono (by decide)) (.call hv rfl) hfound
      (congrArg MethodEntry.callable hentry) (by simp [hw])).2.1 _ hsource
  exact ⟨m, x, outcome, harises, hx, hcollected.below, hv, hw, hsame 0, hwhole (by decide)⟩

end Machine

end ScriptMachine
