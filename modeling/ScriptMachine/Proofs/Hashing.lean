/-
# Hashing

The function `hash` asks the value for its method `hash`, and as long as no one replaced it that is one
method for all: numbers and texts are hashed by what they are, everything else by its handle.  Equality
is not the same throughout: types are equal if they describe the same type, whatever their handles.  So
equal values hash alike with that one exception.  Two values that describe one type are equal and
hashed by their handles.

* `Machine.GivesInteger`: a computation that comes to a new integer;
* `Machine.Regular.givesInteger_hash`: the function `hash`, on any value;
* `Machine.hash_of_same`: what values of the same key have for hashes;
* `Machine.hash_of_equals`: equality and hashes.
-/
import ScriptMachine.Proofs.Equality

namespace ScriptMachine

/-- The hash of a value that is hashed by its handle. -/
def Handle.hash (h : Handle) (digest : Digest) : Int64 :=
  digest.words [3, h.index.toUInt64, h.generation.toUInt64]

namespace Machine

variable {m : Machine} {a b : Ref} {v w : Value} {location : Location}

/-! ## 1. Computations that give an integer -/

/-- A new integer on the heap. -/
def Integral (i : Int64) (m : Machine) (r : Ref) : Prop :=
  ∃ h, r = .heap h ∧ m.heap.get? h = some (.ofInt i)

/-- A computation that comes to a new integer, with steps enough; unless all slots of the heap are in
use. -/
def GivesInteger (m : Machine) (x : Effect Ref) (i : Int64) : Prop :=
  ∃ needed outcome, (∀ extra, m.run (needed + extra) x = outcome) ∧
    outcome.Complete (m.heap.live + 1) (Integral i)

/-! ## 2. The function `hash` -/

/-- Only objects in general have a method `hash`. -/
theorem builtin?_hash (owner : TypeId) :
    NativeSpec.builtin? owner "hash" =
      if owner = .baseObject then some (.fixed "hash" 1 .objectHash) else none := by
  have hlisted : ∀ x ∈ NativeSpec.installed, x.2.name = "hash" → x.1 = .baseObject := by
    decide +kernel
  split
  · next howner =>
    subst howner
    decide +kernel
  · next howner =>
    refine NativeSpec.builtin?_eq_none ?_
    rintro x hinstalled hname rfl
    exact howner (hlisted x hinstalled hname)

/-- The method `hash` of a value. -/
theorem Regular.callMethod_hash (hm : m.Regular) (hstandard : ∀ type, m.Standard type "hash")
    (hv : m.resolve a = .ok v) :
    Effect.callMethod a m.methods.hash [] location m =
      Effect.call (.native ⟨m.methods.hash, 1, false, .objectHash⟩) [a] location m := by
  have hobject : (NativeSpec.builtin? .baseObject "hash").isSome = true := by
    rw [builtin?_hash, if_pos rfl]
    rfl
  obtain ⟨owner, spec, hfound, hspec, -⟩ :=
    hm.lookupMethod hm.spelled.hash hstandard hobject (hm.wellTyped.isSome_type hv)
  obtain rfl : .fixed "hash" 1 .objectHash = spec := by
    rw [builtin?_hash] at hspec
    split at hspec
    · exact Option.some.inj hspec
    · cases hspec
  rw [← methodType_of_ne v (hm.ne_new hm.spelled.hash (by decide))] at hfound
  exact callMethod_eq hv hfound

/-- The body of the method places the hash. -/
theorem completes_hashValue (hw : m.heap.WellFormed) (hv : m.resolve a = .ok v) :
    (Effect.hashValue a m).Completes (m.heap.live + 1) fun m' r =>
      m'.calls = m.calls ∧ Integral (Effect.hashOf m.digest a v) m' r := by
  rw [show Effect.hashValue a m = _ from bind_value hv _]
  refine (Effect.completes_allocate hw fun _ _ hfull => Nat.lt_succ_of_le hfull).imp ?_
  rintro m' - ⟨h, rfl, hallocates⟩
  refine ⟨?_, h, rfl, hallocates.get?_eq⟩
  rw [hallocates.spares.parts]

/-- **The function `hash`** gives the hash of any value. -/
theorem Regular.givesInteger_hash (hm : m.Regular) (hroom : m.calls.Admits 2)
    (hstandard : ∀ type, m.Standard type "hash") {f : Ref} {name : Name}
    (hf : m.resolve f = .ok (.ofBuiltin ⟨name, 1, false, .hash⟩)) (hv : m.resolve a = .ok v)
    (location : Location) :
    m.GivesInteger (Effect.callValue f [a] location) (Effect.hashOf m.digest a v) := by
  -- one frame for the function, and one on top of it for the method that it calls
  obtain ⟨calls, hpush, hroom'⟩ := hroom.exists_push ⟨name, location⟩
  obtain ⟨calls', hpush', -⟩ := hroom'.exists_push ⟨m.methods.hash, .builtin⟩
  let Given := fun (calls : CallStack) (m' : Machine) (r : Ref) =>
    m'.calls = calls ∧ Integral (Effect.hashOf m.digest a v) m' r
  have hreg : { m with calls }.Regular :=
    ⟨hm.wellFormed, hm.wellTyped.of_eq rfl rfl fun _ => rfl, hm.tree, hm.rooted, hm.spelled⟩
  have hbody : (Effect.hashValue a { m with calls := calls' }).Completes (m.heap.live + 1)
      (Given calls') :=
    completes_hashValue (m := { m with calls := calls' }) hm.wellFormed hv
  have hmethod : (Effect.callMethod a m.methods.hash [] .builtin { m with calls }).Completes
      (m.heap.live + 1) (Given calls) := by
    rw [hreg.callMethod_hash hstandard hv]
    exact Effect.completes_native rfl hpush' hbody fun m' r h => ⟨h.1, rfl, h.2⟩
  have hfunction : (Effect.call (.native ⟨name, 1, false, .hash⟩) [a] location m).Completes
      (m.heap.live + 1) (Integral (Effect.hashOf m.digest a v)) :=
    Effect.completes_native rfl hpush hmethod fun m' r h => ⟨h.1, h.2⟩
  have hcall : Effect.callValue f [a] location m =
      Effect.call (.native ⟨name, 1, false, .hash⟩) [a] location m :=
    bind_value hf _
  exact run_of_completes (hcall ▸ hfunction)

/-! ## 3. Equality and hashes -/

/-- The hash of what a reference resolves to. -/
def hash (m : Machine) (r : Ref) : Int64 :=
  match m.resolve r with
  | .ok v => Effect.hashOf m.digest r v
  | .error _ => 0

theorem hash_eq (hv : m.resolve a = .ok v) : m.hash a = Effect.hashOf m.digest a v := by
  rw [hash, hv]

/-- **Values of the same key** have the same hash, unless they describe the same type. -/
theorem hash_of_same (hv : m.resolve a = .ok v) (hw : m.resolve b = .ok w)
    (hsame : m.same a b = true) (digest : Digest) :
    Effect.hashOf digest a v = Effect.hashOf digest b w ∨
      ∃ type, v.payload = .type type ∧ w.payload = .type type ∧ a ≠ b := by
  by_cases hab : a = b
  · subst hab
    obtain rfl : v = w := Except.ok.inj (hv.symm.trans hw)
    exact .inl rfl
  obtain ⟨hinteger, htext, hdescribed, hitself⟩ := key?_eq_some_iff m.types w b
  cases hkey : v.key? m.types a with
  | none =>
    rw [same_eq hv hw, hkey] at hsame
    cases hsame
  | some k =>
    rw [same_iff hv hw hkey] at hsame
    have hleft := key?_eq_some_iff m.types v a
    cases k with
    | integer i =>
      rw [hleft.1] at hkey
      rw [hinteger] at hsame
      refine .inl ?_
      simp only [Effect.hashOf, hkey, hsame]
    | text s =>
      rw [hleft.2.1] at hkey
      rw [htext] at hsame
      refine .inl ?_
      simp only [Effect.hashOf, hkey, hsame]
    | described t => exact .inr ⟨t, (hleft.2.2.1 t).1 hkey, (hdescribed t).1 hsame, hab⟩
    | itself r => exact absurd ((hleft.2.2.2 r hkey).symm.trans (hitself r hsame)) hab

/-- A reference to a value that describes a type is a handle. -/
theorem WellTyped.exists_ofType (hm : m.WellTyped) (hv : m.resolve a = .ok v) {type : TypeId}
    (htype : v.payload = .type type) : ∃ h, a = .heap h ∧ v = .ofType type := by
  obtain rfl := hm.eq_of_payload hv htype rfl
  cases a with
  | nil => cases hv
  | bool b => cases hv
  | heap h => exact ⟨h, rfl, rfl⟩

/-- **Equal values hash alike**, except for types.  On every machine that comes about, where no method
of `==` or `hash` was replaced or added and there is room for two more calls, the function `hash` gives
an integer for every value.  If `==` says true of two values that are not reals, these integers are the
same, unless the two are different values that describe the same type.  Of those `==` says true as
well, while each integer is the digest of the value's own handle.  All of this is so for every digest
that the machine may have. -/
theorem hash_of_equals (hm : m.Arises) (hroom : m.calls.Admits 2)
    (hstandard : ∀ type, m.Standard type "eq" ∧ m.Standard type "hash") {f : Ref} {name : Name}
    (hf : m.resolve f = .ok (.ofBuiltin ⟨name, 1, false, .hash⟩)) (location : Location) :
    ∃ hash : Ref → Int64,
      (∀ a v, m.resolve a = .ok v → m.GivesInteger (Effect.callValue f [a] location) (hash a)) ∧
      (∀ a b v w n m', m.resolve a = .ok v → m.resolve b = .ok w → v.payload.real? = none →
        w.payload.real? = none →
        m.run (n + 1) (Effect.binaryOp .eq a b location) = .value m' (.bool true) →
        hash a = hash b ∨ ∃ type h h', a = .heap h ∧ b = .heap h' ∧ h ≠ h' ∧
          v = .ofType type ∧ w = .ofType type) ∧
      ∀ type h h', m.resolve (.heap h) = .ok (.ofType type) →
        m.resolve (.heap h') = .ok (.ofType type) →
        (∀ n, m.run (n + 1) (Effect.binaryOp .eq (.heap h) (.heap h') location) =
          .value m (.bool true)) ∧ hash (.heap h) = h.hash m.digest := by
  have hreg := hm.regular
  have hone : m.calls.Admits 1 := hroom.mono (by decide)
  have heq := fun type => (hstandard type).1
  refine ⟨m.hash, fun a v hv => ?_, fun a b v w n m' hv hw hvreal hwreal htrue => ?_,
    fun type h h' hv hw => ⟨fun n => ?_, hash_eq hv⟩⟩
  · rw [hash_eq hv]
    exact hreg.givesInteger_hash hroom (fun type => (hstandard type).2) hf hv location
  · rw [hreg.run_eq hone heq hv hw hvreal hwreal] at htrue
    have hsame : m.same a b = true := Ref.bool.inj (Outcome.value.inj htrue).2
    rw [hash_eq hv, hash_eq hw]
    rcases hash_of_same hv hw hsame m.digest with halike | ⟨type, hvtype, hwtype, hne⟩
    · exact .inl halike
    · obtain ⟨h, rfl, rfl⟩ := hreg.wellTyped.exists_ofType hv hvtype
      obtain ⟨h', rfl, rfl⟩ := hreg.wellTyped.exists_ofType hw hwtype
      exact .inr ⟨type, h, h', rfl, rfl, fun heq => hne (congrArg Ref.heap heq), rfl, rfl⟩
  · rw [hreg.run_eq hone heq hv hw rfl rfl n location, (same_iff hv hw rfl).2 rfl]

/-- After the session `Integer` and `type(1)` are equal, and the hashes that the function `hash` gives
for them are different. -/
theorem hash_of_equals_types :
    ∃ m : Machine, m.Arises ∧
      m.run 1 (Effect.binaryOp .eq (.heap ⟨3, 0⟩) (.heap ⟨34, 0⟩) .builtin) =
        .value m (.bool true) ∧
      m.GivesInteger (Effect.callValue (.heap ⟨15, 0⟩) [.heap ⟨3, 0⟩] .builtin)
        (Handle.hash ⟨3, 0⟩ .standard) ∧
      m.GivesInteger (Effect.callValue (.heap ⟨15, 0⟩) [.heap ⟨34, 0⟩] .builtin)
        (Handle.hash ⟨34, 0⟩ .standard) ∧
      Handle.hash ⟨3, 0⟩ .standard ≠ Handle.hash ⟨34, 0⟩ .standard := by
  obtain ⟨m, harises, hstandard, hunchanged, hcollected⟩ := exists_session
  have htyped := harises.regular.wellTyped
  have hdescribes : ∀ {r : Ref}, (m.Shows r fun v => v.payload.type? == some .integer) →
      m.resolve r = .ok (.ofType .integer) := by
    intro r hr
    obtain ⟨v, hv, htype⟩ := hr.exists_resolve
    obtain rfl :=
      htyped.eq_of_payload hv (Payload.type?_eq_some_iff.1 (beq_iff_eq.1 htype)) rfl
    exact hv
  obtain ⟨name, hf⟩ : ∃ name, m.resolve (.heap ⟨15, 0⟩) =
      .ok (.ofBuiltin ⟨name, 1, false, .hash⟩) := by
    obtain ⟨v, hv, hbuiltin⟩ := hcollected.hash.exists_resolve
    have hpayload : v.payload = .builtin ⟨⟨28⟩, 1, false, .hash⟩ := by
      revert hbuiltin
      split
      · exact fun _ => ‹_›
      · nofun
    obtain rfl := htyped.eq_of_payload hv hpayload rfl
    exact ⟨_, hv⟩
  obtain ⟨hash, hgives, -, htypes⟩ :=
    hash_of_equals harises hunchanged.room (fun type =>
      ⟨hunchanged.standard harises (by simp) type, hunchanged.standard harises (by simp) type⟩)
      hf .builtin
  have hleft := hdescribes hcollected.integer
  have hright := hdescribes hcollected.typeOfOne
  obtain ⟨heq, hhash⟩ := htypes _ _ _ hleft hright
  obtain ⟨-, hhash'⟩ := htypes _ _ _ hright hleft
  rw [hstandard] at hhash hhash'
  exact ⟨m, harises, heq 0, hhash ▸ hgives _ _ hleft, hhash' ▸ hgives _ _ hright, by decide⟩

end Machine

end ScriptMachine
