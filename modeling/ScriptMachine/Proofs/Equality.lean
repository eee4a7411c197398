/-
# Equality

`==` and `!=` are methods of the left operand, apart from numbers, and there are several of them:
integers, texts and types are compared by what they hold, everything else is compared by identity.
What a value is compared by is its key, and `==` tells whether two keys are the same, whichever method
it came to.  So it is symmetric and transitive across all kinds of values, and `!=` is its negation.

An instance inherits the equality of the nearest ancestor.  If that is the one of numbers, texts or
types, the instance is none of those, has no key, and is equal to nothing, not even to itself.

Reals are left out: they are compared up to a tolerance, which is not transitive.

* `Machine.key?`, `Machine.same`: keys, and what it is to have the same;
* `Machine.run_equality`: `==` and `!=` on any two values that are not reals;
* `Machine.equality_of_values`: the laws of equality, and what has no part in them.
-/
import ScriptMachine.Proofs.OperatorMethods

namespace ScriptMachine

/-! ## 1. Keys -/

/-- What a value is compared by. -/
inductive Key where
  | integer (value : Int64)
  | text (value : String)
  | described (type : TypeId)
  | itself (r : Ref)
deriving DecidableEq

/-- The types whose values are compared by what they hold. -/
def contentTypes : List TypeId := [.integer, .real, .string, .type]

/-- An instance of a type that derives from one of those: it inherits a comparison that is not for
instances. -/
def Value.Misfit (types : TypeTable) (v : Value) : Prop :=
  v.payload matches .fields _ ∧ ∃ type ∈ contentTypes, types.isSubtype v.type type = true

instance (types : TypeTable) (v : Value) : Decidable (v.Misfit types) :=
  inferInstanceAs (Decidable (_ ∧ _))

/-- The key of a value behind a reference. -/
def Value.key? (types : TypeTable) (r : Ref) (v : Value) : Option Key :=
  match v.payload with
  | .int i => some (.integer i)
  | .real _ => none
  | .str s => some (.text s)
  | .type described => some (.described described)
  | .nil | .bool _ | .vector _ | .function _ | .builtin _ | .moduleNamed _ | .fields _ =>
    if v.Misfit types then none else some (.itself r)

namespace Machine

variable {m : Machine} {a b c : Ref} {v w : Value}

/-- The key of what a reference resolves to. -/
def key? (m : Machine) (r : Ref) : Option Key :=
  match m.resolve r with
  | .ok v => v.key? m.types r
  | .error _ => none

/-- Whether two references have the same key. -/
def same (m : Machine) (a b : Ref) : Bool := (m.key? a).isSome && m.key? a == m.key? b

theorem key?_eq (hv : m.resolve a = .ok v) : m.key? a = v.key? m.types a := by
  rw [key?, hv]

theorem same_eq (hv : m.resolve a = .ok v) (hw : m.resolve b = .ok w) :
    m.same a b = ((v.key? m.types a).isSome && v.key? m.types a == w.key? m.types b) := by
  rw [same, key?_eq hv, key?_eq hw]

theorem same_comm (m : Machine) (a b : Ref) : m.same a b = m.same b a := by
  unfold same
  cases m.key? a <;> cases m.key? b <;> simp [eq_comm]

theorem same_trans (hab : m.same a b = true) (hbc : m.same b c = true) : m.same a c = true := by
  simp only [same, Bool.and_eq_true, beq_iff_eq] at hab hbc ⊢
  exact ⟨hab.1, hab.2.trans hbc.2⟩

/-- A value has a key unless it is a real or an instance that inherits the wrong comparison. -/
theorem same_self (hv : m.resolve a = .ok v) (hreal : v.payload.real? = none) :
    m.same a a = true ↔ ¬ v.Misfit m.types := by
  rw [same_eq hv hv, beq_self_eq_true, Bool.and_true]
  obtain ⟨type, payload⟩ := v
  cases payload with
  | real x => cases hreal
  | int i => simp [Value.key?, Value.Misfit]
  | str s => simp [Value.key?, Value.Misfit]
  | type t => simp [Value.key?, Value.Misfit]
  | _ =>
    unfold Value.key?
    simp

/-! ## 2. The methods -/

/-- The method of `==`, or of `!=` if `sense` is false. -/
def equalityText (sense : Bool) : String := if sense then "eq" else "ne"

/-- The operator `==`, or `!=` if `sense` is false. -/
def equalityOp (sense : Bool) : BinaryOp := if sense then .eq else .ne

/-- The body of the method that the tables list for a type. -/
def equalityBody (sense : Bool) (owner : TypeId) : Procedure :=
  if owner = .integer ∨ owner = .real then .numeric (equalityOp sense)
  else if owner = .string then .textCompare (if sense then .eq else .ne)
  else if owner = .type then (if sense then .typeEq else .typeNe)
  else (if sense then .objectEq else .objectNe)

/-- What the method of a type says of two values that are not both numbers. -/
def compared (owner : TypeId) (a b : Ref) (v w : Value) : Bool :=
  if owner = .integer ∨ owner = .real then false
  else if owner = .string then v.payload.str?.isSome && v.payload.str? == w.payload.str?
  else if owner = .type then v.payload.type?.isSome && v.payload.type? == w.payload.type?
  else a == b

/-- The tables list these methods, for objects and for the types with a comparison of their own. -/
theorem builtin?_equality (sense : Bool) (owner : TypeId) :
    NativeSpec.builtin? owner (equalityText sense) =
      if owner ∈ TypeId.baseObject :: contentTypes then
        some (.fixed (equalityText sense) 2 (equalityBody sense owner))
      else none := by
  have hlisted : ∀ sense, ∀ x ∈ NativeSpec.installed, x.2.name = equalityText sense →
      x.1 ∈ TypeId.baseObject :: contentTypes := by decide +kernel
  have hfound : ∀ sense, ∀ owner ∈ TypeId.baseObject :: contentTypes,
      NativeSpec.builtin? owner (equalityText sense) =
        some (.fixed (equalityText sense) 2 (equalityBody sense owner)) := by decide +kernel
  split
  · next hmem => exact hfound sense owner hmem
  · next hmem =>
    refine NativeSpec.builtin?_eq_none ?_
    rintro x hinstalled hname rfl
    exact hmem (hlisted sense x hinstalled hname)

theorem equalityBody_plain (sense : Bool) (owner : TypeId) (a b : Ref) :
    ((equalityBody sense owner).run [a, b]).Plain := by
  unfold equalityBody
  split
  · exact .numericMethod _ a b
  · split
    · exact .textMethod _ a b
    · split
      · cases sense with
        | true => exact .bind (.sameType a b) fun _ => .pure _
        | false => exact .bind (.sameType a b) fun _ => .pure _
      · cases sense with
        | true => exact .pure _
        | false => exact .pure _

theorem numericMethod_mismatch (op : BinaryOp) (hv : m.resolve a = .ok v) (hw : m.resolve b = .ok w)
    (hnumbers : v.payload.number? = none ∨ w.payload.number? = none) :
    Effect.numericMethod op a b m = .done m (Effect.mismatch op) := by
  refine (bind_value hv _).trans ((bind_value hw _).trans ?_)
  rcases hnumbers with hnone | hnone
  · rw [hnone]
    rfl
  · rw [hnone]
    cases v.payload.number? with
    | none => rfl
    | some x => rfl

theorem textPair_eq (hv : m.resolve a = .ok v) (hw : m.resolve b = .ok w) :
    Effect.textPair a b m =
      .done m (v.payload.str?.bind fun s => w.payload.str?.map fun t => (s, t)) := by
  refine (bind_value hv _).trans ?_
  cases v.payload.str? with
  | none => rfl
  | some s => exact bind_value hw _

theorem sameType_eq (hv : m.resolve a = .ok v) (hw : m.resolve b = .ok w) :
    Effect.sameType a b m =
      .done m (v.payload.type?.isSome && v.payload.type? == w.payload.type?) := by
  refine (bind_value hv _).trans ?_
  cases v.payload.type? with
  | none => rfl
  | some type =>
    rw [Option.isSome_some, Bool.true_and, BEq.comm]
    exact bind_value hw _

/-- **What the body says** of two values that are not both numbers. -/
theorem equalityBody_eq (sense : Bool) (owner : TypeId) (hv : m.resolve a = .ok v)
    (hw : m.resolve b = .ok w) (hnumbers : v.payload.number? = none ∨ w.payload.number? = none) :
    (equalityBody sense owner).run [a, b] m =
      .done m (.bool (compared owner a b v w == sense)) := by
  unfold equalityBody compared
  split
  · show Effect.numericMethod _ a b m = _
    rw [numericMethod_mismatch _ hv hw hnumbers]
    cases sense <;> rfl
  · split
    · show Step.bind (Effect.textPair a b m) _ = _
      rw [textPair_eq hv hw]
      cases v.payload.str? with
      | none => cases sense <;> rfl
      | some s =>
        cases w.payload.str? with
        | none => cases sense <;> rfl
        | some t => cases sense <;> simp [Step.bind, Effect.compareTexts] <;> rfl
    · split
      · cases sense with
        | true =>
          show Step.bind (Effect.sameType a b m) _ = _
          rw [sameType_eq hv hw, beq_true]
          rfl
        | false =>
          show Step.bind (Effect.sameType a b m) _ = _
          rw [sameType_eq hv hw, beq_false]
          rfl
      · cases sense with
        | true =>
          rw [beq_true]
          rfl
        | false =>
          rw [beq_false]
          rfl

/-! ## 3. The method that is found -/

variable {sense : Bool} {owner : TypeId}

/-- The method of a type is that of the nearest ancestor with a comparison of its own, or that of
every object. -/
structure Nearest (m : Machine) (type owner : TypeId) : Prop where
  mem_chain : owner ∈ m.types.chain type
  listed : owner ∈ TypeId.baseObject :: contentTypes
  nearest : ∀ x ∈ m.types.chain type, x ∈ contentTypes → x.index ≤ owner.index

theorem Regular.exists_nearest (hm : m.Regular)
    (hstandard : ∀ type, m.Standard type (equalityText sense)) {name : Name}
    (hname : m.names.get? (equalityText sense) = some name) {type : TypeId}
    (htype : (m.types.get? type).isSome = true) :
    ∃ owner, m.Nearest type owner ∧ m.types.lookupMethod type name =
      .ok ⟨owner, (NativeSpec.fixed (equalityText sense) 2 (equalityBody sense owner)).entry name⟩ := by
  have hobject : (NativeSpec.builtin? .baseObject (equalityText sense)).isSome = true := by
    rw [builtin?_equality, if_pos List.mem_cons_self]
    rfl
  obtain ⟨owner, spec, hfound, hspec, hchain, hnearest⟩ :=
    hm.lookupMethod hname hstandard hobject htype
  rw [builtin?_equality] at hspec
  split at hspec
  · next hlisted =>
    obtain rfl := Option.some.inj hspec
    refine ⟨owner, ⟨hchain, hlisted, fun x hx hcontent => hnearest x hx ?_⟩, hfound⟩
    rw [builtin?_equality, if_pos (List.mem_cons_of_mem _ hcontent)]
    rfl
  · cases hspec

/-- The nearest ancestor of a built-in type is the type itself, if it has a comparison of its own. -/
theorem Nearest.eq_of_home (h : m.Nearest v.type owner) (hm : m.Regular)
    (hv : m.resolve a = .ok v) {type : TypeId} (hhome : v.payload.home? = some type) :
    owner = if type ∈ contentTypes then type else .baseObject := by
  obtain rfl := hm.wellTyped.type_of_home hv hhome
  have hbuiltin : v.type.index ≤ TypeTable.builtins.length ∧ v.type ≠ .baseObject := by
    generalize v.type = type at hhome
    cases hpayload : v.payload <;> rw [hpayload] at hhome <;> cases hhome <;> decide
  have hchain := hm.tree.chain_builtin hm.rooted hbuiltin.1 hbuiltin.2
  have howner := h.mem_chain
  rw [hchain] at howner
  split
  · next hcontent =>
    have hle := h.nearest v.type (by simp [hchain]) hcontent
    rcases List.mem_cons.1 howner with rfl | hbase
    · rfl
    · obtain rfl := List.mem_singleton.1 hbase
      exact absurd (congrArg TypeId.mk (Nat.le_zero.1 hle)) hbuiltin.2
  · next hcontent =>
    rcases List.mem_cons.1 howner with rfl | hbase
    · exact absurd h.listed (by simp [hbuiltin.2, hcontent])
    · exact List.mem_singleton.1 hbase

/-- The nearest ancestor of an instance is the root, unless it inherits the wrong comparison. -/
theorem Nearest.eq_of_fields (h : m.Nearest v.type owner) {slots : Array Ref}
    (hfields : v.payload = .fields slots) :
    if v.Misfit m.types then owner ∈ contentTypes else owner = .baseObject := by
  have hmisfit : v.Misfit m.types ↔ ∃ type ∈ contentTypes, type ∈ m.types.chain v.type := by
    simp only [Value.Misfit, hfields, true_and, TypeTable.isSubtype_iff]
  rcases List.mem_cons.1 h.listed with rfl | hcontent
  · rw [if_neg]
    rw [hmisfit]
    rintro ⟨type, hcontent, hchain⟩
    have hle := h.nearest type hchain hcontent
    have hpos : ∀ type ∈ contentTypes, 0 < type.index := by decide
    exact absurd hle (Nat.not_le.2 (hpos type hcontent))
  · rw [if_pos (hmisfit.2 ⟨owner, hcontent, h.mem_chain⟩)]
    exact hcontent

/-! ## 4. Keys and methods -/

/-- Keys tell what they are the keys of. -/
theorem key?_eq_some_iff (types : TypeTable) (w : Value) (b : Ref) :
    (∀ i, w.key? types b = some (.integer i) ↔ w.payload = .int i) ∧
    (∀ s, w.key? types b = some (.text s) ↔ w.payload = .str s) ∧
    (∀ t, w.key? types b = some (.described t) ↔ w.payload = .type t) ∧
    ∀ r, w.key? types b = some (.itself r) → r = b := by
  obtain ⟨type, payload⟩ := w
  cases payload with
  | int i => simp [Value.key?]
  | real x => simp [Value.key?]
  | str s => simp [Value.key?]
  | type t => simp [Value.key?]
  | _ =>
    unfold Value.key?
    split <;> simp_all

/-- What has the same key as a value that has one. -/
theorem same_iff (hv : m.resolve a = .ok v) (hw : m.resolve b = .ok w) {k : Key}
    (hkey : v.key? m.types a = some k) : m.same a b = true ↔ w.key? m.types b = some k := by
  rw [same_eq hv hw, hkey, Option.isSome_some, Bool.true_and, beq_iff_eq]
  exact eq_comm

/-- A value that is its own key is the same as itself only. -/
theorem same_of_itself (hv : m.resolve a = .ok v) (hw : m.resolve b = .ok w)
    (hkey : v.key? m.types a = some (.itself a)) : m.same a b = (a == b) := by
  rw [Bool.eq_iff_iff, same_iff hv hw hkey, beq_iff_eq]
  refine ⟨(key?_eq_some_iff m.types w b).2.2.2 a, ?_⟩
  rintro rfl
  obtain rfl : v = w := Except.ok.inj (hv.symm.trans hw)
  exact hkey

/-- **Every method compares keys**: what the method of the left value says is whether the two keys are
the same. -/
theorem compared_eq_same (hm : m.Regular) (h : m.Nearest v.type owner) (hv : m.resolve a = .ok v)
    (hw : m.resolve b = .ok w) (hreal : v.payload.real? = none)
    (hnumbers : v.payload.number? = none ∨ w.payload.number? = none) :
    compared owner a b v w = m.same a b := by
  have hhome : ∀ type, v.payload.home? = some type →
      owner = if type ∈ contentTypes then type else .baseObject := fun _ => h.eq_of_home hm hv
  obtain ⟨hinteger, htext, hdescribed, -⟩ := key?_eq_some_iff m.types w b
  cases hpayload : v.payload with
  | real x =>
    rw [hpayload] at hreal
    cases hreal
  | int i =>
    rw [hpayload] at hhome hnumbers
    have hkey : v.key? m.types a = some (.integer i) := by rw [Value.key?, hpayload]
    -- two integers do not come to a method
    have hne : ¬ m.same a b = true := by
      rw [same_iff hv hw hkey, hinteger]
      intro hint
      rw [hint] at hnumbers
      rcases hnumbers with hnone | hnone
      · cases hnone
      · cases hnone
    rw [hhome _ rfl, Bool.eq_false_iff.2 hne]
    rfl
  | str s =>
    rw [hpayload] at hhome
    have hkey : v.key? m.types a = some (.text s) := by rw [Value.key?, hpayload]
    rw [hhome _ rfl, Bool.eq_iff_iff, same_iff hv hw hkey, htext]
    show (v.payload.str?.isSome && v.payload.str? == w.payload.str?) = true ↔ _
    rw [hpayload, Payload.str?, Option.isSome_some, Bool.true_and, beq_iff_eq, eq_comm,
      Payload.str?_eq_some_iff]
  | type t =>
    rw [hpayload] at hhome
    have hkey : v.key? m.types a = some (.described t) := by rw [Value.key?, hpayload]
    rw [hhome _ rfl, Bool.eq_iff_iff, same_iff hv hw hkey, hdescribed]
    show (v.payload.type?.isSome && v.payload.type? == w.payload.type?) = true ↔ _
    rw [hpayload, Payload.type?, Option.isSome_some, Bool.true_and, beq_iff_eq, eq_comm,
      Payload.type?_eq_some_iff]
  | fields slots =>
    have howner := h.eq_of_fields hpayload
    split at howner
    · next hmisfit =>
      have hkey : v.key? m.types a = none := by
        rw [Value.key?, hpayload]
        exact if_pos hmisfit
      have hcontent : ∀ owner ∈ contentTypes, compared owner a b v w = false := by
        simp [contentTypes, compared, hpayload, Payload.str?, Payload.type?]
      rw [hcontent owner howner, same_eq hv hw, hkey]
      rfl
    · next hmisfit =>
      rw [howner]
      refine (same_of_itself hv hw ?_).symm
      rw [Value.key?, hpayload]
      exact if_neg hmisfit
  | _ =>
    rw [hpayload] at hhome
    rw [hhome _ rfl]
    refine (same_of_itself hv hw ?_).symm
    simp [Value.key?, hpayload, Value.Misfit]

/-! ## 5. The operators -/

variable {location : Location}

/-- An operator on values that are not both numbers is a method of the left one. -/
theorem binaryOp_eq_callMethod {op : BinaryOp} {name : Name} (hname : m.methods.binary? op = some name)
    (hv : m.resolve a = .ok v) (hw : m.resolve b = .ok w)
    (hnumbers : v.payload.number? = none ∨ w.payload.number? = none) :
    Effect.binaryOp op a b location m = Effect.callMethod a name [b] location m := by
  have hmethod : Effect.binaryMethod op a b location m = Effect.callMethod a name [b] location m := by
    simp only [Effect.binaryMethod, bind, Effect.bind, Effect.read, Step.bind, hname]
  refine (bind_value hv _).trans ((bind_value hw _).trans ?_)
  rcases hnumbers with hnone | hnone
  · rw [hnone]
    exact hmethod
  · rw [hnone]
    cases v.payload.number? with
    | none => exact hmethod
    | some x => exact hmethod

/-- Two integers are compared at once. -/
theorem run_equality_integers {i j : Int64} (hv : m.resolve a = .ok v) (hw : m.resolve b = .ok w)
    (hi : v.payload = .int i) (hj : w.payload = .int j) (n : Nat) :
    m.run n (Effect.binaryOp (equalityOp sense) a b location) =
      .value m (.bool (m.same a b == sense)) := by
  have hfast : Effect.binaryOp (equalityOp sense) a b location m =
      Effect.allocateOrRaise (Number.evalBinary (equalityOp sense) (.int i) (.int j)) m :=
    binaryOp_eq _ hv hw (congrArg Payload.number? hi) (congrArg Payload.number? hj)
  have hsame : m.same a b = (i == j) := by
    have hkey : v.key? m.types a = some (.integer i) := by rw [Value.key?, hi]
    rw [Bool.eq_iff_iff, same_iff hv hw hkey, (key?_eq_some_iff m.types w b).1, hj, beq_iff_eq,
      Payload.int.injEq]
    exact eq_comm
  rw [run_congr hfast, hsame]
  cases sense with
  | true =>
    rw [beq_true]
    rfl
  | false =>
    rw [beq_false]
    rfl

/-- **`==` and `!=`** on any two values that are not reals. -/
theorem Regular.run_equality (hm : m.Regular) (hroom : m.calls.Admits 1) (sense : Bool)
    (hstandard : ∀ type, m.Standard type (equalityText sense)) (hv : m.resolve a = .ok v)
    (hw : m.resolve b = .ok w) (hvreal : v.payload.real? = none) (hwreal : w.payload.real? = none)
    (n : Nat) (location : Location) :
    m.run (n + 1) (Effect.binaryOp (equalityOp sense) a b location) =
      .value m (.bool (m.same a b == sense)) := by
  by_cases hnumbers : v.payload.number? = none ∨ w.payload.number? = none
  · obtain ⟨name, hbinary, hname⟩ : ∃ name, m.methods.binary? (equalityOp sense) = some name ∧
        m.names.get? (equalityText sense) = some name :=
      hm.spelled.binary _ _ (by cases sense <;> rfl)
    have hnew := hm.ne_new hname (by cases sense <;> decide)
    obtain ⟨owner, hnearest, hfound⟩ :=
      hm.exists_nearest hstandard hname (hm.wellTyped.isSome_type hv)
    rw [← methodType_of_ne v hnew] at hfound
    have hsame : (m.run 0 ((equalityBody sense owner).run [a, b])).Same
        (m.run (n + 1) (Effect.callMethod a name [b] location)) :=
      run_callMethod hv hfound rfl hroom (equalityBody_plain sense owner a b) n
    have hbody : m.run 0 ((equalityBody sense owner).run [a, b]) =
        .value m (.bool (m.same a b == sense)) := by
      rw [Machine.run, equalityBody_eq sense owner hv hw hnumbers,
        compared_eq_same hm hnearest hv hw hvreal hnumbers]
      rfl
    rw [run_congr (binaryOp_eq_callMethod hbinary hv hw hnumbers)]
    exact (hbody ▸ hsame).eq_value
  · -- both are numbers, and no reals
    have hint : ∀ p : Payload, p.real? = none → p.number? ≠ none → ∃ i, p = .int i := by
      intro p hreal hnumber
      cases p with
      | int i => exact ⟨i, rfl⟩
      | real x => cases hreal
      | _ => exact absurd rfl hnumber
    rw [not_or] at hnumbers
    obtain ⟨i, hi⟩ := hint v.payload hvreal hnumbers.1
    obtain ⟨j, hj⟩ := hint w.payload hwreal hnumbers.2
    exact run_equality_integers hv hw hi hj (n + 1)

theorem Regular.run_eq (hm : m.Regular) (hroom : m.calls.Admits 1)
    (hstandard : ∀ type, m.Standard type "eq") (hv : m.resolve a = .ok v) (hw : m.resolve b = .ok w)
    (hvreal : v.payload.real? = none) (hwreal : w.payload.real? = none) (n : Nat)
    (location : Location) :
    m.run (n + 1) (Effect.binaryOp .eq a b location) = .value m (.bool (m.same a b)) := by
  have hrun := hm.run_equality hroom true hstandard hv hw hvreal hwreal n location
  rwa [beq_true] at hrun

theorem Regular.run_ne (hm : m.Regular) (hroom : m.calls.Admits 1)
    (hstandard : ∀ type, m.Standard type "ne") (hv : m.resolve a = .ok v) (hw : m.resolve b = .ok w)
    (hvreal : v.payload.real? = none) (hwreal : w.payload.real? = none) (n : Nat)
    (location : Location) :
    m.run (n + 1) (Effect.binaryOp .ne a b location) = .value m (.bool !m.same a b) := by
  have hrun := hm.run_equality hroom false hstandard hv hw hvreal hwreal n location
  rwa [beq_false] at hrun

/-- **Equality across all kinds of values.**  On every machine that comes about, where no method of
`==` or `!=` was replaced or added and there is room for one more call, let there be any values but
reals, of any kinds.  Then `==` gives true or false and `!=` the opposite, neither of them faults, and
the machine stays as it is.  What `==` says is symmetric and transitive.  A value is equal to itself,
unless it is an instance of a type that derives from Integer, Real, String or Type: it inherits a
comparison that is not for instances, and `==` says false. -/
theorem equality_of_values (hm : m.Arises) (hroom : m.calls.Admits 1)
    (hstandard : ∀ type, m.Standard type "eq" ∧ m.Standard type "ne") :
    ∃ same : Ref → Ref → Bool,
      (∀ a b v w, m.resolve a = .ok v → m.resolve b = .ok w → v.payload.real? = none →
        w.payload.real? = none → ∀ n location,
        m.run (n + 1) (Effect.binaryOp .eq a b location) = .value m (.bool (same a b)) ∧
        m.run (n + 1) (Effect.binaryOp .ne a b location) = .value m (.bool !same a b)) ∧
      (∀ a v, m.resolve a = .ok v → v.payload.real? = none →
        (same a a = true ↔ ¬ v.Misfit m.types)) ∧
      (∀ a b, same a b = same b a) ∧
      ∀ a b c, same a b = true → same b c = true → same a c = true := by
  have hreg := hm.regular
  refine ⟨m.same, fun a b v w hv hw hvreal hwreal n location => ⟨?_, ?_⟩,
    fun a v hv hreal => same_self hv hreal, m.same_comm, fun a b c => same_trans⟩
  · exact hreg.run_eq hroom (fun type => (hstandard type).1) hv hw hvreal hwreal n location
  · exact hreg.run_ne hroom (fun type => (hstandard type).2) hv hw hvreal hwreal n location

/-- After the session the instance of `Kind`, a type below Type, is not equal to itself. -/
theorem equality_of_values_kind :
    ∃ m : Machine, m.Arises ∧
      m.run 1 (Effect.binaryOp .eq (.heap ⟨32, 0⟩) (.heap ⟨32, 0⟩) .builtin) =
        .value m (.bool false) := by
  obtain ⟨m, harises, -, hunchanged, hcollected⟩ := exists_session
  obtain ⟨v, hv, hinstance⟩ := hcollected.kind.exists_resolve
  rw [Bool.and_eq_true] at hinstance
  obtain ⟨same, hoperators, hself, -⟩ :=
    equality_of_values harises (hunchanged.room.mono (by decide)) fun type =>
      ⟨hunchanged.standard harises (by simp) type, hunchanged.standard harises (by simp) type⟩
  have hreal : v.payload.real? = none := by
    cases hpayload : v.payload with
    | fields slots => rfl
    | _ => simp [hpayload] at hinstance
  have hmisfit : v.Misfit m.types := ⟨hinstance.1, .type, by decide, hinstance.2⟩
  have hfalse : same (.heap ⟨32, 0⟩) (.heap ⟨32, 0⟩) = false :=
    Bool.eq_false_iff.2 fun htrue => (hself _ v hv hreal).1 htrue hmisfit
  refine ⟨m, harises, ?_⟩
  rw [(hoperators _ _ v v hv hv hreal hreal 0 .builtin).1, hfalse]

end Machine

end ScriptMachine
