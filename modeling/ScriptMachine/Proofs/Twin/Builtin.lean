/-
# Calls, renderings and native bodies side by side

Each definition that a native body or a call is made of agrees with itself, on arguments that are
kept.  The proofs follow the definitions: one rule of agreement for each line.

A few natives show what the two machines need not share: the report and the size of the heap, the
number of values that a collection frees, the switch of the collector, and the hash of a handle.
`Procedure.isQuiet` excludes their use; in an exact world there is no need to.

* `Effect.Agree.run`: every native body agrees with itself, if it is quiet or the world is exact.
-/
import ScriptMachine.Machine.Builtin.Procedure
import ScriptMachine.Proofs.Twin.Copy

namespace ScriptMachine

/-! ## 1. Quiet procedures -/

/-- A payload that is hashed by what it is, and not by its handle. -/
def Payload.isScalar : Payload → Bool
  | .nil | .bool _ | .int _ | .real _ | .str _ => true
  | _ => false

/-- Whether a native body shows nothing of the heap but the values on it.  The report of the heap, the
number of live values, the number that a collection frees, the switch of the collector and the hash of
a handle do. -/
def Procedure.isQuiet (m : Machine) (args : List Ref) : Procedure → Bool
  | .heapDump | .liveCount | .collect | .collectorIsDisabled => false
  | .objectHash => args.all fun r =>
    match m.resolve r with
    | .ok v => v.payload.isScalar
    | .error _ => true
  | _ => true

/-! ## 2. Growing vectors -/

/-- One more element in payloads that are alike. -/
theorem Payload.Alike.push {pairs : Pairing} {p q : Payload}
    (h : p.Alike pairs q) {r s : Ref} (hrs : r.Alike pairs s) : (p.push r).Alike pairs (q.push s) := by
  cases h with
  | vector hxy =>
    refine .vector ?_
    rw [Array.toList_push, Array.toList_push]
    exact List.rel_append hxy (.cons hrs .nil)
  | fields hxy => exact .fields hxy
  | plain hp =>
    have hself : p.push r = p ∧ p.push s = p := by
      cases p <;> simp_all [Payload.push, Payload.elements?]
    rw [hself.1, hself.2]
    exact .plain hp

/-- A vector that got an element has grown. -/
theorem Payload.items_push (p : Payload) (r : Ref) :
    p.items <+: (p.push r).items := by
  cases p <;> simp [Payload.push, Payload.items, Payload.elements?]

section Builtin

variable {exact : Prop} {w : World exact} {α : Type}

/-! ## 3. Renderings without calls -/

/-- The texts of several values, if each has the same text on both sides. -/
theorem mapM_text_eq {R : Ref → Ref → Prop} {f g : Ref → Except Defect String}
    (hfg : ∀ r s, R r s → ∃ t, f r = .ok t ∧ g s = .ok t) {rs ss : List Ref}
    (h : List.Forall₂ R rs ss) : ∃ ts, rs.mapM f = .ok ts ∧ ss.mapM g = .ok ts := by
  induction h with
  | nil => exact ⟨[], rfl, rfl⟩
  | @cons r s rs ss hrs _ ih =>
    obtain ⟨t, ht, ht'⟩ := hfg r s hrs
    obtain ⟨ts, hts, hts'⟩ := ih
    refine ⟨t :: ts, ?_, ?_⟩
    · rw [List.mapM_cons, ht, hts]
      rfl
    · rw [List.mapM_cons, ht', hts']
      rfl

/-- Values that are alike look alike. -/
theorem World.renderScalar_eq (w : World exact) {v v' : Value} (h : v.Alike w.pairs v') :
    w.left.renderScalar v = w.right.renderScalar v' := by
  obtain ⟨t, p⟩ := v
  obtain ⟨t', p'⟩ := v'
  obtain ⟨rfl, hp⟩ : t = t' ∧ p.Alike w.pairs p' := ⟨h.type_eq, h.payload⟩
  unfold Machine.renderScalar
  cases hp with
  | vector _ => rfl
  | fields _ => simp only [Effect.typeText_eq]
  | plain _ => simp only [Effect.typeText_eq, Effect.text_eq]

/-- References that are alike have the same plain rendering, and it is no defect. -/
theorem World.Alike.renderNested {r r' : Ref} (h : w.Alike r r') (depth : Nat) :
    ∃ t, w.left.renderNested depth r = .ok t ∧ w.right.renderNested depth r' = .ok t := by
  induction depth generalizing r r' with
  | zero =>
    obtain ⟨v, v', hv, hv', hvv', -⟩ := h.resolve
    refine ⟨w.left.renderScalar v, ?_, ?_⟩
    · rw [Machine.renderNested, hv]
    · rw [Machine.renderNested, hv', w.renderScalar_eq hvv']
  | succ depth ih =>
    obtain ⟨v, v', hv, hv', hvv', -⟩ := h.resolve
    rw [Machine.renderNested, Machine.renderNested, hv, hv']
    have hscalar := w.renderScalar_eq hvv'
    obtain ⟨t, p⟩ := v
    obtain ⟨t', p'⟩ := v'
    have hp : p.Alike w.pairs p' := hvv'.payload
    cases hp with
    | vector hxy =>
      obtain ⟨ts, hts, hts'⟩ := mapM_text_eq (fun _ _ hrs => ih hrs) hxy
      simp only [hts, hts']
      exact ⟨bracketed ts, rfl, rfl⟩
    | fields _ => exact ⟨_, rfl, by simp only [hscalar]⟩
    | plain hplain =>
      cases p with
      | vector _ => cases hplain
      | _ => exact ⟨_, rfl, by simp only [hscalar]⟩

namespace Effect

variable {R : World exact → α → α → Prop}

/-- Going on with a plain rendering. -/
theorem Agree.renderPlain {r r' : Ref} (h : w.Alike r r') {g g' : String → Effect α}
    (hg : ∀ t, Agree w (g t) (g' t) R) :
    Agree w (renderPlain r >>= g) (renderPlain r' >>= g') R := by
  obtain ⟨t, ht, ht'⟩ := h.renderNested maxRenderDepth
  exact .readOrDefect ht ht' (hg t)

theorem Agree.renderPlain_end {r r' : Ref} (h : w.Alike r r') :
    Agree w (Effect.renderPlain r) (Effect.renderPlain r') Same := by
  obtain ⟨t, ht, ht'⟩ := h.renderNested maxRenderDepth
  exact .readOrDefect_end ht ht' rfl

/-! ## 4. Calls -/

theorem Agree.callOnType (type : TypeId) (method : Name) {receiver receiver' : Ref}
    {args args' : List Ref} (hr : w.Kept receiver receiver')
    (hargs : List.Forall₂ w.Kept args args') (location : Location) :
    Agree w (callOnType type method receiver args location)
      (callOnType type method receiver' args' location) World.Alike := by
  refine .readOrRaise (Q := fun _ c c' => c = c' ∧ c.Lawful) ?_ fun c c' hc => ?_
  · simp only [← w.types_eq, ← typeText_eq, ← text_eq]
    cases hfound : w.left.types.lookupMethod type method with
    | ok found => exact .ok ⟨rfl, w.lawful.lookupMethod hfound⟩
    | error _ => exact .error _
  · obtain ⟨rfl, hlaw⟩ := hc
    exact .call hlaw (.cons hr hargs) location

theorem Agree.callMethod {receiver receiver' : Ref} (method : Name) {args args' : List Ref}
    (hr : w.Kept receiver receiver') (hargs : List.Forall₂ w.Kept args args')
    (location : Location) :
    Agree w (callMethod receiver method args location) (callMethod receiver' method args' location)
      World.Alike := by
  refine .value hr.alike fun ⟨t, p⟩ ⟨t', p'⟩ _ _ hvv' _ => .read ?_
  obtain ⟨rfl, hp⟩ : t = t' ∧ p.Alike w.pairs p' := ⟨hvv'.type_eq, hvv'.payload⟩
  rw [← w.methods_eq]
  cases hp <;> exact .callOnType _ method hr hargs location

theorem Agree.callKnown (method : MethodNames → Name) {receiver receiver' : Ref}
    {args args' : List Ref} (h : w.Kept receiver receiver')
    (hargs : List.Forall₂ w.Kept args args') (location : Location) :
    Agree w (callKnown method receiver args location) (callKnown method receiver' args' location)
      World.Alike := by
  refine .read ?_
  rw [← w.methods_eq]
  exact .callMethod _ h hargs location

theorem Agree.callValue {callee callee' : Ref} {args args' : List Ref}
    (hf : w.Kept callee callee') (hargs : List.Forall₂ w.Kept args args') (location : Location) :
    Agree w (callValue callee args location) (callValue callee' args' location) World.Alike := by
  refine .value hf.alike fun ⟨t, p⟩ ⟨t', p'⟩ _ _ hvv' hlaw => ?_
  have hp : p.Alike w.pairs p' := hvv'.payload
  cases hp with
  | vector _ => exact .raiseAbout hf.alike _
  | fields _ => exact .raiseAbout hf.alike _
  | plain _ =>
    cases p with
    | function f => exact .call (hlaw _ rfl) hargs location
    | builtin f => exact .call (hlaw _ rfl) hargs location
    | type described =>
      refine .read ?_
      rw [← w.methods_eq]
      exact .callOnType described _ hf hargs location
    | _ => exact .raiseAbout hf.alike _

/-! ## 5. Renderings through the method `str` -/

theorem Agree.textOrPlain {r r' : Ref} (h : w.Alike r r') :
    Agree w (textOrPlain r) (textOrPlain r') Same := by
  refine .value h fun v v' _ _ hvv' _ => ?_
  rw [← hvv'.payload.str?_eq]
  cases v.payload.str? with
  | some s => exact .pure rfl
  | none => exact .renderPlain_end h

/-- A value need not be kept to be rendered: it is a temporary root meanwhile. -/
theorem Agree.render {r r' : Ref} (h : w.Alike r r') : Agree w (render r) (render r') Same := by
  refine .read ?_
  rw [← w.methods_eq]
  refine .bind (Q := World.Alike) (.withRoots steady_alike ?_) fun w' _ t t' ht => .textOrPlain ht
  exact (Agree.root h).bind fun w' _ _ _ hkept => .callMethod _ hkept .nil _

theorem Agree.renderAll {rs rs' : List Ref} (h : List.Forall₂ w.Kept rs rs') (texts : List String) :
    Agree w (renderAll rs texts) (renderAll rs' texts) Same := by
  induction rs generalizing w rs' texts with
  | nil =>
    cases h
    exact .pure rfl
  | cons r rs ih =>
    cases h with
    | cons hrs hrest =>
      refine (Agree.render hrs.alike).bind fun w' hle t t' ht => ?_
      obtain rfl : t = t' := ht
      exact ih (World.forall₂_kept_mono hle hrest) _

theorem Agree.renderBuiltin {r r' : Ref} (h : w.Kept r r') :
    Agree w (renderBuiltin r) (renderBuiltin r') Same := by
  refine .value h.alike fun ⟨t, p⟩ ⟨t', p'⟩ hv hv' hvv' _ => ?_
  have hitems := h.items hv hv'
  have hp : p.Alike w.pairs p' := hvv'.payload
  cases hp with
  | vector _ =>
    refine .read ?_
    rw [← w.renderDepth_eq]
    by_cases hdepth : maxRenderDepth ≤ w.left.renderDepth
    · simp only [if_pos hdepth]
      exact .pure rfl
    · simp only [if_neg hdepth]
      refine .bind (Q := Same) (.inRendering steady_same fun w' hle => ?_) fun w' _ t t' ht => ?_
      · exact .renderAll (World.forall₂_kept_mono hle hitems) []
      · obtain rfl : t = t' := ht
        exact .pure rfl
  | fields _ => exact .renderPlain_end h.alike
  | plain hplain =>
    cases p with
    | vector _ => cases hplain
    | _ => exact .renderPlain_end h.alike

theorem Agree.renderDbg {r r' : Ref} (h : w.Kept r r') :
    Agree w (renderDbg r) (renderDbg r') Same := by
  refine .typeText h.alike fun t => .value h.alike fun v v' _ _ hvv' _ => ?_
  rw [← hvv'.payload.str?_eq]
  cases v.payload.str? with
  | some s => exact .pure rfl
  | none =>
    refine (Agree.render h.alike).bind fun w' _ s s' hs => ?_
    obtain rfl : s = s' := hs
    exact .pure rfl

/-! ## 6. Results -/

theorem Agree.allocateText (t : String) : Agree w (allocateText t) (allocateText t) World.Alike :=
  .allocate_plain rfl rfl

theorem Agree.allocateCount (n : Nat) : Agree w (allocateCount n) (allocateCount n) World.Alike :=
  .allocate_plain rfl rfl

theorem Agree.allocateResult (r : NumericResult) :
    Agree w (allocateResult r) (allocateResult r) World.Alike := by
  cases r with
  | int i => exact .allocate_plain rfl rfl
  | real x => exact .allocate_plain rfl rfl
  | bool b => exact .pure (.bool b)

theorem Agree.allocateOrRaise (e : Except FaultKind NumericResult) :
    Agree w (allocateOrRaise e) (allocateOrRaise e) World.Alike := by
  cases e with
  | ok r => exact .allocateResult r
  | error k => exact .raise k

/-- A vector of references that are kept. -/
theorem Agree.allocateVector {rs rs' : List Ref} (h : List.Forall₂ w.Alike rs rs') :
    Agree w (Effect.allocate (.ofVector rs.toArray)) (Effect.allocate (.ofVector rs'.toArray))
      World.Alike :=
  .allocate ⟨rfl, .vector h⟩ (.of_callable? rfl)

theorem Agree.raiseArity (name : Name) (expected got : Nat) :
    Agree w (raiseArity name expected got) (raiseArity name expected got) R :=
  .raiseWith (by rw [text_eq])

theorem alike_of_kept {rs rs' : List Ref} (h : List.Forall₂ w.Kept rs rs') :
    List.Forall₂ w.Alike rs rs' :=
  h.imp fun _ _ hrs => hrs.alike

/-! ## 7. Objects, booleans and types -/

/-- Values that are alike have the same hash, if no handle is hashed or the handles are the same. -/
theorem hashOf_eq {r r' : Ref} {v v' : Value} (h : w.Alike r r') (hvv' : v.Alike w.pairs v')
    (hq : exact ∨ v.payload.isScalar = true) (digest : Digest) :
    hashOf digest r v = hashOf digest r' v' := by
  rcases hq with he | hscalar
  · rw [Ref.Alike.eq h (w.diagonal he), hvv'.eq (w.diagonal he)]
  · obtain ⟨t, p⟩ := v
    obtain ⟨t', p'⟩ := v'
    have hp : p.Alike w.pairs p' := hvv'.payload
    cases hp with
    | vector _ => cases hscalar
    | fields _ => cases hscalar
    | plain _ => cases p <;> first | rfl | cases hscalar

theorem Agree.hashValue {r r' : Ref} (h : w.Alike r r')
    (hq : exact ∨ ∀ v, w.left.resolve r = .ok v → v.payload.isScalar = true) :
    Agree w (hashValue r) (hashValue r') World.Alike := by
  refine .value h fun v v' hv _ hvv' _ => ?_
  refine .read ?_
  rw [← w.digest_eq, ← hashOf_eq h hvv' (hq.imp_right fun hs => hs v hv)]
  exact .allocate_plain rfl rfl

theorem Agree.constructedType {r r' : Ref} (h : w.Alike r r') :
    Agree w (constructedType r) (constructedType r') Same := by
  refine .value h fun v v' _ _ hvv' _ => .pure ?_
  rw [Same, hvv'.payload.type?_eq, hvv'.type_eq]

theorem Agree.newObject {r r' : Ref} {args args' : List Ref} (h : w.Kept r r')
    (hargs : List.Forall₂ w.Kept args args') :
    Agree w (newObject r args) (newObject r' args') World.Alike := by
  refine (Agree.constructedType h.alike).bind fun w' hle type type' ht => .read ?_
  obtain rfl : type = type' := ht
  have hargs' := World.forall₂_kept_mono hle hargs
  rw [← w'.types_eq]
  cases w'.left.types.get? type with
  | none => exact .pure .nil
  | some info =>
    simp only [← hargs.length_eq]
    split
    · exact .raiseWith (by rw [text_eq])
    · split
      · exact .raiseArity _ _ _
      · refine .bind (.changeTypes (w'.lawful.close type)) fun w'' _ answer _ h => ?_
        obtain ⟨rfl, hpairs⟩ := h
        cases answer with
        | error why => exact .raise _
        | ok _ =>
          refine .allocate ⟨rfl, .fields ?_⟩ (.of_callable? rfl)
          rw [hpairs]
          simp only [Array.toList_append, Array.toList_replicate]
          refine List.rel_append (alike_of_kept hargs') (List.forall₂_same.2 fun x hx => ?_)
          rw [List.eq_of_mem_replicate hx]
          exact .nil

theorem negateBool_alike {r r' : Ref} (h : w.Alike r r') : w.Alike (negateBool r) (negateBool r') := by
  cases h with
  | nil => exact .nil
  | bool b => exact .bool _
  | heap _ => exact .nil

theorem Agree.sameType {l l' r r' : Ref} (hl : w.Alike l l') (hr : w.Alike r r') :
    Agree w (sameType l r) (sameType l' r') Same := by
  refine .value hl fun v v' _ _ hvv' _ => ?_
  rw [← hvv'.payload.type?_eq]
  cases v.payload.type? with
  | none => exact .pure rfl
  | some type =>
    refine .value hr fun u u' _ _ huu' _ => .pure ?_
    rw [Same, huu'.payload.type?_eq]

theorem Agree.nameOfType {r r' : Ref} (h : w.Alike r r') :
    Agree w (nameOfType r) (nameOfType r') World.Alike := by
  refine .value h fun v v' _ _ hvv' _ => ?_
  rw [← hvv'.payload.type?_eq]
  cases v.payload.type? with
  | none => exact .pure .nil
  | some type =>
    refine .read ?_
    rw [← typeText_eq]
    exact .allocateText _

/-! ## 8. Numbers -/

theorem Agree.numericMethod (op : BinaryOp) {l l' r r' : Ref} (hl : w.Alike l l')
    (hr : w.Alike r r') : Agree w (numericMethod op l r) (numericMethod op l' r') World.Alike := by
  refine .value hl fun a a' _ _ haa' _ => .value hr fun b b' _ _ hbb' _ => ?_
  rw [← haa'.payload.number?_eq, ← hbb'.payload.number?_eq]
  have hmismatch : w.Alike (mismatch op) (mismatch op) := by
    cases op <;> first | exact .nil | exact .bool _
  cases a.payload.number? <;> cases b.payload.number?
  · exact .pure hmismatch
  · exact .pure hmismatch
  · exact .pure hmismatch
  · exact .allocateOrRaise _

theorem Agree.negateMethod {r r' : Ref} (h : w.Alike r r') :
    Agree w (negateMethod r) (negateMethod r') World.Alike := by
  refine .value h fun v v' _ _ hvv' _ => ?_
  rw [← hvv'.payload.number?_eq]
  cases v.payload.number? with
  | none => exact .pure .nil
  | some n => exact .allocateOrRaise _

theorem toNumber?_eq {p p' : Payload} (h : p.Alike w.pairs p') : toNumber? p = toNumber? p' := by
  cases h <;> rfl

theorem Agree.toNumber {r r' : Ref} (h : w.Alike r r') :
    Agree w (toNumber r) (toNumber r') Same := by
  refine .value h fun v v' _ _ hvv' _ => ?_
  rw [← toNumber?_eq hvv'.payload]
  cases toNumber? v.payload with
  | none => exact .raiseAbout h _
  | some n => exact .pure rfl

theorem Agree.constructedFrom (target : TypeId) {args args' : List Ref}
    (hargs : List.Forall₂ w.Alike args args') :
    Agree w (constructedFrom target args) (constructedFrom target args') Same := by
  have hlen := hargs.length_eq
  rcases hargs with _ | ⟨ha, _ | ⟨hb, hrest⟩⟩
  · exact .pure rfl
  · exact .toNumber ha
  · exact .raiseWith (by simp only [typeText_eq, hlen])

theorem Agree.newNumber {r r' : Ref} {args args' : List Ref} (h : w.Kept r r')
    (hargs : List.Forall₂ w.Kept args args') :
    Agree w (newNumber r args) (newNumber r' args') World.Alike := by
  refine (Agree.constructedType h.alike).bind fun w' hle target target' ht => ?_
  obtain rfl : target = target' := ht
  have hargs' := alike_of_kept (World.forall₂_kept_mono hle hargs)
  refine (Agree.constructedFrom target hargs').bind fun w'' _ n n' hn => ?_
  obtain rfl : n = n' := hn
  split
  · exact .allocate_plain rfl rfl
  · cases n with
    | int i => exact .allocate_plain rfl rfl
    | real x => exact .allocate_plain rfl rfl

theorem Agree.expectNumber (op : String) {r r' : Ref} (h : w.Alike r r') :
    Agree w (expectNumber op r) (expectNumber op r') Same := by
  refine .value h fun v v' _ _ hvv' _ => ?_
  rw [← hvv'.payload.number?_eq]
  cases v.payload.number? with
  | none => exact .raiseAbout h _
  | some n => exact .pure rfl

theorem Agree.squareRoot {r r' : Ref} (h : w.Alike r r') :
    Agree w (squareRoot r) (squareRoot r') World.Alike := by
  refine (Agree.expectNumber "sqrt" h).bind fun w' _ n n' hn => ?_
  obtain rfl : n = n' := hn
  exact .allocate_plain rfl rfl

theorem Agree.absolute {r r' : Ref} (h : w.Alike r r') :
    Agree w (absolute r) (absolute r') World.Alike := by
  refine (Agree.expectNumber "abs" h).bind fun w' _ n n' hn => ?_
  obtain rfl : n = n' := hn
  exact .allocateOrRaise _

theorem Agree.floorReal {r r' : Ref} (h : w.Alike r r') :
    Agree w (floorReal r) (floorReal r') World.Alike := by
  refine (Agree.expectNumber "floor" h).bind fun w' _ n n' hn => ?_
  obtain rfl : n = n' := hn
  exact .allocate_plain rfl rfl

/-! ## 9. Texts and vectors -/

theorem Agree.textPair {l l' r r' : Ref} (hl : w.Alike l l') (hr : w.Alike r r') :
    Agree w (textPair l r) (textPair l' r') Same := by
  refine .value hl fun a a' _ _ haa' _ => ?_
  rw [← haa'.payload.str?_eq]
  cases a.payload.str? with
  | none => exact .pure rfl
  | some s =>
    refine .value hr fun b b' _ _ hbb' _ => .pure ?_
    rw [Same, hbb'.payload.str?_eq]

theorem Agree.concat {l l' r r' : Ref} (hl : w.Alike l l') (hr : w.Alike r r') :
    Agree w (concat l r) (concat l' r') World.Alike := by
  refine .value hl fun a a' _ _ haa' _ => ?_
  rw [← haa'.payload.str?_eq]
  cases a.payload.str? with
  | none => exact .pure .nil
  | some s =>
    refine .value hr fun b b' _ _ hbb' _ => ?_
    rw [← hbb'.payload.str?_eq]
    cases b.payload.str? with
    | some t => exact .allocateText _
    | none =>
      refine (Agree.render hr).bind fun w' _ t t' ht => ?_
      obtain rfl : t = t' := ht
      exact .allocateText _

theorem Agree.repeatText {l l' r r' : Ref} (hl : w.Alike l l') (hr : w.Alike r r') :
    Agree w (repeatText l r) (repeatText l' r') World.Alike := by
  refine .value hl fun a a' _ _ haa' _ => .value hr fun b b' _ _ hbb' _ => ?_
  rw [← haa'.payload.str?_eq, ← hbb'.payload.int?_eq]
  cases a.payload.str? <;> cases b.payload.int?
  · exact .pure .nil
  · exact .pure .nil
  · exact .pure .nil
  · dsimp only
    split
    · exact .raise _
    · split
      · exact .raise _
      · exact .allocateText _

theorem textMismatch_alike (test : Comparison) : w.Alike (textMismatch test) (textMismatch test) := by
  cases test <;> first | exact .nil | exact .bool _

theorem Agree.textMethod (test : Comparison) {l l' r r' : Ref} (hl : w.Alike l l')
    (hr : w.Alike r r') : Agree w (textMethod test l r) (textMethod test l' r') World.Alike := by
  refine (Agree.textPair hl hr).bind fun w' _ p p' hp => ?_
  obtain rfl : p = p' := hp
  cases p with
  | none => exact .pure (textMismatch_alike test)
  | some ab => exact .pure (.bool _)

theorem Agree.lengthOfText {r r' : Ref} (h : w.Alike r r') :
    Agree w (lengthOfText r) (lengthOfText r') World.Alike := by
  refine .value h fun v v' _ _ hvv' _ => ?_
  rw [← hvv'.payload.str?_eq]
  cases v.payload.str? with
  | none => exact .pure .nil
  | some s => exact .allocateCount _

theorem Agree.newText {args args' : List Ref} (hargs : List.Forall₂ w.Alike args args') :
    Agree w (newText args) (newText args') World.Alike := by
  cases hargs with
  | nil => exact .allocateText _
  | cons ha _ =>
    refine (Agree.render ha).bind fun w' _ t t' ht => ?_
    obtain rfl : t = t' := ht
    exact .allocateText _

theorem Agree.appendVectors {l l' r r' : Ref} (hl : w.Alike l l') (hr : w.Alike r r') :
    Agree w (appendVectors l r) (appendVectors l' r') World.Alike := by
  refine .value hl fun ⟨t, p⟩ ⟨t', p'⟩ _ _ haa' _ => .value hr fun ⟨u, q⟩ ⟨u', q'⟩ _ _ hbb' _ => ?_
  have hp : p.Alike w.pairs p' := haa'.payload
  have hq : q.Alike w.pairs q' := hbb'.payload
  cases hp with
  | vector hxy =>
    cases hq with
    | vector hzw =>
      refine .allocate ⟨rfl, .vector ?_⟩ (.of_callable? rfl)
      rw [Array.toList_append, Array.toList_append]
      exact List.rel_append hxy hzw
    | fields _ => exact .pure .nil
    | plain hplain =>
      cases q with
      | vector _ => cases hplain
      | _ => exact .pure .nil
  | fields _ => exact .pure .nil
  | plain hplain =>
    cases p with
    | vector _ => cases hplain
    | _ => exact .pure .nil

/-- An element added to the vectors of a pair leads to a later world. -/
theorem Agree.pushItem {a b : Handle} (hab : w.pairs a b) {item item' : Ref}
    (hitem : w.Alike item item') :
    Agree w (Effect.modify fun m => m.modifyPayload (.heap a) fun p => p.push item)
      (Effect.modify fun m => m.modifyPayload (.heap b) fun p => p.push item')
      fun w' _ _ => w'.pairs = w.pairs := by
  have hfg : ∀ v u, w.left.heap.get? a = some v → w.right.heap.get? b = some u →
      (v.payload.push item).Alike w.pairs (u.payload.push item') := by
    intro v u hv hu
    obtain ⟨x, y, hx, hy, hxy, -⟩ := w.values a b hab
    obtain rfl : x = v := Option.some.inj (hx.symm.trans hv)
    obtain rfl : y = u := Option.some.inj (hy.symm.trans hu)
    exact hxy.payload.push hitem
  have hcall : ∀ p : Payload, (p.push item).callable? = p.callable? := fun p => by cases p <;> rfl
  have heq : exact → (fun p : Payload => p.push item) = fun p => p.push item' := by
    intro he
    rw [Ref.Alike.eq hitem (w.diagonal he)]
  have hgrown : ∀ (m : Machine) (c : Handle) (r : Ref), m.Evolves
      (m.modifyPayload (.heap c) fun p => p.push r) := by
    intro m c r
    refine ⟨List.prefix_rfl, rfl, rfl, fun h v _ hv => ?_⟩
    simp only [Machine.modifyPayload, Heap.modifyPayload, Heap.get?_modifyValue, hv]
    split
    · exact ⟨_, rfl, v.payload.items_push r⟩
    · exact ⟨v, rfl, List.prefix_rfl⟩
  exact .modify (w.write hab hfg hcall heq) rfl rfl ⟨hgrown _ _ _, hgrown _ _ _⟩ rfl

theorem Agree.pushElement {r r' item item' : Ref} (h : w.Alike r r') (hitem : w.Alike item item') :
    Agree w (pushElement r item) (pushElement r' item') World.Alike := by
  refine .value h fun ⟨t, p⟩ ⟨t', p'⟩ _ _ hvv' _ => ?_
  have hp : p.Alike w.pairs p' := hvv'.payload
  cases h with
  | nil => exact .pure .nil
  | bool b => exact .pure .nil
  | @heap a b hab =>
    cases hp with
    | vector _ =>
      refine (Agree.pushItem hab hitem).bind fun w' _ _ _ hpairs => .pure ?_
      exact .heap (hpairs ▸ hab)
    | fields _ => exact .pure .nil
    | plain hplain =>
      cases p with
      | vector _ => cases hplain
      | _ => exact .pure .nil

theorem Agree.lengthOfVector {r r' : Ref} (h : w.Alike r r') :
    Agree w (lengthOfVector r) (lengthOfVector r') World.Alike := by
  refine .value h fun ⟨t, p⟩ ⟨t', p'⟩ _ _ hvv' _ => ?_
  have hp : p.Alike w.pairs p' := hvv'.payload
  cases hp with
  | @vector xs ys hxy =>
    have hsize : xs.size = ys.size := by simpa using hxy.length_eq
    simp only [Payload.vector?, hsize]
    exact .allocateCount _
  | fields _ => exact .pure .nil
  | plain hplain =>
    cases p with
    | vector _ => cases hplain
    | _ => exact .pure .nil

/-! ## 10. Global functions -/

theorem Agree.joined {args args' : List Ref} (hargs : List.Forall₂ w.Kept args args') :
    Agree w (joined args) (joined args') Same := by
  refine (Agree.renderAll hargs []).bind fun w' _ t t' ht => ?_
  obtain rfl : t = t' := ht
  exact .pure rfl

/-- The same text written on both sides. -/
theorem Agree.write (f : Console → Console) :
    Agree w (Effect.modify fun m => { m with console := f m.console })
      (Effect.modify fun m => { m with console := f m.console }) fun w' _ _ => w'.pairs = w.pairs := by
  refine .modify (w.withConsole (f w.left.console)) rfl ?_ (w.le_withConsole _) rfl
  simp only [World.withConsole, w.console_eq]

theorem Agree.printArgs {args args' : List Ref} (hargs : List.Forall₂ w.Kept args args') :
    Agree w (printArgs args) (printArgs args') World.Alike := by
  refine (Agree.joined hargs).bind fun w' _ t t' ht => ?_
  obtain rfl : t = t' := ht
  exact (Agree.write fun c => c.print t).bind fun _ _ _ _ _ => .pure .nil

theorem Agree.printLineArgs {args args' : List Ref} (hargs : List.Forall₂ w.Kept args args') :
    Agree w (printLineArgs args) (printLineArgs args') World.Alike := by
  refine (Agree.joined hargs).bind fun w' _ t t' ht => ?_
  obtain rfl : t = t' := ht
  exact (Agree.write fun c => c.printLine t).bind fun _ _ _ _ _ => .pure .nil

theorem Agree.stringOf {r r' : Ref} (h : w.Alike r r') :
    Agree w (stringOf r) (stringOf r') World.Alike := by
  refine (Agree.render h).bind fun w' _ t t' ht => ?_
  obtain rfl : t = t' := ht
  exact .allocateText t

theorem Agree.typeOfValue {r r' : Ref} (h : w.Alike r r') :
    Agree w (typeOfValue r) (typeOfValue r') World.Alike := by
  refine .value h fun v v' _ _ hvv' _ => ?_
  rw [← hvv'.type_eq]
  exact .allocate_plain rfl rfl

theorem Agree.debug {r r' : Ref} (h : w.Kept r r') : Agree w (debug r) (debug r') World.Alike := by
  refine (Agree.callKnown _ h .nil _).bind fun w₁ hle₁ shown shown' hshown => ?_
  refine (Agree.textOrPlain hshown).bind fun w₂ hle₂ t t' ht => ?_
  obtain rfl : t = t' := ht
  refine (Agree.write fun c => c.printLine t).bind fun w₃ hle₃ _ _ _ => .pure ?_
  exact (h.mono (le_trans hle₁ (le_trans hle₂ hle₃))).alike

/-! ## 11. The collector -/

theorem Agree.setCollector (enabled : Bool) :
    Agree w (setCollector enabled) (setCollector enabled) World.Alike := by
  have hle : w ≤ w.withSwitch enabled :=
    ⟨⟨List.prefix_rfl, rfl, rfl, fun _ v _ hv => ⟨v, hv, List.prefix_rfl⟩⟩,
      ⟨List.prefix_rfl, rfl, rfl, fun _ v _ hv => ⟨v, hv, List.prefix_rfl⟩⟩⟩
  refine .bind (Q := Same) (.modify (w.withSwitch enabled) rfl rfl hle rfl) ?_
  exact fun _ _ _ _ _ => .pure .nil

theorem Agree.printReport (he : exact) : Agree w printReport printReport World.Alike := by
  refine .bind (Q := Same) (.modify (w.withConsole (w.left.console.print
    (w.left.heap.report w.left.types w.left.names))) rfl ?_ (w.le_withConsole _) rfl) ?_
  · simp only [World.withConsole, w.same he]
  · exact fun _ _ _ _ _ => .pure .nil

theorem Agree.collectGarbage (he : exact) : Agree w collectGarbage collectGarbage Same := by
  obtain ⟨n, w', hl, hr, hle⟩ := w.collectGarbage he
  unfold Agree Effect.collectGarbage
  rw [hl, hr]
  exact .done w' rfl rfl ⟨hle, .ok rfl⟩

theorem Agree.collectNow (he : exact) : Agree w collectNow collectNow World.Alike := by
  refine (Agree.collectGarbage he).bind fun w' _ n n' hn => ?_
  obtain rfl : n = n' := hn
  exact .allocateCount n

/-! ## 12. Native bodies -/

section Run

variable {args args' : List Ref} (hargs : List.Forall₂ w.Kept args args')

include hargs

theorem Agree.onOne {body : Ref → Effect Ref}
    (h : ∀ r r', args = [r] → w.Kept r r' → Agree w (body r) (body r') World.Alike) :
    Agree w (onOne args body) (onOne args' body) World.Alike := by
  rcases hargs with _ | ⟨ha, _ | ⟨hb, hrest⟩⟩
  · exact .pure .nil
  · exact h _ _ rfl ha
  · exact .pure .nil

theorem Agree.onTwo {otherwise : Ref} (ho : w.Alike otherwise otherwise)
    {body : Ref → Ref → Effect Ref}
    (h : ∀ l l' r r', w.Kept l l' → w.Kept r r' → Agree w (body l r) (body l' r') World.Alike) :
    Agree w (onTwo args otherwise body) (onTwo args' otherwise body) World.Alike := by
  rcases hargs with _ | ⟨ha, _ | ⟨hb, _ | ⟨hc, hrest⟩⟩⟩
  · exact .pure ho
  · exact .pure ho
  · exact h _ _ _ _ ha hb
  · exact .pure ho

theorem Agree.onReceiver {body : Ref → List Ref → Effect Ref}
    (h : ∀ r r' rest rest', w.Kept r r' → List.Forall₂ w.Kept rest rest' →
      Agree w (body r rest) (body r' rest') World.Alike) :
    Agree w (onReceiver args body) (onReceiver args' body) World.Alike := by
  cases hargs with
  | nil => exact .pure .nil
  | cons ha hrest => exact h _ _ _ _ ha hrest

theorem Agree.onFirst {body : Ref → Effect Ref} (hlen : 0 < args.length)
    (h : ∀ r r', w.Kept r r' → Agree w (body r) (body r') World.Alike) :
    Agree w (onFirst args body) (onFirst args' body) World.Alike := by
  cases hargs with
  | nil => simp at hlen
  | cons ha hrest => exact .demand rfl rfl _ (h _ _ ha)

/-- The first of arguments that are kept, or nil. -/
theorem headD_alike : w.Alike (args.headD .nil) (args'.headD .nil) := by
  cases hargs with
  | nil => exact .nil
  | cons ha _ => exact ha.alike

/-- All but the first of arguments that are kept. -/
theorem tail_kept : List.Forall₂ w.Kept args.tail args'.tail := by
  cases hargs with
  | nil => exact .nil
  | cons _ hrest => exact hrest

/-- **Native bodies agree with themselves**, on as many arguments as they count on: the quiet ones in
every world, and all of them if there is only one machine. -/
theorem Agree.run (p : Procedure) (hneeds : p.needsArgument = true → 0 < args.length)
    (hq : exact ∨ p.isQuiet w.left args = true) :
    Agree w (p.run args) (p.run args') World.Alike := by
  have hbeq : ∀ {a a' b b' : Ref}, w.Kept a a' → w.Kept b b' → (a == b) = (a' == b') :=
    fun ha hb => Ref.Alike.beq_eq ha.alike hb.alike w.functional w.injective
  cases p with
  | objectNil => exact .pure .nil
  | objectEq =>
    refine .onTwo hargs .nil fun a a' b b' ha hb => .pure ?_
    rw [hbeq ha hb]
    exact .bool _
  | objectNe =>
    refine .onTwo hargs .nil fun a a' b b' ha hb => .pure ?_
    rw [bne, bne, hbeq ha hb]
    exact .bool _
  | objectStr =>
    refine .onOne hargs fun r r' _ hr => (Agree.renderBuiltin hr).bind fun w' _ t t' ht => ?_
    obtain rfl : t = t' := ht
    exact .allocateText t
  | objectDbg =>
    refine .onOne hargs fun r r' _ hr => (Agree.renderDbg hr).bind fun w' _ t t' ht => ?_
    obtain rfl : t = t' := ht
    exact .allocateText t
  | objectHash =>
    refine .onOne hargs fun r r' hone hr => .hashValue hr.alike (hq.imp_right fun hq v hv => ?_)
    subst hone
    simpa [Procedure.isQuiet, hv] using hq
  | objectNew => exact .onReceiver hargs fun _ _ _ _ hr hrest => .newObject hr hrest
  | nilNew => exact .pure .nil
  | boolNot => exact .onOne hargs fun _ _ _ hr => .pure (negateBool_alike hr.alike)
  | boolNew =>
    refine .pure ?_
    rw [(headD_alike (tail_kept hargs)).isTruthy_eq]
    exact .bool _
  | numeric op => exact .onTwo hargs .nil fun _ _ _ _ hl hr => .numericMethod op hl.alike hr.alike
  | numericNeg => exact .onOne hargs fun _ _ _ hr => .negateMethod hr.alike
  | numericNew => exact .onReceiver hargs fun _ _ _ _ hr hrest => .newNumber hr hrest
  | textAdd => exact .onTwo hargs .nil fun _ _ _ _ hl hr => .concat hl.alike hr.alike
  | textRepeat => exact .onTwo hargs .nil fun _ _ _ _ hl hr => .repeatText hl.alike hr.alike
  | textCompare test =>
    exact .onTwo hargs (textMismatch_alike test) fun _ _ _ _ hl hr =>
      .textMethod test hl.alike hr.alike
  | textLength => exact .onOne hargs fun _ _ _ hr => .lengthOfText hr.alike
  | textNew => exact .newText (alike_of_kept (tail_kept hargs))
  | vectorAdd => exact .onTwo hargs .nil fun _ _ _ _ hl hr => .appendVectors hl.alike hr.alike
  | vectorPush => exact .onTwo hargs .nil fun _ _ _ _ hl hr => .pushElement hl.alike hr.alike
  | vectorLength => exact .onOne hargs fun _ _ _ hr => .lengthOfVector hr.alike
  | vectorNew => exact .allocateVector (alike_of_kept (tail_kept hargs))
  | typeEq =>
    refine .onTwo hargs .nil fun l l' r r' hl hr => ?_
    refine (Agree.sameType hl.alike hr.alike).bind fun w' _ b b' hb => .pure ?_
    obtain rfl : b = b' := hb
    exact .bool _
  | typeNe =>
    refine .onTwo hargs .nil fun l l' r r' hl hr => ?_
    refine (Agree.sameType hl.alike hr.alike).bind fun w' _ b b' hb => .pure ?_
    obtain rfl : b = b' := hb
    exact .bool _
  | typeName => exact .onOne hargs fun _ _ _ hr => .nameOfType hr.alike
  | print => exact .printArgs hargs
  | printLine => exact .printLineArgs hargs
  | string => exact .onFirst hargs (hneeds rfl) fun _ _ hr => .stringOf hr.alike
  | typeOf => exact .onFirst hargs (hneeds rfl) fun _ _ hr => .typeOfValue hr.alike
  | hash => exact .onFirst hargs (hneeds rfl) fun _ _ hr => .callKnown _ hr .nil _
  | dbg => exact .onFirst hargs (hneeds rfl) fun _ _ hr => .debug hr
  | length => exact .onFirst hargs (hneeds rfl) fun _ _ hr => .callKnown _ hr .nil _
  | heapDump => exact .printReport (hq.resolve_right (by simp [Procedure.isQuiet]))
  | collectorEnable => exact .setCollector true
  | collectorDisable => exact .setCollector false
  | collectorIsDisabled =>
    have he : exact := hq.resolve_right (by simp [Procedure.isQuiet])
    refine .read (.pure ?_)
    rw [w.same he]
    exact .bool _
  | collect => exact .collectNow (hq.resolve_right (by simp [Procedure.isQuiet]))
  | liveCount =>
    have he : exact := hq.resolve_right (by simp [Procedure.isQuiet])
    refine .read ?_
    rw [w.same he]
    exact .allocateCount _
  | sqrt => exact .onFirst hargs (hneeds rfl) fun _ _ hr => .squareRoot hr.alike
  | abs => exact .onFirst hargs (hneeds rfl) fun _ _ hr => .absolute hr.alike
  | floor => exact .onFirst hargs (hneeds rfl) fun _ _ hr => .floorReal hr.alike
  | countArgs =>
    have hlen := hargs.length_eq
    simp only [Procedure.run, hlen]
    exact .allocateCount _
  | packArgs => exact .allocateVector (alike_of_kept hargs)
  | firstArg => exact .pure (headD_alike hargs)
  | failing => exact .raise _
  | apply => exact .onReceiver hargs fun _ _ _ _ hr hrest => .callValue hr hrest _

end Run

end Effect

end Builtin

end ScriptMachine
