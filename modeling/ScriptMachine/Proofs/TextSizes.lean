/-
# How large the texts of native bodies get

Repetition counts the bytes of its result beforehand and raises a fault beyond `maxTextBytes`.  It is
the only native body that does: concatenation, the constructor of texts, the function `string`, the
methods `str` and `dbg` and the names of types place whatever text they come to.  No other body places
a text, and an element of a text is a single character.

* `Machine.TextsFit`: no text on the heap is beyond the limit;
* `Effect.Modest`: a computation that places no text beyond the limit itself, with one rule for each
  way to build a computation;
* `Procedure.composed?`: the bodies that put a text together and place it as it is;
* `Procedure.of_composed?`, `Procedure.modest_run`: what these do, and that all others are modest;
* `Machine.builtin_text_sizes`: which calls keep the limit, and what the ones do that need not.
-/
import ScriptMachine.Proofs.PlainCalls
import ScriptMachine.Proofs.Termination

namespace ScriptMachine

open Effect

/-! ## 1. Texts within the limit -/

/-- A value that is a text has at most `maxTextBytes` bytes. -/
def Value.TextFits (v : Value) : Prop :=
  ∀ s, v.payload.str? = some s → s.utf8ByteSize ≤ maxTextBytes

/-- Every text on the heap has at most `maxTextBytes` bytes. -/
def Machine.TextsFit (m : Machine) : Prop :=
  ∀ r v, m.heap.get? r = some v → v.TextFits

/-- Whether the slot holds no text. -/
def Slot.isNoText : Slot → Bool
  | live record => record.value.payload.str?.isNone
  | free _ _ _ => true

namespace Machine.TextsFit

variable {m m' : Machine}

/-- A heap with no value that was not there before. -/
theorem of_get? (h : m.TextsFit)
    (hget : ∀ r v, m'.heap.get? r = some v → m.heap.get? r = some v) : m'.TextsFit :=
  fun r v hv => h r v (hget r v hv)

/-- A heap without texts in its slots. -/
theorem of_slots (hslots : m.heap.slots.all Slot.isNoText = true) : m.TextsFit := by
  intro r v hv s hs
  obtain ⟨record, hrecord, rfl⟩ := Option.map_eq_some_iff.1 hv
  unfold Heap.record? at hrecord
  split at hrecord
  · next record' hslot =>
    have hnone : record'.value.payload.str?.isNone = true :=
      Array.all_eq_true_iff_forall_mem.1 hslots _ (Array.mem_of_getElem? hslot)
    split at hrecord
    · obtain rfl := Option.some.inj hrecord
      rw [hs] at hnone
      cases hnone
    · cases hrecord
  · cases hrecord
  · cases hrecord

theorem tryAllocate (h : m.TextsFit) {v : Value} (hv : v.TextFits) :
    (m.tryAllocate v).2.TextsFit := by
  intro r w hw
  rcases m.get?_tryAllocate v hw with rfl | hold
  · exact hv
  · exact h r w hold

theorem root (h : m.TextsFit) (r : Ref) : (m.root r).TextsFit := by
  cases r with
  | nil => exact h
  | bool b => exact h
  | heap a => exact h

/-- A write that makes no text leaves none that was not there. -/
theorem modifyPayload (h : m.TextsFit) (r : Ref) {f : Payload → Payload}
    (hf : ∀ p, (f p).str? = p.str?) : (m.modifyPayload r f).TextsFit := by
  cases r with
  | nil => exact h
  | bool b => exact h
  | heap a =>
    intro b w hw
    have hget : ((m.heap.modifyPayload a f).get? b) = some w := hw
    rw [Heap.modifyPayload, Heap.get?_modifyValue] at hget
    split at hget
    · obtain ⟨v, hv, rfl⟩ := Option.map_eq_some_iff.1 hget
      intro s hs
      exact h b v hv s ((hf v.payload).symm.trans hs)
    · exact h b w hget

end Machine.TextsFit

/-! ## 2. Modest computations -/

/-- A computation that places no text beyond the limit, up to its first stop and after every answer
that came without one. -/
def Step.Modest {α : Type} : Step α → Prop
  | .done m _ | .fault m _ | .defect m _ => m.TextsFit
  | .call m _ resume => m.TextsFit ∧ ∀ m' r, m'.TextsFit → (resume m' r).Modest

namespace Step.Modest

variable {α β : Type} {s : Step α}

theorem bind (h : s.Modest) {f : α → Machine → Step β}
    (hf : ∀ a m, m.TextsFit → (f a m).Modest) : (s.bind f).Modest := by
  induction s with
  | done m a => exact hf a m h
  | fault m k => exact h
  | defect m d => exact h
  | call m q resume ih => exact ⟨h.1, fun m' r hm' => ih m' r (h.2 m' r hm')⟩

theorem attempt (h : s.Modest) : s.attempt.Modest := by
  induction s with
  | done m a => exact h
  | fault m k => exact h
  | defect m d => exact h
  | call m q resume ih => exact ⟨h.1, fun m' r hm' => ih m' r (h.2 m' r hm')⟩

theorem onExit (h : s.Modest) {g : Machine → Machine}
    (hg : ∀ m : Machine, m.TextsFit → (g m).TextsFit) : (s.onExit g).Modest := by
  induction s with
  | done m a => exact hg m h
  | fault m k => exact hg m h
  | defect m d => exact h
  | call m q resume ih => exact ⟨h.1, fun m' r hm' => ih m' r (h.2 m' r hm')⟩

end Step.Modest

/-- A computation that places no text beyond the limit, from any machine without one. -/
def Effect.Modest {α : Type} (x : Effect α) : Prop := ∀ m : Machine, m.TextsFit → (x m).Modest

namespace Effect.Modest

variable {α β : Type} {x : Effect α}

theorem pure (a : α) : Modest (Pure.pure a : Effect α) := fun _ hm => hm

theorem bind {f : α → Effect β} (hx : x.Modest) (hf : ∀ a, (f a).Modest) : (x >>= f).Modest :=
  fun m hm => (hx m hm).bind fun a m' hm' => hf a m' hm'

theorem map (g : α → β) (hx : x.Modest) : (g <$> x).Modest := bind hx fun a => pure (g a)

theorem raise (k : FaultKind) : Modest (Effect.raise k : Effect α) := fun _ hm => hm

theorem raiseWith (kind : Machine → FaultKind) : Modest (Effect.raiseWith kind : Effect α) :=
  fun _ hm => hm

theorem read (f : Machine → α) : Modest (Effect.read f) := fun _ hm => hm

theorem readOrRaise (f : Machine → Except FaultKind α) : Modest (Effect.readOrRaise f) := by
  intro m hm
  unfold Effect.readOrRaise
  split
  · exact hm
  · exact hm

theorem readOrDefect (f : Machine → Except Defect α) : Modest (Effect.readOrDefect f) := by
  intro m hm
  unfold Effect.readOrDefect
  split
  · exact hm
  · exact hm

theorem value (r : Ref) : Modest (Effect.value r) := readOrDefect _

theorem raiseAbout (r : Ref) (kind : String → FaultKind) :
    Modest (Effect.raiseAbout r kind : Effect α) :=
  bind (readOrDefect _) fun _ => raise _

theorem demand (condition : Bool) (d : Defect) : Modest (Effect.demand condition d) := by
  intro m hm
  unfold Effect.demand
  split
  · exact hm
  · exact hm

theorem modify {f : Machine → Machine} (hf : ∀ m : Machine, m.TextsFit → (f m).TextsFit) :
    Modest (Effect.modify f) :=
  hf

theorem changeTypes (f : TypeTable → α × TypeTable) : Modest (Effect.changeTypes f) :=
  fun _ hm => hm

theorem root (r : Ref) : Modest (Effect.root r) := modify fun _ hm => hm.root r

/-- An allocation of a text within the limit, or of another value. -/
theorem allocate {v : Value} (hv : v.TextFits) : Modest (Effect.allocate v) := by
  intro m hm
  have hfit := hm.tryAllocate hv
  unfold Effect.allocate
  generalize m.tryAllocate v = result at hfit
  obtain ⟨result, m'⟩ := result
  cases result with
  | ok r => exact hfit
  | error why => exact hfit

theorem request (q : Request) : Modest (Effect.request q) := by
  refine fun m hm => ⟨hm, fun m' r hm' => ?_⟩
  cases r with
  | ok v => exact hm'
  | error k => exact hm'

theorem call (callable : Callable) (args : List Ref) (location : Location) :
    Modest (Effect.call callable args location) :=
  request _

theorem withRoots (hx : x.Modest) : (Effect.withRoots x).Modest :=
  fun m hm => (hx m hm).onExit fun _ hm' => hm'

theorem inRendering (hx : x.Modest) : (Effect.inRendering x).Modest :=
  fun m hm => (hx { m with renderDepth := m.renderDepth + 1 } hm).onExit fun _ hm' => hm'

theorem inCall (frame : CallFrame) (hx : x.Modest) : (Effect.inCall frame x).Modest := by
  have hbegin : (beginCall frame).Modest := by
    intro m hm
    unfold beginCall
    simp only
    split
    · exact hm
    · exact hm
  have hend : endCall.Modest := by
    intro m hm
    unfold endCall
    split
    · exact hm
    · exact hm
  exact bind hbegin fun _ => bind (fun m hm => (hx m hm).attempt) fun outcome =>
    bind hend fun _ => readOrRaise _

/-! ## 3. Calls and renderings -/

theorem callOnType (type : TypeId) (method : Name) (receiver : Ref) (args : List Ref)
    (location : Location) : Modest (Effect.callOnType type method receiver args location) :=
  bind (readOrRaise _) fun callable => call callable _ location

theorem callMethod (receiver : Ref) (method : Name) (args : List Ref) (location : Location) :
    Modest (Effect.callMethod receiver method args location) :=
  bind (value receiver) fun _ => bind (read _) fun _ => callOnType _ method receiver args location

theorem callKnown (method : MethodNames → Name) (receiver : Ref) (args : List Ref)
    (location : Location) : Modest (Effect.callKnown method receiver args location) :=
  bind (read _) fun name => callMethod receiver name args location

theorem callValue (callee : Ref) (args : List Ref) (location : Location) :
    Modest (Effect.callValue callee args location) := by
  refine bind (value callee) fun v => ?_
  split
  · exact call _ args location
  · exact bind (read _) fun new => callOnType _ new callee args location
  · exact raiseAbout callee _

theorem enterNative (f : NativeFunction) (args : List Ref) (location : Location)
    {body : Effect Ref} (hbody : body.Modest) :
    (Effect.enterNative f args location body).Modest := by
  unfold Effect.enterNative
  split
  · exact inCall _ hbody
  · exact raiseWith _

theorem textOrPlain (r : Ref) : Modest (Effect.textOrPlain r) := by
  refine bind (value r) fun v => ?_
  split
  · exact pure _
  · exact readOrDefect _

theorem render (r : Ref) : Modest (Effect.render r) := by
  refine bind (read _) fun method => bind (withRoots ?_) fun text => textOrPlain text
  exact bind (root r) fun _ => callMethod r method [] _

theorem renderAll (rs : List Ref) (texts : List String) : Modest (Effect.renderAll rs texts) := by
  induction rs generalizing texts with
  | nil => exact pure _
  | cons r rest ih => exact bind (render r) fun text => ih (text :: texts)

theorem renderBuiltin (r : Ref) : Modest (Effect.renderBuiltin r) := by
  refine bind (value r) fun v => ?_
  split
  · refine bind (read _) fun depth => ?_
    split
    · exact pure _
    · exact bind (inRendering (renderAll _ [])) fun texts => pure _
  · exact readOrDefect _

theorem renderDbg (r : Ref) : Modest (Effect.renderDbg r) := by
  refine bind (readOrDefect _) fun type => bind (value r) fun v => ?_
  split
  · exact pure _
  · exact bind (render r) fun text => pure _

/-! ## 4. Bodies that place no text -/

theorem allocateInt (i : Int64) : Modest (Effect.allocate (.ofInt i)) := allocate nofun

theorem allocateReal (d : Double) : Modest (Effect.allocate (.ofReal d)) := allocate nofun

theorem allocateVector (items : Array Ref) : Modest (Effect.allocate (.ofVector items)) :=
  allocate nofun

theorem allocateOrRaise (result : Except FaultKind NumericResult) :
    Modest (Effect.allocateOrRaise result) := by
  cases result with
  | error k => exact raise k
  | ok result =>
    cases result with
    | int i => exact allocateInt i
    | real d => exact allocateReal d
    | bool b => exact pure _

theorem constructedType (receiver : Ref) : Modest (Effect.constructedType receiver) :=
  bind (value receiver) fun _ => pure _

theorem newObject (receiver : Ref) (args : List Ref) : Modest (Effect.newObject receiver args) := by
  refine bind (constructedType receiver) fun type => bind (read _) fun info => ?_
  cases info with
  | none => exact pure _
  | some info =>
    simp only
    split
    · exact raiseWith _
    · split
      · exact raiseWith _
      · have hfields : Modest (Effect.allocate ⟨type, .fields
            (args.toArray ++ Array.replicate (info.members.size - args.length) Ref.nil)⟩) :=
          allocate nofun
        refine bind (changeTypes _) fun closed => ?_
        cases closed with
        | error why => exact bind (raise _) fun _ => hfields
        | ok _ => exact hfields

theorem numericMethod (op : BinaryOp) (l r : Ref) : Modest (Effect.numericMethod op l r) := by
  refine bind (value l) fun a => bind (value r) fun b => ?_
  split
  · exact allocateOrRaise _
  · exact pure _

theorem negateMethod (r : Ref) : Modest (Effect.negateMethod r) := by
  refine bind (value r) fun v => ?_
  split
  · exact allocateOrRaise _
  · exact pure _

theorem newNumber (receiver : Ref) (args : List Ref) : Modest (Effect.newNumber receiver args) := by
  have hsource : ∀ target, (constructedFrom target args).Modest := by
    intro target
    unfold constructedFrom
    split
    · exact pure _
    · refine bind (value _) fun v => ?_
      split
      · exact pure _
      · exact raiseAbout _ _
    · exact raiseWith _
  refine bind (constructedType receiver) fun target => bind (hsource target) fun source => ?_
  split
  · exact allocateReal _
  · split
    · exact allocateInt _
    · exact allocateInt _

theorem hashValue (r : Ref) : Modest (Effect.hashValue r) :=
  bind (value r) fun _ => bind (read _) fun _ => allocateInt _

/-- An operation on the number that a value is. -/
theorem onNumber (op : String) (r : Ref) {f : Number → Effect Ref} (hf : ∀ n, (f n).Modest) :
    (expectNumber op r >>= f).Modest := by
  refine bind (bind (value r) fun v => ?_) hf
  split
  · exact pure _
  · exact raiseAbout r _

theorem textMethod (test : Comparison) (l r : Ref) : Modest (Effect.textMethod test l r) := by
  refine bind (bind (value l) fun a => ?_) fun pair => ?_
  · split
    · exact pure _
    · exact bind (value r) fun b => pure _
  · split
    · exact pure _
    · exact pure _

theorem lengthOfText (r : Ref) : Modest (Effect.lengthOfText r) := by
  refine bind (value r) fun v => ?_
  split
  · exact allocateInt _
  · exact pure _

theorem appendVectors (l r : Ref) : Modest (Effect.appendVectors l r) := by
  refine bind (value l) fun a => bind (value r) fun b => ?_
  split
  · exact allocateVector _
  · exact pure _

theorem pushElement (r item : Ref) : Modest (Effect.pushElement r item) := by
  refine bind (value r) fun v => ?_
  split
  · refine bind (modify fun m hm => hm.modifyPayload _ fun p => ?_) fun _ => pure _
    cases p <;> rfl
  · exact pure _

theorem lengthOfVector (r : Ref) : Modest (Effect.lengthOfVector r) := by
  refine bind (value r) fun v => ?_
  split
  · exact allocateInt _
  · exact pure _

theorem sameType (l r : Ref) : Modest (Effect.sameType l r) := by
  refine bind (value l) fun a => ?_
  split
  · exact pure _
  · exact bind (value r) fun b => pure _

/-- Writing to the console, then answering. -/
theorem write (console : Machine → Console) (a : α) :
    Modest (do
      Effect.modify fun m => { m with console := console m }
      Pure.pure a : Effect α) :=
  bind (modify fun _ hm => hm) fun _ => pure a

theorem debug (r : Ref) : Modest (Effect.debug r) :=
  bind (callKnown _ r [] _) fun shown => bind (textOrPlain shown) fun _ => write _ r

theorem collectNow : Modest Effect.collectNow := by
  refine bind (fun m hm => ?_) fun freed => allocateInt _
  unfold Effect.collectGarbage
  split
  · next hcollect => exact hm.of_get? fun _ _ => Machine.get?_collectKeeping hcollect
  · exact hm

theorem onFirst (args : List Ref) {body : Ref → Effect Ref} (h : ∀ r, (body r).Modest) :
    (ScriptMachine.onFirst args body).Modest :=
  bind (demand _ _) fun _ => h _

theorem onOne (args : List Ref) {body : Ref → Effect Ref} (h : ∀ r, (body r).Modest) :
    (ScriptMachine.onOne args body).Modest := by
  unfold ScriptMachine.onOne
  split
  · exact h _
  · exact pure _

theorem onTwo (args : List Ref) (otherwise : Ref) {body : Ref → Ref → Effect Ref}
    (h : ∀ l r, (body l r).Modest) : (ScriptMachine.onTwo args otherwise body).Modest := by
  unfold ScriptMachine.onTwo
  split
  · exact h _ _
  · exact pure _

theorem onReceiver (args : List Ref) {body : Ref → List Ref → Effect Ref}
    (h : ∀ r rest, (body r rest).Modest) : (ScriptMachine.onReceiver args body).Modest := by
  unfold ScriptMachine.onReceiver
  split
  · exact h _ _
  · exact pure _

end Effect.Modest

/-! ## 5. Repetition and elements -/

/-- A text `n` times over has `n` times as many bytes. -/
theorem utf8ByteSize_repeated (s : String) (n : Nat) :
    (repeated s n).utf8ByteSize = s.utf8ByteSize * n := by
  fun_induction repeated s n with
  | case1 => simp
  | case2 n hn half heven ih =>
    rw [String.utf8ByteSize_append, ih, ← Nat.mul_add]
    congr 1
    omega
  | case3 n hn half hodd ih =>
    rw [String.utf8ByteSize_append, String.utf8ByteSize_append, ih, ← Nat.mul_add, ← Nat.mul_succ]
    congr 1
    omega

/-- The bytes of the result are counted beforehand. -/
theorem Effect.Modest.repeatText (l r : Ref) : Modest (Effect.repeatText l r) := by
  refine bind (value l) fun a => bind (value r) fun b => ?_
  split
  · next s n _ _ =>
    split
    · exact raise _
    · split
      · exact raise _
      · next hsize =>
        refine allocate fun t ht => ?_
        obtain rfl := Option.some.inj ht
        rw [utf8ByteSize_repeated]
        exact Nat.le_of_not_lt hsize
  · exact pure _

/-- An element of a text is one character. -/
theorem Effect.Modest.indexOp (object index : Ref) (location : Location) :
    Modest (Effect.indexOp object index location) := by
  have helement : ∀ {α : Type} (i : Int64) (length : Nat) (get : Nat → Option α),
      (elementAt i length get).Modest := by
    intro α i length get
    unfold elementAt
    split
    · exact pure _
    · exact raise _
  refine bind (value index) fun i => ?_
  split
  · exact callKnown _ object [index] location
  · refine bind (value object) fun v => ?_
    split
    · exact helement _ _ _
    · refine bind (helement _ _ _) fun c => allocate fun t ht => ?_
      obtain rfl := Option.some.inj ht
      have hchar : c.toString.utf8ByteSize = c.utf8Size := String.utf8ByteSize_singleton
      have hfour := c.utf8Size_le_four
      rw [hchar, maxTextBytes]
      omega
    · exact callKnown _ object [index] location

/-! ## 6. Bodies that put a text together -/

/-- Both operands of a concatenation as one text; what is no text is rendered first. -/
def Effect.concatenated (l r : Ref) : Effect (Option String) := do
  let a ← value l
  match a.payload.str? with
  | none => pure none
  | some left => do
    let b ← value r
    match b.payload.str? with
    | some right => pure (some (left ++ right))
    | none => do
      let right ← render r
      pure (some (left ++ right))

/-- The name of the type that a value describes, if it describes one. -/
def Effect.describedName (r : Ref) : Effect (Option String) := do
  let v ← value r
  match v.payload.type? with
  | none => pure none
  | some type => do
    let text ← read fun m => m.typeText type
    pure (some text)

/-- Place a text as it is; without one the answer is nil. -/
def Effect.placeText : Option String → Effect Ref
  | some s => allocateText s
  | none => pure .nil

/-- The text that a body puts together and places as it is.  Other bodies, and these on arguments that
they have no use for, have none. -/
def Procedure.composed? (p : Procedure) (args : List Ref) : Option (Effect (Option String)) :=
  match p, args with
  | .objectStr, [v] => some (some <$> renderBuiltin v)
  | .objectDbg, [v] => some (some <$> renderDbg v)
  | .textAdd, [l, r] => some (concatenated l r)
  | .textNew, _ :: arg :: _ => some (some <$> render arg)
  | .typeName, [v] => some (describedName v)
  | .string, v :: _ => some (some <$> render v)
  | _, _ => none

section Composed

variable {p : Procedure} {args : List Ref} {x : Effect (Option String)}

theorem Effect.bind_assoc {α β γ : Type} (x : Effect α) (f : α → Effect β) (g : β → Effect γ) :
    (x >>= f) >>= g = x >>= fun a => f a >>= g :=
  funext fun m => Step.bind_assoc (x m) f g

theorem Effect.map_some_placeText (x : Effect String) :
    (some <$> x) >>= placeText = x >>= allocateText :=
  bind_assoc x _ placeText

theorem Effect.concat_eq (l r : Ref) : concat l r = concatenated l r >>= placeText := by
  rw [concat, concatenated, bind_assoc]
  congr 1
  funext a
  cases a.payload.str? with
  | none => rfl
  | some left =>
    simp only [bind_assoc]
    congr 1
    funext b
    cases b.payload.str? with
    | none => exact (bind_assoc (render r) (fun right => pure (some (left ++ right))) placeText).symm
    | some right => rfl

theorem Effect.nameOfType_eq (r : Ref) : nameOfType r = describedName r >>= placeText := by
  rw [nameOfType, describedName, bind_assoc]
  congr 1
  funext v
  cases v.payload.type? with
  | none => rfl
  | some type => rfl

theorem Effect.Modest.concatenated (l r : Ref) : Modest (Effect.concatenated l r) := by
  refine bind (value l) fun a => ?_
  split
  · exact pure _
  · refine bind (value r) fun b => ?_
    split
    · exact pure _
    · exact bind (render r) fun right => pure _

theorem Effect.Modest.describedName (r : Ref) : Modest (Effect.describedName r) := by
  refine bind (value r) fun v => ?_
  split
  · exact pure _
  · exact bind (read _) fun text => pure _

/-- **A composing body** places no text until it has its own, and places that one whatever its size. -/
theorem Procedure.of_composed? (h : p.composed? args = some x) :
    x.Modest ∧ p.run args = x >>= placeText := by
  unfold composed? at h
  split at h
  · obtain rfl := Option.some.inj h
    exact ⟨.map _ (.renderBuiltin _), (map_some_placeText _).symm⟩
  · obtain rfl := Option.some.inj h
    exact ⟨.map _ (.renderDbg _), (map_some_placeText _).symm⟩
  · obtain rfl := Option.some.inj h
    exact ⟨.concatenated _ _, concat_eq _ _⟩
  · obtain rfl := Option.some.inj h
    exact ⟨.map _ (.render _), (map_some_placeText _).symm⟩
  · obtain rfl := Option.some.inj h
    exact ⟨.describedName _, nameOfType_eq _⟩
  · obtain rfl := Option.some.inj h
    exact ⟨.map _ (.render _), (map_some_placeText _).symm⟩
  · cases h

end Composed

/-- **All other bodies are modest.** -/
theorem Procedure.modest_run {p : Procedure} {args : List Ref} (h : p.composed? args = none) :
    (p.run args).Modest := by
  cases p with
  | objectNil => exact .pure _
  | objectEq => exact .onTwo args _ fun _ _ => .pure _
  | objectNe => exact .onTwo args _ fun _ _ => .pure _
  | objectHash => exact .onOne args .hashValue
  | objectNew => exact .onReceiver args .newObject
  | nilNew => exact .pure _
  | boolNot => exact .onOne args fun _ => .pure _
  | boolNew => exact .pure _
  | numeric op => exact .onTwo args _ (.numericMethod op)
  | numericNeg => exact .onOne args .negateMethod
  | numericNew => exact .onReceiver args .newNumber
  | textRepeat => exact .onTwo args _ .repeatText
  | textCompare test => exact .onTwo args _ (.textMethod test)
  | textLength => exact .onOne args .lengthOfText
  | vectorAdd => exact .onTwo args _ .appendVectors
  | vectorPush => exact .onTwo args _ .pushElement
  | vectorLength => exact .onOne args .lengthOfVector
  | vectorNew => exact .allocateVector _
  | typeEq => exact .onTwo args _ fun l r => .bind (.sameType l r) fun _ => .pure _
  | typeNe => exact .onTwo args _ fun l r => .bind (.sameType l r) fun _ => .pure _
  | print => exact .bind (.bind (.renderAll args []) fun _ => .pure _) fun _ => .write _ _
  | printLine => exact .bind (.bind (.renderAll args []) fun _ => .pure _) fun _ => .write _ _
  | typeOf => exact .onFirst args fun r => .bind (.value r) fun _ => .allocate nofun
  | hash => exact .onFirst args fun r => .callKnown _ r [] _
  | dbg => exact .onFirst args .debug
  | length => exact .onFirst args fun r => .callKnown _ r [] _
  | heapDump => exact .write _ _
  | collectorEnable => exact .bind (.modify fun _ hm => hm) fun _ => .pure _
  | collectorDisable => exact .bind (.modify fun _ hm => hm) fun _ => .pure _
  | collectorIsDisabled => exact .bind (.read _) fun _ => .pure _
  | collect => exact .collectNow
  | liveCount => exact .bind (.read _) fun _ => .allocateInt _
  | sqrt => exact .onFirst args fun r => .onNumber _ r fun _ => .allocateReal _
  | abs => exact .onFirst args fun r => .onNumber _ r fun _ => .allocateOrRaise _
  | floor => exact .onFirst args fun r => .onNumber _ r fun _ => .allocateReal _
  | countArgs => exact .allocateInt _
  | packArgs => exact .allocateVector _
  | firstArg => exact .pure _
  | failing => exact .raise _
  | apply => exact .onReceiver args fun f rest => .callValue f rest _
  -- composing bodies, on a number of arguments that they have no use for
  | objectStr =>
    match args, h with
    | [], _ | _ :: _ :: _, _ => exact .pure _
  | objectDbg =>
    match args, h with
    | [], _ | _ :: _ :: _, _ => exact .pure _
  | textAdd =>
    match args, h with
    | [], _ | [_], _ | _ :: _ :: _ :: _, _ => exact .pure _
  | textNew =>
    match args, h with
    | [], _ | [_], _ => exact .allocate fun s hs => Option.some.inj hs ▸ Nat.zero_le _
  | typeName =>
    match args, h with
    | [], _ | _ :: _ :: _, _ => exact .pure _
  | string =>
    match args, h with
    | [], _ => exact fun _ hm => hm

/-! ## 7. What is placed and what is refused -/

namespace Machine

variable {m : Machine}

/-- **A text is placed as it is**, unless all slots are in use.  The limit is kept exactly if the text
is within it. -/
theorem allocateText_cases (hw : m.heap.WellFormed) (hfit : m.TextsFit) (s : String) :
    (∃ m' a, allocateText s m = .done m' (.heap a) ∧ m'.heap.get? a = some (.ofStr s) ∧
      (m'.TextsFit ↔ s.utf8ByteSize ≤ maxTextBytes)) ∨
    (Heap.maxSlots ≤ m.heap.live ∧
      ∃ m', allocateText s m = .defect m' (.heapExhausted .allocFailed)) := by
  unfold allocateText allocate
  rcases tryAllocate_cases hw (.ofStr s) with ⟨a, m', ha⟩ | ⟨m', hfull, hmax, hlive⟩
  · refine .inl ⟨m', a, by rw [ha.eq], ha.get?_eq, fun h => h a _ ha.get?_eq s rfl, fun hs => ?_⟩
    have hkept := hfit.tryAllocate (v := .ofStr s) fun t ht => Option.some.inj ht ▸ hs
    rwa [ha.eq] at hkept
  · exact .inr ⟨hmax.trans hlive, m', by rw [hfull]; rfl⟩

variable {l r : Ref} {s t : String} {n : Int64}

theorem concat_texts (hl : m.resolve l = .ok (.ofStr s)) (hr : m.resolve r = .ok (.ofStr t)) :
    concat l r m = allocateText (s ++ t) m := by
  rw [concat, bind_value hl]
  exact bind_value hr _

/-- **Repetition refuses exactly what is beyond the limit**, and leaves the machine as it is then. -/
theorem repeatText_text (hl : m.resolve l = .ok (.ofStr s)) (hr : m.resolve r = .ok (.ofInt n))
    (hn : 0 ≤ n.toInt) :
    repeatText l r m =
      if maxTextBytes < (repeated s n.toInt.toNat).utf8ByteSize then
        .fault m (.sizeLimit "*" maxTextBytes)
      else allocateText (repeated s n.toInt.toNat) m := by
  have hnot : ¬n.toInt < 0 := by omega
  rw [utf8ByteSize_repeated, repeatText, bind_value hl, bind_value hr]
  simp only [Value.ofStr, Value.ofInt, Payload.str?, Payload.int?, if_neg hnot]
  split
  · rfl
  · rfl

/-- **The sizes of the texts that native calls place.**  Take a machine with a well-formed heap, as
every machine that comes about has, and no text beyond the limit.

Every native call keeps the limit itself, however it is answered, unless its body puts a text together;
so does every access to an element.  Repetition is among them: it refuses a result exactly if that is
beyond the limit, and changes nothing then.  A body that puts a text together keeps the limit until it
has the text, and then places it as it is: no size is refused, and afterwards the limit is kept only if
the text is within it.  In particular two texts of any size are concatenated. -/
theorem builtin_text_sizes (hw : m.heap.WellFormed) (hfit : m.TextsFit) :
    (∀ (f : NativeFunction) (args : List Ref) (location : Location),
      f.procedure.composed? args = none →
        (enterNative f args location (f.procedure.run args) m).Modest) ∧
    (∀ (object index : Ref) (location : Location), (indexOp object index location m).Modest) ∧
    (∀ (l r : Ref) (s : String) (n : Int64), m.resolve l = .ok (.ofStr s) →
      m.resolve r = .ok (.ofInt n) → 0 ≤ n.toInt → repeatText l r m =
        if maxTextBytes < (repeated s n.toInt.toNat).utf8ByteSize then
          .fault m (.sizeLimit "*" maxTextBytes)
        else allocateText (repeated s n.toInt.toNat) m) ∧
    (∀ (p : Procedure) (args : List Ref) (x : Effect (Option String)), p.composed? args = some x →
      (x m).Modest ∧ p.run args = x >>= placeText) ∧
    (∀ s : String,
      (∃ m' a, allocateText s m = .done m' (.heap a) ∧ m'.heap.get? a = some (.ofStr s) ∧
        (m'.TextsFit ↔ s.utf8ByteSize ≤ maxTextBytes)) ∨
      (Heap.maxSlots ≤ m.heap.live ∧
        ∃ m', allocateText s m = .defect m' (.heapExhausted .allocFailed))) ∧
    ∀ (l r : Ref) (s t : String), m.resolve l = .ok (.ofStr s) → m.resolve r = .ok (.ofStr t) →
      concat l r m = allocateText (s ++ t) m := by
  refine ⟨fun f args location h => ?_, fun object index location => ?_, fun l r s n hl hr hn => ?_,
    fun p args x h => ?_, fun s => ?_, fun l r s t hl hr => ?_⟩
  · exact Modest.enterNative f args location (Procedure.modest_run h) m hfit
  · exact Modest.indexOp object index location m hfit
  · exact repeatText_text hl hr hn
  · exact (Procedure.of_composed? h).imp_left fun hx => hx m hfit
  · exact allocateText_cases hw hfit s
  · exact concat_texts hl hr

/-- On a machine that comes about there is a text of just the largest size and no larger one.  Added to
itself it is twice as large, and is placed. -/
theorem builtin_text_sizes_concat :
    ∃ (m : Machine) (r : Ref) (s : String), m.Arises ∧ m.TextsFit ∧ m.resolve r = .ok (.ofStr s) ∧
      s.utf8ByteSize = maxTextBytes ∧ ∃ m' a, concat r r m = .done m' (.heap a) ∧
        m'.heap.get? a = some (.ofStr (s ++ s)) ∧ ¬m'.TextsFit := by
  obtain ⟨s, hs⟩ : ∃ s : String, s.utf8ByteSize = maxTextBytes :=
    ⟨repeated "x" maxTextBytes, (utf8ByteSize_repeated _ _).trans (Nat.one_mul _)⟩
  obtain ⟨m₀, hm₀⟩ : ∃ m₀ : Machine, m₀ = boot .default (NameTable.initial.internAll []).2 :=
    ⟨_, rfl⟩
  have hnew : m₀.Arises := ⟨.default, [], m₀, hm₀ ▸ .refl, .refl m₀⟩
  obtain ⟨hslots, hlive⟩ : m₀.heap.slots.all Slot.isNoText = true ∧ m₀.heap.live = 28 := by
    rw [hm₀]
    decide +kernel
  rcases tryAllocate_cases hnew.regular.wellFormed (.ofStr s) with ⟨a, m, ha⟩ | ⟨m, -, hmax, hle⟩
  swap
  · rw [hlive] at hle
    exact absurd (hmax.trans hle) (by decide)
  have hm : m = (m₀.tryAllocate (.ofStr s)).2 := by rw [ha.eq]
  have hmoment : m₀.Passes m := hm ▸ (Act.allocate (.str s)).passes
  have harises : m.Arises := ⟨.default, [], m₀, hm₀ ▸ .refl, hmoment⟩
  have hfit : m.TextsFit :=
    hm ▸ (TextsFit.of_slots hslots).tryAllocate fun t ht => Option.some.inj ht ▸ hs.le
  have hr : m.resolve (.heap a) = .ok (.ofStr s) := by rw [resolve, ha.get?_eq]
  refine ⟨m, .heap a, s, harises, hfit, hr, hs, ?_⟩
  obtain ⟨-, -, -, -, hplaced, hconcat⟩ := builtin_text_sizes harises.regular.wellFormed hfit
  rw [hconcat _ _ s s hr hr]
  rcases hplaced (s ++ s) with ⟨m', b, hdone, hget, hiff⟩ | ⟨hfull, -⟩
  · refine ⟨m', b, hdone, hget, fun h => ?_⟩
    have hsize := hiff.1 h
    rw [String.utf8ByteSize_append, hs, maxTextBytes] at hsize
    omega
  · have hroom := ha.live_le
    rw [Heap.maxSlots] at hfull
    omega

end Machine

end ScriptMachine
