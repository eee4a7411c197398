/-
# Copies, calls, renderings and native bodies are orderly

Each definition that a native body or a call is made of does nothing but act.  The proofs follow the
definitions, one rule for each line.  Three places need more than the rules: what is copied is on the
heap, what `type` answers is the type of a value that is there, and a new instance is of a type that
was just sealed, with a slot for each of its members.

* `Machine.follows_copyFrom`: a copy, step by step;
* `Effect.Orderly.newObject`: the constructor of user types;
* `Effect.Orderly.run`: every native body.
-/
import ScriptMachine.Machine.Builtin.Procedure
import ScriptMachine.Proofs.Conduct.Acts

namespace ScriptMachine

/-! ## 1. Copies -/

/-- A value that has to be visited is on the heap: singletons have a copy beforehand. -/
def CopyState.OnHeap : CopyState → Prop
  | .visit element _ => ∃ h, element = .heap h
  | .finished _ | .stuck _ => True

theorem Copies.onHeap_of_known? {copies : Copies} {r : Ref} (h : copies.known? r = none) :
    ∃ a, r = .heap a := by
  cases r with
  | nil => cases h
  | bool b => cases h
  | heap a => exact ⟨a, rfl⟩

namespace Machine

/-- Storing copies along the containers under way is a sequence of acts. -/
theorem proceeds_store (m : Machine) (copies : Copies) (copy : Ref) (pending : List Pending) :
    m.Proceeds true (m.store copies copy pending).2 ∧
      (m.store copies copy pending).1.OnHeap := by
  fun_induction Machine.store m copies copy pending with
  | case1 m copy => exact ⟨.refl m, trivial⟩
  | case2 m copy shell position elements outer d hstale => exact ⟨.refl m, trivial⟩
  | case3 m copy shell position outer hstale m' ih =>
    exact ⟨.trans (.act (.store m shell position copy)) ih.1, ih.2⟩
  | case4 m copy shell position outer hstale m' last ih =>
    exact ⟨.trans (.act (.store m shell position copy)) ih.1, ih.2⟩
  | case5 m copy shell position outer hstale m' first next rest pending' known hknown ih =>
    exact ⟨.trans (.act (.store m shell position copy)) ih.1, ih.2⟩
  | case6 m copy shell position outer hstale m' first next rest pending' hknown =>
    exact ⟨.act (.store m shell position copy), Copies.onHeap_of_known? hknown⟩

/-- A copy from any point on: each visit places the value that it found, roots it, and stores. -/
theorem follows_copyFrom (m : Machine) (copies : Copies) (budget : Nat) (state : CopyState)
    (hstate : state.OnHeap) : (m.copyFrom copies budget state).Follows true m := by
  induction budget generalizing m copies state with
  | zero =>
    cases state with
    | finished copy => exact .refl m
    | stuck d => exact .refl m
    | visit element pending => exact .refl m
  | succ budget ih =>
    cases state with
    | finished copy => exact .refl m
    | stuck d => exact .refl m
    | visit element pending =>
      obtain ⟨h, rfl⟩ := hstate
      have hstore : ∀ (m₁ m₂ : Machine) (copies : Copies) (copy : Ref) (pending : List Pending),
          m₁.Proceeds true m₂ → ((m₂.store copies copy pending).2.copyFrom copies budget
            (m₂.store copies copy pending).1).Follows true m₁ := by
        intro m₁ m₂ copies copy pending hm
        obtain ⟨hproceeds, hheap⟩ := m₂.proceeds_store copies copy pending
        exact .of_proceeds (hm.trans hproceeds) (ih _ copies _ hheap)
      unfold Machine.copyFrom
      cases hresolve : m.resolve (.heap h) with
      | error d => exact .refl m
      | ok value =>
        have hmakes : m.Makes value := by
          simp only [resolve] at hresolve
          split at hresolve
          · next v hv =>
            obtain rfl := Except.ok.inj hresolve
            exact .copy hv
          · cases hresolve
        have hact : m.Proceeds true (m.tryAllocate value).2 := .act (.allocate hmakes)
        simp only
        generalize m.tryAllocate value = result at hact
        obtain ⟨result, m'⟩ := result
        cases result with
        | error why => exact .proceeds hact
        | ok copy =>
          have hroot : m.Proceeds true (m'.root copy) := hact.trans (.root m' copy)
          simp only
          split
          · exact hstore _ _ _ _ _ hroot
          · split
            · next hknown => exact .of_proceeds hroot (ih _ _ _ (Copies.onHeap_of_known? hknown))
            · exact hstore _ _ _ _ _ hroot

end Machine

namespace Effect

variable {α β : Type} {rooting : Bool}

theorem Orderly.duplicate (r : Ref) : Orderly true (duplicate r) := by
  intro m
  cases r with
  | nil => exact .refl m
  | bool b => exact .refl m
  | heap h => exact m.follows_copyFrom _ _ _ ⟨h, rfl⟩

/-! ## 2. Calls -/

theorem Orderly.callOnType (type : TypeId) (method : Name) (receiver : Ref) (args : List Ref)
    (location : Location) : Orderly rooting (callOnType type method receiver args location) :=
  .bind (.readOrRaise _) fun callable => .call callable _ location

theorem Orderly.callMethod (receiver : Ref) (method : Name) (args : List Ref)
    (location : Location) : Orderly rooting (callMethod receiver method args location) :=
  .bind (.value receiver) fun _ => .bind (.read _) fun _ => .callOnType _ method receiver args location

theorem Orderly.callKnown (method : MethodNames → Name) (receiver : Ref) (args : List Ref)
    (location : Location) : Orderly rooting (callKnown method receiver args location) :=
  .bind (.read _) fun name => .callMethod receiver name args location

theorem Orderly.callValue (callee : Ref) (args : List Ref) (location : Location) :
    Orderly rooting (callValue callee args location) := by
  refine .bind (.value callee) fun v => ?_
  split
  · exact .call _ args location
  · exact .bind (.read _) fun new => .callOnType _ new callee args location
  · exact .raiseAbout callee _

theorem Orderly.raiseArity (name : Name) (expected got : Nat) :
    Orderly rooting (raiseArity name expected got : Effect α) :=
  .raiseWith _

theorem Orderly.enterNative (f : NativeFunction) (args : List Ref) (location : Location)
    {body : Effect Ref} (hbody : body.Orderly rooting) :
    Orderly rooting (enterNative f args location body) := by
  unfold Effect.enterNative
  split
  · exact .inCall _ hbody
  · exact .raiseArity _ _ _

theorem Orderly.copyArgs (args copies : List Ref) : Orderly true (copyArgs args copies) := by
  induction args generalizing copies with
  | nil => exact .pure _
  | cons arg rest ih =>
    exact .bind (.duplicate arg) fun copy => .bind (.root copy) fun _ => ih (copy :: copies)

theorem Orderly.allocateVector (items : Array Ref) :
    Orderly rooting (Effect.allocate (.ofVector items)) :=
  .allocate fun _ => .vector items

theorem Orderly.arrange (f : UserFunction) (copies : List Ref) : Orderly true (arrange f copies) := by
  unfold Effect.arrange
  split
  · exact .bind (.demand _ _) fun _ => .bind (.allocateVector _) fun rest =>
      .bind (.root rest) fun _ => .pure _
  · exact .pure _

theorem Orderly.bindParams (location : Location) (names : List Name) (values : List Ref) :
    Orderly rooting (bindParams location names values) := by
  induction names generalizing values with
  | nil => exact .pure _
  | cons name names ih =>
    cases values with
    | nil => exact .pure _
    | cons value values => exact .bind (.bindName name _) fun _ => ih values

theorem Orderly.evalStatements (last : Ref) (statements : List Node) :
    Orderly rooting (evalStatements last statements) := by
  induction statements generalizing last with
  | nil => exact .pure last
  | cons statement rest ih => exact .bind (.eval statement) fun v => ih v

theorem Orderly.enterUser (f : UserFunction) (args : List Ref) (location : Location) :
    Orderly rooting (enterUser f args location) := by
  unfold Effect.enterUser
  split
  · refine .inCall _ (.withRoots (.bind (.copyArgs args []) fun copies =>
      .bind (.arrange f copies) fun values => .inFunctionScope _ ?_))
    exact .bind (.bindParams _ _ values) fun _ => .evalStatements _ _
  · exact .raiseArity _ _ _

/-! ## 3. Renderings -/

theorem Orderly.renderPlain (r : Ref) : Orderly rooting (renderPlain r) := .readOrDefect _

theorem Orderly.textOrPlain (r : Ref) : Orderly rooting (textOrPlain r) := by
  refine .bind (.value r) fun v => ?_
  split
  · exact .pure _
  · exact .renderPlain r

theorem Orderly.render (r : Ref) : Orderly rooting (render r) := by
  refine .bind (.read _) fun method => .bind (.withRoots ?_) fun text => .textOrPlain text
  exact .bind (.root r) fun _ => .callMethod r method [] _

theorem Orderly.renderAll (rs : List Ref) (texts : List String) :
    Orderly rooting (renderAll rs texts) := by
  induction rs generalizing texts with
  | nil => exact .pure _
  | cons r rest ih => exact .bind (.render r) fun text => ih (text :: texts)

theorem Orderly.renderBuiltin (r : Ref) : Orderly rooting (renderBuiltin r) := by
  refine .bind (.value r) fun v => ?_
  split
  · refine .bind (.read _) fun depth => ?_
    split
    · exact .pure _
    · exact .bind (.inRendering (.renderAll _ [])) fun texts => .pure _
  · exact .renderPlain r

theorem Orderly.renderDbg (r : Ref) : Orderly rooting (renderDbg r) := by
  refine .bind (.typeText r) fun type => .bind (.value r) fun v => ?_
  split
  · exact .pure _
  · exact .bind (.render r) fun text => .pure _

/-! ## 4. Methods of every object -/

theorem Orderly.allocateText (s : String) : Orderly rooting (allocateText s) :=
  .allocate fun _ => .str s

theorem Orderly.allocateInt (i : Int64) : Orderly rooting (Effect.allocate (.ofInt i)) :=
  .allocate fun _ => .int i

theorem Orderly.allocateReal (x : Double) : Orderly rooting (Effect.allocate (.ofReal x)) :=
  .allocate fun _ => .real x

theorem Orderly.allocateCount (n : Nat) : Orderly rooting (allocateCount n) := .allocateInt _

theorem Orderly.hashValue (r : Ref) : Orderly rooting (hashValue r) :=
  .bind (.value r) fun _ => .bind (.read _) fun _ => .allocateInt _

theorem Orderly.constructedType (receiver : Ref) : Orderly rooting (constructedType receiver) :=
  .bind (.value receiver) fun _ => .pure _

/-- A type that was sealed just now has the members it had. -/
theorem TypeTable.get?_close {t : TypeTable} {id : TypeId} {info : TypeInfo}
    (hinfo : t.get? id = some info) :
    (t.close id).2.get? id = some { info with isSealed := true } := by
  rw [TypeTable.close_eq (by rw [hinfo]; rfl), TypeTable.get?_modify, if_pos rfl, hinfo]
  rfl

/-- A new instance has a slot for each member of its type, which is sealed before. -/
theorem Orderly.newObject (receiver : Ref) (args : List Ref) :
    Orderly rooting (newObject receiver args) := by
  refine .bind (.constructedType receiver) fun type m => follows_read ?_
  cases hinfo : m.types.get? type with
  | none => exact .refl m
  | some info =>
    simp only
    split
    · exact .refl m
    · next hkind =>
      rw [not_or, Decidable.not_not] at hkind
      split
      · exact .refl m
      · next hargs =>
        refine follows_changeTypes (.close m type) ?_
        cases (m.types.close type).1 with
        | error why => exact .refl _
        | ok _ =>
          refine follows_allocate ?_
          refine .object (TypeTable.get?_close hinfo) hkind.1 hkind.2 rfl ?_
          simp only [Array.size_append, List.size_toArray, Array.size_replicate]
          omega

theorem Orderly.sameType (l r : Ref) : Orderly rooting (sameType l r) := by
  refine .bind (.value l) fun a => ?_
  split
  · exact .pure _
  · exact .bind (.value r) fun b => .pure _

theorem Orderly.nameOfType (r : Ref) : Orderly rooting (nameOfType r) := by
  refine .bind (.value r) fun v => ?_
  split
  · exact .pure _
  · exact .bind (.read _) fun text => .allocateText text

/-! ## 5. Numbers -/

theorem Orderly.allocateOrRaise (result : Except FaultKind NumericResult) :
    Orderly rooting (allocateOrRaise result) := by
  cases result with
  | error kind => exact .raise kind
  | ok result =>
    cases result with
    | int i => exact .allocateInt i
    | real x => exact .allocateReal x
    | bool b => exact .pure _

theorem Orderly.numericMethod (op : BinaryOp) (l r : Ref) :
    Orderly rooting (numericMethod op l r) := by
  refine .bind (.value l) fun a => .bind (.value r) fun b => ?_
  split
  · exact .allocateOrRaise _
  · exact .pure _

theorem Orderly.negateMethod (r : Ref) : Orderly rooting (negateMethod r) := by
  refine .bind (.value r) fun v => ?_
  split
  · exact .allocateOrRaise _
  · exact .pure _

theorem Orderly.toNumber (r : Ref) : Orderly rooting (toNumber r) := by
  refine .bind (.value r) fun v => ?_
  split
  · exact .pure _
  · exact .raiseAbout r _

theorem Orderly.constructedFrom (target : TypeId) (args : List Ref) :
    Orderly rooting (constructedFrom target args) := by
  unfold Effect.constructedFrom
  split
  · exact .pure _
  · exact .toNumber _
  · exact .raiseWith _

theorem Orderly.newNumber (receiver : Ref) (args : List Ref) :
    Orderly rooting (newNumber receiver args) := by
  refine .bind (.constructedType receiver) fun target =>
    .bind (.constructedFrom target args) fun source => ?_
  split
  · exact .allocateReal _
  · split
    · exact .allocateInt _
    · exact .allocateInt _

theorem Orderly.expectNumber (op : String) (r : Ref) : Orderly rooting (expectNumber op r) := by
  refine .bind (.value r) fun v => ?_
  split
  · exact .pure _
  · exact .raiseAbout r _

theorem Orderly.squareRoot (r : Ref) : Orderly rooting (squareRoot r) :=
  .bind (.expectNumber _ r) fun _ => .allocateReal _

theorem Orderly.absolute (r : Ref) : Orderly rooting (absolute r) :=
  .bind (.expectNumber _ r) fun _ => .allocateOrRaise _

theorem Orderly.floorReal (r : Ref) : Orderly rooting (floorReal r) :=
  .bind (.expectNumber _ r) fun _ => .allocateReal _

/-! ## 6. Texts and vectors -/

theorem Orderly.textPair (l r : Ref) : Orderly rooting (textPair l r) := by
  refine .bind (.value l) fun a => ?_
  split
  · exact .pure _
  · exact .bind (.value r) fun b => .pure _

theorem Orderly.concat (l r : Ref) : Orderly rooting (concat l r) := by
  refine .bind (.value l) fun a => ?_
  split
  · exact .pure _
  · refine .bind (.value r) fun b => ?_
    cases b.payload.str? with
    | some s => exact .allocateText _
    | none => exact .bind (.render r) fun right => .allocateText _

theorem Orderly.repeatText (l r : Ref) : Orderly rooting (repeatText l r) := by
  refine .bind (.value l) fun a => .bind (.value r) fun b => ?_
  split
  · split
    · exact .raise _
    · split
      · exact .raise _
      · exact .allocateText _
  · exact .pure _

theorem Orderly.textMethod (test : Comparison) (l r : Ref) :
    Orderly rooting (textMethod test l r) := by
  refine .bind (.textPair l r) fun pair => ?_
  split
  · exact .pure _
  · exact .pure _

theorem Orderly.lengthOfText (r : Ref) : Orderly rooting (lengthOfText r) := by
  refine .bind (.value r) fun v => ?_
  split
  · exact .allocateCount _
  · exact .pure _

theorem Orderly.newText (args : List Ref) : Orderly rooting (newText args) := by
  cases args with
  | nil => exact .allocateText _
  | cons arg rest => exact .bind (.render arg) fun text => .allocateText text

theorem Orderly.appendVectors (l r : Ref) : Orderly rooting (appendVectors l r) := by
  refine .bind (.value l) fun a => .bind (.value r) fun b => ?_
  split
  · exact .allocateVector _
  · exact .pure _

theorem Orderly.pushElement (r item : Ref) : Orderly rooting (pushElement r item) := by
  refine .bind (.value r) fun v => ?_
  split
  · exact .bind (.modify fun m => .append m _ item) fun _ => .pure _
  · exact .pure _

theorem Orderly.lengthOfVector (r : Ref) : Orderly rooting (lengthOfVector r) := by
  refine .bind (.value r) fun v => ?_
  split
  · exact .allocateCount _
  · exact .pure _

/-! ## 7. Global functions -/

/-- Writing to the console, then answering. -/
theorem Orderly.write (text : Machine → String) (a : α) :
    Orderly rooting (do
      Effect.modify fun m => { m with console := m.console.print (text m) }
      Pure.pure a) :=
  .bind (.modify fun m => .write m _) fun _ => .pure a

theorem Orderly.joined (args : List Ref) : Orderly rooting (joined args) :=
  .bind (.renderAll args []) fun _ => .pure _

theorem Orderly.stringOf (r : Ref) : Orderly rooting (stringOf r) :=
  .bind (.render r) fun text => .allocateText text

/-- The type of a value that is there. -/
theorem Orderly.typeOfValue (r : Ref) : Orderly rooting (typeOfValue r) :=
  fun _ => follows_value fun _ hv => follows_allocate (.typeOf hv)

theorem Orderly.callPlain (method : MethodNames → Name) (r : Ref) :
    Orderly rooting (callPlain method r) :=
  .callKnown method r [] _

theorem Orderly.debug (r : Ref) : Orderly rooting (debug r) :=
  .bind (.callPlain _ r) fun shown => .bind (.textOrPlain shown) fun _ => .write _ r

theorem Orderly.collectGarbage : Orderly rooting collectGarbage := by
  intro m
  unfold Effect.collectGarbage
  split
  · next hcollect => exact .act (.collect hcollect)
  · exact .refl m

theorem Orderly.collectNow : Orderly rooting collectNow :=
  .bind .collectGarbage fun freed => .allocateCount freed

/-! ## 8. Native bodies -/

theorem Orderly.onFirst (args : List Ref) {body : Ref → Effect Ref}
    (h : ∀ r, (body r).Orderly rooting) : Orderly rooting (onFirst args body) :=
  .bind (.demand _ _) fun _ => h _

theorem Orderly.onOne (args : List Ref) {body : Ref → Effect Ref}
    (h : ∀ r, (body r).Orderly rooting) : Orderly rooting (onOne args body) := by
  unfold ScriptMachine.onOne
  split
  · exact h _
  · exact .pure _

theorem Orderly.onTwo (args : List Ref) (otherwise : Ref) {body : Ref → Ref → Effect Ref}
    (h : ∀ l r, (body l r).Orderly rooting) : Orderly rooting (onTwo args otherwise body) := by
  unfold ScriptMachine.onTwo
  split
  · exact h _ _
  · exact .pure _

theorem Orderly.onReceiver (args : List Ref) {body : Ref → List Ref → Effect Ref}
    (h : ∀ r rest, (body r rest).Orderly rooting) : Orderly rooting (onReceiver args body) := by
  unfold ScriptMachine.onReceiver
  split
  · exact h _ _
  · exact .pure _

/-- **Every native body is orderly**, on any arguments. -/
theorem Orderly.run (p : Procedure) (args : List Ref) : Orderly rooting (p.run args) := by
  cases p with
  | objectNil => exact .pure _
  | objectEq => exact .onTwo args _ fun _ _ => .pure _
  | objectNe => exact .onTwo args _ fun _ _ => .pure _
  | objectStr => exact .onOne args fun r => .bind (.renderBuiltin r) fun text => .allocateText text
  | objectDbg => exact .onOne args fun r => .bind (.renderDbg r) fun text => .allocateText text
  | objectHash => exact .onOne args .hashValue
  | objectNew => exact .onReceiver args .newObject
  | nilNew => exact .pure _
  | boolNot => exact .onOne args fun _ => .pure _
  | boolNew => exact .pure _
  | numeric op => exact .onTwo args _ (.numericMethod op)
  | numericNeg => exact .onOne args .negateMethod
  | numericNew => exact .onReceiver args .newNumber
  | textAdd => exact .onTwo args _ .concat
  | textRepeat => exact .onTwo args _ .repeatText
  | textCompare test => exact .onTwo args _ (.textMethod test)
  | textLength => exact .onOne args .lengthOfText
  | textNew => exact .newText _
  | vectorAdd => exact .onTwo args _ .appendVectors
  | vectorPush => exact .onTwo args _ .pushElement
  | vectorLength => exact .onOne args .lengthOfVector
  | vectorNew => exact .allocateVector _
  | typeEq => exact .onTwo args _ fun l r => .bind (.sameType l r) fun _ => .pure _
  | typeNe => exact .onTwo args _ fun l r => .bind (.sameType l r) fun _ => .pure _
  | typeName => exact .onOne args .nameOfType
  | print => exact .bind (.joined args) fun text => .write _ _
  | printLine => exact .bind (.joined args) fun text => .write _ _
  | string => exact .onFirst args .stringOf
  | typeOf => exact .onFirst args .typeOfValue
  | hash => exact .onFirst args (.callPlain _)
  | dbg => exact .onFirst args .debug
  | length => exact .onFirst args (.callPlain _)
  | heapDump => exact .write _ _
  | collectorEnable => exact .bind (.modify fun m => .switch m true) fun _ => .pure _
  | collectorDisable => exact .bind (.modify fun m => .switch m false) fun _ => .pure _
  | collectorIsDisabled => exact .bind (.read _) fun _ => .pure _
  | collect => exact .collectNow
  | liveCount => exact .bind (.read _) fun n => .allocateCount n
  | sqrt => exact .onFirst args .squareRoot
  | abs => exact .onFirst args .absolute
  | floor => exact .onFirst args .floorReal
  | countArgs => exact .allocateCount _
  | packArgs => exact .allocateVector _
  | firstArg => exact .pure _
  | failing => exact .raise _
  | apply => exact .onReceiver args fun f rest => .callValue f rest _

end Effect

end ScriptMachine
