/-
# Evaluation is confined

Every definition that a node, a native body or the body of a function is made of is confined:
between its stops it only moves, and it asks for the nodes it was given and for calls of what the
machine holds.  The proofs follow the definitions, one rule for each line.  What has to be looked at
is where callables come from: one that is called was read from the heap or found in a method table
just before, and a function that is made is the one that the node declares.

* `Machine.confined_copyFrom`: a copy, step by step;
* `Effect.Confined.run`: every native body, which asks for no node;
* `Effect.Confined.userBody`: the body of a function, which asks for its statements;
* `Effect.Confined.evalNode`: every node, which asks for its children.
-/
import ScriptMachine.Machine.Run
import ScriptMachine.Proofs.Conduct.Moves

namespace ScriptMachine

/-- The routine that a node declares. -/
def Node.routine? (node : Node) : Option FunctionDef :=
  match node.kind with
  | .function routine | .method _ routine => some routine
  | _ => none

/-! ## 1. What is held -/

namespace Machine

variable {m : Machine}

/-- What a value holds that a reference leads to is on the heap. -/
theorem holds_of_resolve {r : Ref} {v : Value} {c : Callable} (hr : m.resolve r = .ok v)
    (hc : v.payload.callable? = some c) : m.Holds c := by
  cases r with
  | nil =>
    obtain rfl := Except.ok.inj hr
    cases hc
  | bool b =>
    obtain rfl := Except.ok.inj hr
    cases hc
  | heap h =>
    simp only [resolve] at hr
    split at hr
    · next v' hv =>
      obtain rfl := Except.ok.inj hr
      exact .inl ⟨h, v', hv, hc⟩
    · cases hr

/-- A method that was found is in a method table. -/
theorem holds_of_lookupMethod {type : TypeId} {name : Name} {found : Resolved}
    (h : m.types.lookupMethod type name = .ok found) : m.Holds found.entry.callable := by
  unfold TypeTable.lookupMethod at h
  split at h
  · next resolved hfind =>
    obtain rfl := Except.ok.inj h
    obtain ⟨owner, -, hown⟩ := List.exists_of_findSome?_eq_some hfind
    obtain ⟨entry, hentry, rfl⟩ := Option.map_eq_some_iff.1 hown
    obtain ⟨info, hinfo, hmethod⟩ := Option.bind_eq_some_iff.1 hentry
    obtain ⟨⟨n, e⟩, hmem, rfl⟩ := Option.map_eq_some_iff.1 hmethod
    exact .inr ⟨owner, info, n, e, hinfo, List.mem_of_find?_eq_some hmem, rfl⟩
  · cases h

/-! ## 2. Copies -/

variable {given : FunctionDef → Prop} {asks : Node → Prop}

theorem moves_store (m : Machine) (copies : Copies) (copy : Ref) (pending : List Pending) :
    m.Moves given (m.store copies copy pending).2 := by
  fun_induction Machine.store m copies copy pending with
  | case1 m copy => exact .refl m
  | case2 m copy shell position elements outer d hstale => exact .refl m
  | case3 m copy shell position outer hstale m' ih =>
    exact .trans (.single (.store m shell position copy)) ih
  | case4 m copy shell position outer hstale m' last ih =>
    exact .trans (.single (.store m shell position copy)) ih
  | case5 m copy shell position outer hstale m' first next rest pending' known hknown ih =>
    exact .trans (.single (.store m shell position copy)) ih
  | case6 m copy shell position outer hstale m' first next rest pending' hknown =>
    exact .single (.store m shell position copy)

/-- A copy from any point on: each visit places a value that the machine holds, roots it, and
stores. -/
theorem confined_copyFrom (m : Machine) (copies : Copies) (budget : Nat) (state : CopyState) :
    (m.copyFrom copies budget state).Confined given asks m := by
  induction budget generalizing m copies state with
  | zero =>
    cases state with
    | finished copy => exact .refl m
    | stuck d => trivial
    | visit element pending => trivial
  | succ budget ih =>
    cases state with
    | finished copy => exact .refl m
    | stuck d => trivial
    | visit element pending =>
      unfold Machine.copyFrom
      cases hresolve : m.resolve element with
      | error d => trivial
      | ok value =>
        have hmove : m.Moves given (m.tryAllocate value).2 :=
          .single (.allocate fun f hf => .inl (holds_of_resolve hresolve (by rw [hf]; rfl)))
        simp only
        generalize m.tryAllocate value = result at hmove
        obtain ⟨result, m'⟩ := result
        cases result with
        | error why => trivial
        | ok copy =>
          have hroot : m.Moves given (m'.root copy) := hmove.trans (.root m' copy)
          simp only
          split
          · exact .of_moves (hroot.trans (moves_store _ _ _ _)) (ih _ _ _)
          · split
            · exact .of_moves hroot (ih _ _ _)
            · exact .of_moves (hroot.trans (moves_store _ _ _ _)) (ih _ _ _)

end Machine

namespace Effect

variable {α β : Type} {given : FunctionDef → Prop} {asks : Node → Prop}

theorem Confined.duplicate (r : Ref) : Confined given asks (duplicate r) := by
  intro m
  cases r with
  | nil => exact .refl m
  | bool b => exact .refl m
  | heap h => exact m.confined_copyFrom _ _ _

/-! ## 3. Calls -/

theorem Confined.callOnType (type : TypeId) (method : Name) (receiver : Ref) (args : List Ref)
    (location : Location) :
    Confined given asks (callOnType type method receiver args location) := by
  intro m
  refine confined_readOrRaise fun callable hcallable => confined_request ?_
  split at hcallable
  · next found hfound =>
    obtain rfl := Except.ok.inj hcallable
    exact Machine.holds_of_lookupMethod hfound
  · cases hcallable

theorem Confined.callMethod (receiver : Ref) (method : Name) (args : List Ref)
    (location : Location) : Confined given asks (callMethod receiver method args location) :=
  .bind (.value receiver) fun _ => .bind (.read _) fun _ =>
    .callOnType _ method receiver args location

theorem Confined.callKnown (method : MethodNames → Name) (receiver : Ref) (args : List Ref)
    (location : Location) : Confined given asks (callKnown method receiver args location) :=
  .bind (.read _) fun name => .callMethod receiver name args location

theorem Confined.callValue (callee : Ref) (args : List Ref) (location : Location) :
    Confined given asks (callValue callee args location) := by
  intro m
  refine confined_value fun v hv => ?_
  obtain ⟨type, payload⟩ := v
  cases payload with
  | function f => exact confined_request (Machine.holds_of_resolve hv rfl)
  | builtin f => exact confined_request (Machine.holds_of_resolve hv rfl)
  | type described =>
    exact Confined.bind (.read _) (fun new => .callOnType _ new callee args location) m
  | _ => exact Confined.raiseAbout callee _ m

theorem Confined.raiseArity (name : Name) (expected got : Nat) :
    Confined given asks (raiseArity name expected got : Effect α) :=
  .raiseWith _

theorem Confined.copyArgs (args copies : List Ref) :
    Confined given asks (copyArgs args copies) := by
  induction args generalizing copies with
  | nil => exact .pure _
  | cons arg rest ih =>
    exact .bind (.duplicate arg) fun copy => .bind (.root copy) fun _ => ih (copy :: copies)

theorem Confined.arrange (f : UserFunction) (copies : List Ref) :
    Confined given asks (arrange f copies) := by
  unfold Effect.arrange
  split
  · exact .bind (.demand _ _) fun _ => .bind (.allocate nofun) fun rest =>
      .bind (.root rest) fun _ => .pure _
  · exact .pure _

theorem Confined.bindParams (location : Location) (names : List Name) (values : List Ref) :
    Confined given asks (bindParams location names values) := by
  induction names generalizing values with
  | nil => exact .pure _
  | cons name names ih =>
    cases values with
    | nil => exact .pure _
    | cons value values => exact .bind (.bindName name _) fun _ => ih values

theorem Confined.evalStatements (last : Ref) {statements : List Node}
    (h : ∀ node ∈ statements, asks node) :
    Confined given asks (evalStatements last statements) := by
  induction statements generalizing last with
  | nil => exact .pure last
  | cons statement rest ih =>
    exact .bind (.eval (h statement (.head _))) fun v =>
      ih v fun node hnode => h node (.tail _ hnode)

/-- **The body of a function** asks for its statements. -/
theorem Confined.userBody (f : UserFunction) (args : List Ref) :
    Confined given (· ∈ f.routine.body.children) (Effect.withRoots do
      let copies ← Effect.copyArgs args []
      let values ← Effect.arrange f copies
      Effect.inFunctionScope f.scope do
        Effect.bindParams f.routine.body.location f.params values
        Effect.evalStatements .nil f.routine.body.children) :=
  .withRoots (.bind (.copyArgs args []) fun copies => .bind (.arrange f copies) fun values =>
    .inFunctionScope _ (.bind (.bindParams _ _ values) fun _ => .evalStatements _ fun _ h => h))

/-! ## 4. Renderings -/

theorem Confined.renderPlain (r : Ref) : Confined given asks (renderPlain r) := .readOrDefect _

theorem Confined.textOrPlain (r : Ref) : Confined given asks (textOrPlain r) := by
  refine .bind (.value r) fun v => ?_
  split
  · exact .pure _
  · exact .renderPlain r

theorem Confined.render (r : Ref) : Confined given asks (render r) := by
  refine .bind (.read _) fun method => .bind (.withRoots ?_) fun text => .textOrPlain text
  exact .bind (.root r) fun _ => .callMethod r method [] _

theorem Confined.renderAll (rs : List Ref) (texts : List String) :
    Confined given asks (renderAll rs texts) := by
  induction rs generalizing texts with
  | nil => exact .pure _
  | cons r rest ih => exact .bind (.render r) fun text => ih (text :: texts)

theorem Confined.renderBuiltin (r : Ref) : Confined given asks (renderBuiltin r) := by
  refine .bind (.value r) fun v => ?_
  split
  · refine .bind (.read _) fun depth => ?_
    split
    · exact .pure _
    · exact .bind (.inRendering (.renderAll _ [])) fun texts => .pure _
  · exact .renderPlain r

theorem Confined.renderDbg (r : Ref) : Confined given asks (renderDbg r) := by
  refine .bind (.typeText r) fun type => .bind (.value r) fun v => ?_
  split
  · exact .pure _
  · exact .bind (.render r) fun text => .pure _

/-! ## 5. Methods of every object, of numbers, texts and vectors -/

theorem Confined.allocateText (s : String) : Confined given asks (allocateText s) := .allocate nofun

theorem Confined.allocateCount (n : Nat) : Confined given asks (allocateCount n) := .allocate nofun

theorem Confined.hashValue (r : Ref) : Confined given asks (hashValue r) :=
  .bind (.value r) fun _ => .bind (.read _) fun _ => .allocate nofun

theorem Confined.constructedType (receiver : Ref) :
    Confined given asks (constructedType receiver) :=
  .bind (.value receiver) fun _ => .pure _

theorem Confined.newObject (receiver : Ref) (args : List Ref) :
    Confined given asks (newObject receiver args) := by
  refine .bind (.constructedType receiver) fun type => .bind (.read _) fun info => ?_
  split
  · exact .pure _
  · split
    · exact .raiseWith _
    · dsimp only
      split
      · exact .raiseArity _ _ _
      · refine fun m => confined_changeTypes (.close m type) fun answer => ?_
        cases answer with
        | error why => exact .raise _
        | ok _ =>
          refine .allocate ?_
          intro f hf
          cases hf

theorem Confined.sameType (l r : Ref) : Confined given asks (sameType l r) := by
  refine .bind (.value l) fun a => ?_
  split
  · exact .pure _
  · exact .bind (.value r) fun b => .pure _

theorem Confined.nameOfType (r : Ref) : Confined given asks (nameOfType r) := by
  refine .bind (.value r) fun v => ?_
  split
  · exact .pure _
  · exact .bind (.read _) fun text => .allocateText text

theorem Confined.allocateOrRaise (result : Except FaultKind NumericResult) :
    Confined given asks (allocateOrRaise result) := by
  cases result with
  | error kind => exact .raise kind
  | ok result =>
    cases result with
    | int i => exact .allocate nofun
    | real x => exact .allocate nofun
    | bool b => exact .pure _

theorem Confined.numericMethod (op : BinaryOp) (l r : Ref) :
    Confined given asks (numericMethod op l r) := by
  refine .bind (.value l) fun a => .bind (.value r) fun b => ?_
  split
  · exact .allocateOrRaise _
  · exact .pure _

theorem Confined.negateMethod (r : Ref) : Confined given asks (negateMethod r) := by
  refine .bind (.value r) fun v => ?_
  split
  · exact .allocateOrRaise _
  · exact .pure _

theorem Confined.toNumber (r : Ref) : Confined given asks (toNumber r) := by
  refine .bind (.value r) fun v => ?_
  split
  · exact .pure _
  · exact .raiseAbout r _

theorem Confined.constructedFrom (target : TypeId) (args : List Ref) :
    Confined given asks (constructedFrom target args) := by
  unfold Effect.constructedFrom
  split
  · exact .pure _
  · exact .toNumber _
  · exact .raiseWith _

theorem Confined.newNumber (receiver : Ref) (args : List Ref) :
    Confined given asks (newNumber receiver args) := by
  refine .bind (.constructedType receiver) fun target =>
    .bind (.constructedFrom target args) fun source => ?_
  split
  · exact .allocate nofun
  · split
    · exact .allocate nofun
    · exact .allocate nofun

theorem Confined.expectNumber (op : String) (r : Ref) :
    Confined given asks (expectNumber op r) := by
  refine .bind (.value r) fun v => ?_
  split
  · exact .pure _
  · exact .raiseAbout r _

theorem Confined.textPair (l r : Ref) : Confined given asks (textPair l r) := by
  refine .bind (.value l) fun a => ?_
  split
  · exact .pure _
  · exact .bind (.value r) fun b => .pure _

theorem Confined.concat (l r : Ref) : Confined given asks (concat l r) := by
  refine .bind (.value l) fun a => ?_
  split
  · exact .pure _
  · refine .bind (.value r) fun b => ?_
    cases b.payload.str? with
    | some s => exact .allocateText _
    | none => exact .bind (.render r) fun right => .allocateText _

theorem Confined.repeatText (l r : Ref) : Confined given asks (repeatText l r) := by
  refine .bind (.value l) fun a => .bind (.value r) fun b => ?_
  split
  · split
    · exact .raise _
    · split
      · exact .raise _
      · exact .allocateText _
  · exact .pure _

theorem Confined.textMethod (test : Comparison) (l r : Ref) :
    Confined given asks (textMethod test l r) := by
  refine .bind (.textPair l r) fun pair => ?_
  split
  · exact .pure _
  · exact .pure _

theorem Confined.lengthOfText (r : Ref) : Confined given asks (lengthOfText r) := by
  refine .bind (.value r) fun v => ?_
  split
  · exact .allocateCount _
  · exact .pure _

theorem Confined.newText (args : List Ref) : Confined given asks (newText args) := by
  cases args with
  | nil => exact .allocateText _
  | cons arg rest => exact .bind (.render arg) fun text => .allocateText text

theorem Confined.appendVectors (l r : Ref) : Confined given asks (appendVectors l r) := by
  refine .bind (.value l) fun a => .bind (.value r) fun b => ?_
  split
  · exact .allocate nofun
  · exact .pure _

theorem Confined.pushElement (r item : Ref) : Confined given asks (pushElement r item) := by
  refine .bind (.value r) fun v => ?_
  split
  · exact .bind (.modify fun m => .append m _ item) fun _ => .pure _
  · exact .pure _

theorem Confined.lengthOfVector (r : Ref) : Confined given asks (lengthOfVector r) := by
  refine .bind (.value r) fun v => ?_
  split
  · exact .allocateCount _
  · exact .pure _

/-! ## 6. Global functions and native bodies -/

theorem Confined.write (text : Machine → String) (a : α) :
    Confined given asks (do
      Effect.modify fun m => { m with console := m.console.print (text m) }
      Pure.pure a) :=
  .bind (.modify fun m => .write m _) fun _ => .pure a

theorem Confined.joined (args : List Ref) : Confined given asks (joined args) :=
  .bind (.renderAll args []) fun _ => .pure _

theorem Confined.callPlain (method : MethodNames → Name) (r : Ref) :
    Confined given asks (callPlain method r) :=
  .callKnown method r [] _

theorem Confined.debug (r : Ref) : Confined given asks (debug r) :=
  .bind (.callPlain _ r) fun shown => .bind (.textOrPlain shown) fun _ => .write _ r

theorem Confined.collectGarbage : Confined given asks collectGarbage := by
  intro m
  unfold Effect.collectGarbage
  split
  · next hcollect => exact .single (.collect hcollect)
  · trivial

theorem Confined.onFirst (args : List Ref) {body : Ref → Effect Ref}
    (h : ∀ r, (body r).Confined given asks) : Confined given asks (onFirst args body) :=
  .bind (.demand _ _) fun _ => h _

theorem Confined.onOne (args : List Ref) {body : Ref → Effect Ref}
    (h : ∀ r, (body r).Confined given asks) : Confined given asks (onOne args body) := by
  unfold ScriptMachine.onOne
  split
  · exact h _
  · exact .pure _

theorem Confined.onTwo (args : List Ref) (otherwise : Ref) {body : Ref → Ref → Effect Ref}
    (h : ∀ l r, (body l r).Confined given asks) :
    Confined given asks (onTwo args otherwise body) := by
  unfold ScriptMachine.onTwo
  split
  · exact h _ _
  · exact .pure _

theorem Confined.onReceiver (args : List Ref) {body : Ref → List Ref → Effect Ref}
    (h : ∀ r rest, (body r rest).Confined given asks) :
    Confined given asks (onReceiver args body) := by
  unfold ScriptMachine.onReceiver
  split
  · exact h _ _
  · exact .pure _

/-- **Every native body** is confined, on any arguments, and asks for no node. -/
theorem Confined.run (p : Procedure) (args : List Ref) : Confined given asks (p.run args) := by
  cases p with
  | objectNil => exact .pure _
  | objectEq => exact .onTwo args _ fun _ _ => .pure _
  | objectNe => exact .onTwo args _ fun _ _ => .pure _
  | objectStr => exact .onOne args fun r => .bind (.renderBuiltin r) fun text => .allocateText text
  | objectDbg => exact .onOne args fun r => .bind (.renderDbg r) fun text => .allocateText text
  | objectHash => exact .onOne args .hashValue
  | objectNew => exact .onReceiver args .newObject
  | nilNew => exact .pure _
  | boolNot => exact .onOne args fun _ => .pure _
  | boolNew => exact .pure _
  | numeric op => exact .onTwo args _ (.numericMethod op)
  | numericNeg => exact .onOne args .negateMethod
  | numericNew => exact .onReceiver args .newNumber
  | textAdd => exact .onTwo args _ .concat
  | textRepeat => exact .onTwo args _ .repeatText
  | textCompare test => exact .onTwo args _ (.textMethod test)
  | textLength => exact .onOne args .lengthOfText
  | textNew => exact .newText _
  | vectorAdd => exact .onTwo args _ .appendVectors
  | vectorPush => exact .onTwo args _ .pushElement
  | vectorLength => exact .onOne args .lengthOfVector
  | vectorNew => exact .allocate nofun
  | typeEq => exact .onTwo args _ fun l r => .bind (.sameType l r) fun _ => .pure _
  | typeNe => exact .onTwo args _ fun l r => .bind (.sameType l r) fun _ => .pure _
  | typeName => exact .onOne args .nameOfType
  | print => exact .bind (.joined args) fun text => .write _ _
  | printLine => exact .bind (.joined args) fun text => .write _ _
  | string => exact .onFirst args fun r => .bind (.render r) fun text => .allocateText text
  | typeOf => exact .onFirst args fun r => .bind (.value r) fun _ => .allocate nofun
  | hash => exact .onFirst args (.callPlain _)
  | dbg => exact .onFirst args .debug
  | length => exact .onFirst args (.callPlain _)
  | heapDump => exact .write _ _
  | collectorEnable => exact .bind (.modify fun m => .switch m true) fun _ => .pure _
  | collectorDisable => exact .bind (.modify fun m => .switch m false) fun _ => .pure _
  | collectorIsDisabled => exact .bind (.read _) fun _ => .pure _
  | collect => exact .bind .collectGarbage fun freed => .allocateCount freed
  | liveCount => exact .bind (.read _) fun n => .allocateCount n
  | sqrt => exact .onFirst args fun r => .bind (.expectNumber _ r) fun _ => .allocate nofun
  | abs => exact .onFirst args fun r => .bind (.expectNumber _ r) fun _ => .allocateOrRaise _
  | floor => exact .onFirst args fun r => .bind (.expectNumber _ r) fun _ => .allocate nofun
  | countArgs => exact .allocateCount _
  | packArgs => exact .allocate nofun
  | firstArg => exact .pure _
  | failing => exact .raise _
  | apply => exact .onReceiver args fun f rest => .callValue f rest _

/-! ## 7. Nodes -/

/-- Going on with a child of a node. -/
theorem Confined.child {node : Node} (i : Nat) {f : Node → Effect α}
    (hf : ∀ n ∈ node.children, (f n).Confined given asks) :
    Confined given asks (Effect.child node i >>= f) := by
  unfold Effect.child
  split
  · next n hn => exact fun m => hf n (List.mem_of_getElem? hn) m
  · exact fun m => .refl m

theorem Confined.evalLiteral (literal : Literal) : Confined given asks (evalLiteral literal) := by
  cases literal with
  | nil => exact .pure _
  | bool b => exact .pure _
  | int i => exact .allocate nofun
  | real x => exact .allocate nofun
  | str s => exact .allocate nofun

theorem Confined.evalRooted {nodes : List Node} (h : ∀ node ∈ nodes, asks node)
    (values : List Ref) : Confined given asks (evalRooted nodes values) := by
  induction nodes generalizing values with
  | nil => exact .pure _
  | cons node rest ih =>
    exact .bind (.eval (h node (.head _))) fun v => .bind (.root v) fun _ =>
      ih (fun n hn => h n (.tail _ hn)) (v :: values)

theorem Confined.evalVector {elements : List Node} (h : ∀ node ∈ elements, asks node) :
    Confined given asks (evalVector elements) :=
  .withRoots (.bind (.evalRooted h []) fun _ => .allocate nofun)

/-- Evaluating a node whose value is kept alive while the rest runs. -/
theorem Confined.evalThen {node : Node} (h : asks node) {f : Ref → Effect α}
    (hf : ∀ v, (f v).Confined given asks) :
    Confined given asks (do let v ← Effect.eval node; Effect.root v; f v) :=
  .bind (.eval h) fun v => .bind (.root v) fun _ => hf v

theorem Confined.evalDeclare (name : Name) (mutability : Mutability) {init : Node}
    (h : asks init) (location : Location) :
    Confined given asks (evalDeclare name mutability init location) :=
  .bind (.eval h) fun _ => .bind (.bindName name _) fun _ => .pure _

theorem Confined.assignName (name : Name) (v : Ref) : Confined given asks (assignName name v) := by
  intro m
  unfold Effect.assignName
  generalize m.scopes.assign name v = result
  obtain ⟨result, scopes⟩ := result
  cases result with
  | ok _ => exact .single (.scopes m scopes)
  | error why => exact .single (.scopes m scopes)

theorem Confined.evalAssign (name : Name) {node : Node} (h : asks node) :
    Confined given asks (evalAssign name node) :=
  .bind (.readOrRaise _) fun _ => .bind (.eval h) fun v =>
    .bind (.assignName name v) fun _ => .pure v

theorem Confined.binaryMethod (op : BinaryOp) (l r : Ref) (location : Location) :
    Confined given asks (binaryMethod op l r location) := by
  refine .bind (.read _) fun method => ?_
  split
  · exact .callMethod l _ [r] location
  · exact .raiseAbout l _

theorem Confined.binaryOp (op : BinaryOp) (l r : Ref) (location : Location) :
    Confined given asks (binaryOp op l r location) := by
  refine .bind (.value l) fun a => .bind (.value r) fun b => ?_
  split
  · exact .allocateOrRaise _
  · exact .binaryMethod op l r location

theorem Confined.expectBool (op : BinaryOp) (r : Ref) : Confined given asks (expectBool op r) := by
  unfold Effect.expectBool
  split
  · exact .pure _
  · exact .raiseAbout r _

theorem Confined.evalLogical (op : BinaryOp) {left right : Node} (hl : asks left)
    (hr : asks right) (decisive : Bool) :
    Confined given asks (evalLogical op left right decisive) := by
  refine .bind (.eval hl) fun l => .bind (.expectBool op l) fun a => ?_
  split
  · exact .pure _
  · exact .bind (.eval hr) fun r => .bind (.expectBool op r) fun _ => .pure _

theorem Confined.evalBinary (op : BinaryOp) {left right : Node} (hl : asks left)
    (hr : asks right) (location : Location) :
    Confined given asks (evalBinary op left right location) := by
  unfold Effect.evalBinary
  split
  · exact .evalLogical _ hl hr false
  · exact .evalLogical _ hl hr true
  · exact .withRoots (.evalThen hl fun l => .evalThen hr fun r => .binaryOp _ l r location)

theorem Confined.unaryOp (op : UnaryOp) (r : Ref) (location : Location) :
    Confined given asks (unaryOp op r location) := by
  refine .bind (.value r) fun v => ?_
  split
  · exact .allocateOrRaise _
  · exact .callKnown _ r [] location

theorem Confined.moduleMember (name member : Name) :
    Confined given asks (moduleMember name member) :=
  .readOrRaise _

theorem Confined.evalMethodCall (method : Name) {receiver : Node} (hr : asks receiver)
    {args : List Node} (hargs : ∀ node ∈ args, asks node) (location : Location) :
    Confined given asks (evalMethodCall method receiver args location) := by
  refine .withRoots (.evalThen hr fun r => .bind (.evalRooted hargs []) fun args =>
    .bind (.value r) fun v => ?_)
  split
  · exact .bind (.moduleMember _ method) fun f => .callValue f args location
  · exact .callMethod r method args location

theorem Confined.instanceMember (r : Ref) (v : Value) (member : Name) :
    Confined given asks (instanceMember r v member) := by
  refine .bind (.read _) fun field => ?_
  split
  · exact .pure _
  · exact .bind (.renderPlain r) fun owner => .raiseWith _

theorem Confined.evalMember {object : Node} (h : asks object) (member : Name) :
    Confined given asks (evalMember object member) := by
  refine .bind (.eval h) fun r => .bind (.value r) fun v => ?_
  split
  · exact .moduleMember _ member
  · exact .instanceMember r v member

theorem Confined.elementAt (index : Int64) (length : Nat) (get : Nat → Option α) :
    Confined given asks (elementAt index length get) := by
  unfold Effect.elementAt
  split
  · exact .pure _
  · exact .raise _

theorem Confined.indexOp (object index : Ref) (location : Location) :
    Confined given asks (indexOp object index location) := by
  refine .bind (.value index) fun i => ?_
  split
  · exact .callKnown _ object [index] location
  · refine .bind (.value object) fun v => ?_
    split
    · exact .elementAt _ _ _
    · exact .bind (.elementAt _ _ _) fun c => .allocateText _
    · exact .callKnown _ object [index] location

theorem Confined.evalBranch {condition consequence : Node} (hc : asks condition)
    (ht : asks consequence) {alternative : Option Node} (ha : ∀ n ∈ alternative, asks n) :
    Confined given asks (evalBranch condition consequence alternative) := by
  refine .inScope (.bind (.eval hc) fun c => ?_)
  split
  · exact .eval ht
  · split
    · exact .eval (ha _ rfl)
    · exact .pure _

theorem Confined.evalRound {condition body : Node} (hc : asks condition) (hb : asks body) :
    Confined given asks (evalRound condition body) := by
  refine .inScope (.bind (.eval hc) fun c => ?_)
  split
  · exact .bind (.eval hb) fun _ => .pure _
  · exact .pure _

theorem Confined.evalFunction {routine : FunctionDef} (h : given routine) (location : Location) :
    Confined given asks (evalFunction routine location) := by
  refine .bind (.read _) fun scope => .bind (.allocate ?_) fun _ =>
    .bind (.bindName _ _) fun _ => .pure _
  rintro f hf
  obtain rfl := Payload.function.inj hf
  exact h

/-- The method that is installed is of the given routine. -/
theorem Confined.evalMethod (typeName : Name) {routine : FunctionDef} (h : given routine)
    (location : Location) : Confined given asks (evalMethod typeName routine location) := by
  refine .bind (.read _) fun found => ?_
  cases found with
  | none => exact .raiseWith _
  | some type =>
    refine fun m => confined_read (confined_changeTypes (.addMethod m type location h) fun answer => ?_)
    cases answer with
    | error why => exact .raiseWith _
    | ok _ => exact .pure _

theorem Confined.evalImport (name : Name) (location : Location) :
    Confined given asks (evalImport name location) :=
  .bind (.readOrRaise _) fun _ => .bind (.allocate nofun) fun _ =>
    .bind (.bindName name _) fun _ => .pure _

/-- **Every node**, of whatever shape, asks for its children, and makes a function of the routine
that it declares. -/
theorem Confined.evalNode (node : Node) :
    Confined (node.routine? = some ·) (· ∈ node.children) (evalNode node) := by
  have htail : ∀ n ∈ node.children.tail, n ∈ node.children := fun n hn => List.mem_of_mem_tail hn
  unfold Effect.evalNode
  split
  · exact .map _ (.evalStatements _ fun _ h => h)
  · exact .map _ (.inScope (.evalStatements _ fun _ h => h))
  · exact .map _ (.evalLiteral _)
  · exact .map _ (.readOrRaise _)
  · exact .map _ (.evalVector fun _ h => h)
  · exact .child 0 fun init h => .map _ (.evalDeclare _ _ h _)
  · exact .child 0 fun value h => .map _ (.evalAssign _ h)
  · exact .child 0 fun left hl => .child 1 fun right hr => .map _ (.evalBinary _ hl hr _)
  · exact .child 0 fun operand h => .map _ (.withRoots (.evalThen h fun v => .unaryOp _ v _))
  · exact .child 0 fun callee h => .map _ (.withRoots (.evalThen h fun f =>
      .bind (.evalRooted htail []) fun args => .callValue f args _))
  · exact .child 0 fun receiver h => .map _ (.evalMethodCall _ h htail _)
  · exact .child 0 fun object h => .map _ (.evalMember h _)
  · exact .child 0 fun object ho => .child 1 fun index hi =>
      .map _ (.withRoots (.evalThen ho fun o => .evalThen hi fun i => .indexOp o i _))
  · exact .child 0 fun condition hc => .child 1 fun consequence ht =>
      .map _ (.evalBranch hc ht fun n hn => List.mem_of_getElem? hn)
  · exact .child 0 fun condition hc => .child 1 fun body hb =>
      .bind (.evalRound hc hb) fun _ => .pure _
  · next hkind => exact .map _ (.evalFunction (by rw [Node.routine?, hkind]) _)
  · next hkind => exact .map _ (.evalMethod _ (by rw [Node.routine?, hkind]) _)
  · exact .map _ (.evalImport _ _)

end Effect

end ScriptMachine
