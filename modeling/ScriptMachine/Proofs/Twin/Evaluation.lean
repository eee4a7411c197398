/-
# Evaluation side by side

Every kind of node agrees with itself from every world on, and so does every call whose arguments are
kept.  What a node still needs while another one is evaluated is a temporary root by then, so it is
kept; and nothing else is used after a request.

* `Effect.Agree.evalNode`: nodes, one case for each kind;
* `Effect.Agree.enterNative`, `Effect.Agree.enterUser`: calls;
* `Effect.Agree.perform`: the answer to every request.
-/
import ScriptMachine.Machine.Run
import ScriptMachine.Proofs.Twin.Builtin

namespace ScriptMachine

section Evaluation

variable {exact : Prop} {w : World exact}

/-- Members of modules are kept. -/
theorem World.keptModules (w : World exact) :
    w.left.modules.Alike (fun a b => w.pairs a b ∧ w.left.Held a ∧ w.right.Held b)
      w.right.modules := by
  refine w.modules.transfer fun a b ha hb hab => ?_
  obtain ⟨v, u, hv, hu, -⟩ := w.values a b hab
  rw [ModuleTable.refs_eq] at ha hb
  refine ⟨hab, .root ?_ hv, .root ?_ hu⟩
  · rw [Machine.anchors, List.filterMap_append]
    exact List.mem_append_left _ ha
  · rw [Machine.anchors, List.filterMap_append]
    exact List.mem_append_left _ hb

/-- Whether answering a request shows nothing of the heap but the values on it. -/
def Request.isQuiet (m : Machine) : Request → Bool
  | .call (.native f) args _ => f.procedure.isQuiet m args
  | _ => true

/-- What nodes come to on both sides: values that are alike, or the same node again. -/
inductive Turn.Alike (w : World exact) : Turn → Turn → Prop where
  | value {r r' : Ref} : w.Alike r r' → Turn.Alike w (.value r) (.value r')
  | again (node : Node) : Turn.Alike w (.again node) (.again node)

namespace Effect

/-! ## 1. Constants, variables and vectors -/

theorem Agree.child (node : Node) (i : Nat) : Agree w (child node i) (child node i) Same := by
  unfold Effect.child
  cases node.child? i with
  | some n => exact .pure rfl
  | none => exact .raise _

/-- Going on with a child. -/
theorem Agree.child_bind {β : Type} {R : World exact → β → β → Prop} (node : Node) (i : Nat)
    {g g' : Node → Effect β} (hg : ∀ w', w ≤ w' → ∀ n, Agree w' (g n) (g' n) R) :
    Agree w (Effect.child node i >>= g) (Effect.child node i >>= g') R := by
  refine (Agree.child node i).bind fun w' hle n n' hn => ?_
  obtain rfl : n = n' := hn
  exact hg w' hle n

theorem Agree.evalLiteral (l : Literal) : Agree w (evalLiteral l) (evalLiteral l) World.Alike := by
  cases l with
  | nil => exact .pure .nil
  | bool b => exact .pure (.bool b)
  | int i => exact .allocate_plain rfl rfl
  | real x => exact .allocate_plain rfl rfl
  | str s => exact .allocate_plain rfl rfl

theorem Agree.evalSymbol (name : Name) : Agree w (evalSymbol name) (evalSymbol name) World.Alike := by
  refine .readOrRaise_end ?_
  rcases optionRel_cases (w.scopes.findNearest name) with ⟨hl, hr⟩ | ⟨e, e', hl, hr, he⟩
  · simp only [hl, hr, text_eq]
    exact .error _
  · simp only [hl, hr]
    exact .ok he.value

theorem Agree.evalRooted (nodes : List Node) {rs rs' : List Ref} (h : List.Forall₂ w.Kept rs rs') :
    Agree w (evalRooted nodes rs) (evalRooted nodes rs') fun w' => List.Forall₂ w'.Kept := by
  induction nodes generalizing w rs rs' with
  | nil => exact .pure (List.rel_reverse h)
  | cons node nodes ih =>
    refine (Agree.eval node).bind fun w₁ hle₁ r r' hr => ?_
    refine (Agree.root hr).bind fun w₂ hle₂ _ _ hkept => ?_
    exact ih (.cons hkept (World.forall₂_kept_mono (le_trans hle₁ hle₂) h))

theorem Agree.evalVector (nodes : List Node) :
    Agree w (evalVector nodes) (evalVector nodes) World.Alike := by
  refine .withRoots steady_alike ?_
  refine (Agree.evalRooted nodes .nil).bind fun w' _ rs rs' hrs => ?_
  exact .allocateVector (alike_of_kept hrs)

/-! ## 2. Bindings -/

/-- Binding a name to a value and ending with that value. -/
theorem Agree.bindValue (name : Name) (mutability : Mutability) (location : Location) {r r' : Ref}
    (h : w.Alike r r') :
    Agree w (Effect.bindName name ⟨r, mutability, location⟩ >>= fun _ => Pure.pure r)
      (Effect.bindName name ⟨r', mutability, location⟩ >>= fun _ => Pure.pure r') World.Alike := by
  have hentry : Entry.Alike w.pairs ⟨r, mutability, location⟩ ⟨r', mutability, location⟩ :=
    ⟨h, rfl, rfl⟩
  refine (Agree.bindName name hentry).bind fun w' _ _ _ hpairs => .pure ?_
  exact steady_alike w w' hpairs _ _ h

theorem Agree.evalDeclare (name : Name) (mutability : Mutability) (init : Node)
    (location : Location) :
    Agree w (evalDeclare name mutability init location) (evalDeclare name mutability init location)
      World.Alike := by
  refine (Agree.eval init).bind fun w₁ _ r r' hr => ?_
  exact .bindValue name mutability location hr

theorem assignFault_eq (w : World exact) (name : Name) (why : AssignRefusal) :
    assignFault w.left name why = assignFault w.right name why := by
  cases why <;> simp only [assignFault, text_eq]

theorem Agree.assignName (name : Name) {r r' : Ref} (h : w.Alike r r') :
    Agree w (assignName name r) (assignName name r') fun w' _ _ => w'.pairs = w.pairs := by
  obtain ⟨hres, hscopes⟩ := w.scopes.assign name h
  have heq : exact → (w.left.scopes.assign name r).2 = (w.right.scopes.assign name r').2 := by
    intro he
    rw [w.same he, Ref.Alike.eq h (w.diagonal he)]
  unfold Agree Effect.assignName
  simp only
  rw [← hres]
  cases (w.left.scopes.assign name r).1 with
  | ok _ =>
    exact .done (w.withScopes hscopes heq) rfl rfl ⟨w.le_withScopes hscopes heq, .ok rfl⟩
  | error why =>
    refine .fault (w.withScopes hscopes heq) rfl rfl ⟨w.le_withScopes hscopes heq, ?_⟩
    have hkind := assignFault_eq (w.withScopes hscopes heq) name why
    simp only [World.withScopes] at hkind
    rw [hkind]
    exact .error _

theorem Agree.evalAssign (name : Name) (node : Node) :
    Agree w (evalAssign name node) (evalAssign name node) World.Alike := by
  refine .readOrRaise (Q := Same) ?_ fun _ _ _ => ?_
  · rw [← w.scopes.checkAssign_eq name]
    cases w.left.scopes.checkAssign name with
    | ok _ => exact .ok rfl
    | error why =>
      simp only [assignFault_eq]
      exact .error _
  · refine (Agree.eval node).bind fun w₁ _ r r' hr => ?_
    refine (Agree.assignName name hr).bind fun w₂ _ _ _ hpairs => .pure ?_
    exact steady_alike w₁ w₂ hpairs _ _ hr

/-! ## 3. Operators -/

theorem Agree.binaryMethod (op : BinaryOp) {l l' r r' : Ref} (hl : w.Kept l l') (hr : w.Kept r r')
    (location : Location) :
    Agree w (binaryMethod op l r location) (binaryMethod op l' r' location) World.Alike := by
  refine .read ?_
  rw [← w.methods_eq]
  cases w.left.methods.binary? op with
  | some method => exact .callMethod method hl (.cons hr .nil) location
  | none => exact .raiseAbout hl.alike _

theorem Agree.binaryOp (op : BinaryOp) {l l' r r' : Ref} (hl : w.Kept l l') (hr : w.Kept r r')
    (location : Location) :
    Agree w (binaryOp op l r location) (binaryOp op l' r' location) World.Alike := by
  refine .value hl.alike fun a a' _ _ haa' _ => .value hr.alike fun b b' _ _ hbb' _ => ?_
  rw [← haa'.payload.number?_eq, ← hbb'.payload.number?_eq]
  cases a.payload.number? <;> cases b.payload.number?
  · exact .binaryMethod op hl hr location
  · exact .binaryMethod op hl hr location
  · exact .binaryMethod op hl hr location
  · exact .allocateOrRaise _

theorem Agree.expectBool (op : BinaryOp) {r r' : Ref} (h : w.Alike r r') :
    Agree w (expectBool op r) (expectBool op r') Same := by
  unfold Effect.expectBool
  rw [← h.bool?_eq]
  cases r.bool? with
  | some b => exact .pure rfl
  | none => exact .raiseAbout h _

theorem Agree.evalLogical (op : BinaryOp) (left right : Node) (decisive : Bool) :
    Agree w (evalLogical op left right decisive) (evalLogical op left right decisive)
      World.Alike := by
  refine (Agree.eval left).bind fun w₁ _ l l' hl => ?_
  refine (Agree.expectBool op hl).bind fun w₂ _ a a' ha => ?_
  obtain rfl : a = a' := ha
  split
  · exact .pure (.bool a)
  · refine (Agree.eval right).bind fun w₃ _ r r' hr => ?_
    refine (Agree.expectBool op hr).bind fun w₄ _ b b' hb => ?_
    obtain rfl : b = b' := hb
    exact .pure (.bool b)

theorem Agree.evalBinary (op : BinaryOp) (left right : Node) (location : Location) :
    Agree w (evalBinary op left right location) (evalBinary op left right location) World.Alike := by
  have hplain : Agree w
      (Effect.withRoots do
        let l ← Effect.eval left
        Effect.root l
        let r ← Effect.eval right
        Effect.root r
        Effect.binaryOp op l r location)
      (Effect.withRoots do
        let l ← Effect.eval left
        Effect.root l
        let r ← Effect.eval right
        Effect.root r
        Effect.binaryOp op l r location) World.Alike := by
    refine .withRoots steady_alike ?_
    refine (Agree.eval left).bind fun w₁ _ l l' hl => ?_
    refine (Agree.root hl).bind fun w₂ _ _ _ hkeptL => ?_
    refine (Agree.eval right).bind fun w₃ hle₃ r r' hr => ?_
    refine (Agree.root hr).bind fun w₄ hle₄ _ _ hkeptR => ?_
    exact .binaryOp op (hkeptL.mono (le_trans hle₃ hle₄)) hkeptR location
  cases op with
  | and => exact .evalLogical _ left right false
  | or => exact .evalLogical _ left right true
  | _ => exact hplain

theorem Agree.unaryOp (op : UnaryOp) {r r' : Ref} (h : w.Kept r r') (location : Location) :
    Agree w (unaryOp op r location) (unaryOp op r' location) World.Alike := by
  refine .value h.alike fun v v' _ _ hvv' _ => ?_
  rw [← hvv'.payload.number?_eq]
  cases op with
  | not => exact .callKnown _ h .nil location
  | neg =>
    cases v.payload.number? with
    | none => exact .callKnown _ h .nil location
    | some n => exact .allocateOrRaise _

theorem Agree.evalUnary (op : UnaryOp) (operand : Node) (location : Location) :
    Agree w (evalUnary op operand location) (evalUnary op operand location) World.Alike := by
  refine .withRoots steady_alike ?_
  refine (Agree.eval operand).bind fun w₁ _ r r' hr => ?_
  exact (Agree.root hr).bind fun w₂ _ _ _ hkept => .unaryOp op hkept location

/-! ## 4. Calls and members of nodes -/

theorem Agree.evalCall (callee : Node) (args : List Node) (location : Location) :
    Agree w (evalCall callee args location) (evalCall callee args location) World.Alike := by
  refine .withRoots steady_alike ?_
  refine (Agree.eval callee).bind fun w₁ _ f f' hf => ?_
  refine (Agree.root hf).bind fun w₂ _ _ _ hkept => ?_
  refine (Agree.evalRooted args .nil).bind fun w₃ hle₃ rs rs' hrs => ?_
  exact .callValue (hkept.mono hle₃) hrs location

theorem Agree.moduleMember (name member : Name) :
    Agree w (moduleMember name member) (moduleMember name member) World.Kept := by
  refine .readOrRaise_end ?_
  rcases optionRel_cases (w.keptModules.get? name) with ⟨hl, hr⟩ | ⟨t, t', hl, hr, ht⟩
  · simp only [hl, hr, text_eq]
    exact .error _
  · simp only [hl, hr]
    rcases optionRel_cases (ht.get? member) with ⟨hl, hr⟩ | ⟨v, v', hl, hr, hv⟩
    · simp only [hl, hr, text_eq]
      exact .error _
    · simp only [hl, hr]
      exact .ok hv

theorem Agree.evalMethodCall (method : Name) (receiver : Node) (args : List Node)
    (location : Location) :
    Agree w (evalMethodCall method receiver args location)
      (evalMethodCall method receiver args location) World.Alike := by
  refine .withRoots steady_alike ?_
  refine (Agree.eval receiver).bind fun w₁ _ r r' hr => ?_
  refine (Agree.root hr).bind fun w₂ _ _ _ hkept => ?_
  refine (Agree.evalRooted args .nil).bind fun w₃ hle₃ rs rs' hrs => ?_
  have hreceiver := hkept.mono hle₃
  refine .value hreceiver.alike fun ⟨t, p⟩ ⟨t', p'⟩ _ _ hvv' _ => ?_
  have hp : p.Alike w₃.pairs p' := hvv'.payload
  cases hp with
  | vector _ => exact .callMethod method hreceiver hrs location
  | fields _ => exact .callMethod method hreceiver hrs location
  | plain _ =>
    cases p with
    | moduleNamed name =>
      refine (Agree.moduleMember name method).bind fun w₄ hle₄ f f' hf => ?_
      exact .callValue hf (World.forall₂_kept_mono hle₄ hrs) location
    | _ => exact .callMethod method hreceiver hrs location

/-- A field of instances that are alike. -/
theorem fieldOf_alike {v v' : Value} (h : v.Alike w.pairs v') (member : Name) :
    Option.Rel w.Alike (fieldOf w.left v member) (fieldOf w.right v' member) := by
  obtain ⟨t, p⟩ := v
  obtain ⟨t', p'⟩ := v'
  obtain ⟨rfl, hp⟩ : t = t' ∧ p.Alike w.pairs p' := ⟨h.type_eq, h.payload⟩
  unfold fieldOf
  rw [← w.types_eq]
  cases hp with
  | vector _ => exact .none
  | fields hxy =>
    cases hfound : w.left.types.lookupMember t member with
    | none =>
      simp only [Option.bind_none]
      exact .none
    | some found =>
      have hi := forall₂_getElem? hxy found.1
      rw [Array.getElem?_toList, Array.getElem?_toList] at hi
      exact hi
  | plain hplain =>
    cases p with
    | fields _ => cases hplain
    | _ => exact .none

theorem Agree.instanceMember {r r' : Ref} (h : w.Alike r r') {v v' : Value}
    (hvv' : v.Alike w.pairs v') (member : Name) :
    Agree w (instanceMember r v member) (instanceMember r' v' member) World.Alike := by
  refine .read ?_
  rcases optionRel_cases (fieldOf_alike hvv' member) with ⟨hl, hr⟩ | ⟨f, f', hl, hr, hf⟩
  · simp only [hl, hr]
    exact .renderPlain h fun owner => .raiseWith (by rw [text_eq])
  · simp only [hl, hr]
    exact .pure hf

theorem Agree.evalMember (object : Node) (member : Name) :
    Agree w (evalMember object member) (evalMember object member) World.Alike := by
  refine (Agree.eval object).bind fun w₁ _ r r' hr => ?_
  refine .value hr fun ⟨t, p⟩ ⟨t', p'⟩ _ _ hvv' _ => ?_
  have hp : p.Alike w₁.pairs p' := hvv'.payload
  cases hp with
  | vector _ => exact .instanceMember hr hvv' member
  | fields _ => exact .instanceMember hr hvv' member
  | plain _ =>
    cases p with
    | moduleNamed name => exact (Agree.moduleMember name member).imp fun _ _ _ _ h => h.alike
    | _ => exact .instanceMember hr hvv' member

/-! ## 5. Elements -/

/-- An element of sequences that are alike. -/
theorem Agree.elementAt {α : Type} {Q : World exact → α → α → Prop} (index : Int64) (length : Nat)
    {get get' : Nat → Option α} (h : ∀ i, Option.Rel (Q w) (get i) (get' i)) :
    Agree w (elementAt index length get) (elementAt index length get') Q := by
  unfold Effect.elementAt
  cases Effect.position? index length with
  | none => exact .raise _
  | some i =>
    simp only [Option.bind_some]
    rcases optionRel_cases (h i) with ⟨hl, hr⟩ | ⟨a, a', hl, hr, ha⟩
    · rw [hl, hr]
      exact .raise _
    · rw [hl, hr]
      exact .pure ha

theorem Agree.indexOp {o o' i i' : Ref} (ho : w.Kept o o') (hi : w.Kept i i')
    (location : Location) :
    Agree w (indexOp o i location) (indexOp o' i' location) World.Alike := by
  have hdispatch : Agree w (Effect.callKnown MethodNames.index o [i] location)
      (Effect.callKnown MethodNames.index o' [i'] location) World.Alike :=
    .callKnown _ ho (.cons hi .nil) location
  refine .value hi.alike fun v v' _ _ hvv' _ => ?_
  rw [← hvv'.payload.int?_eq]
  cases v.payload.int? with
  | none => exact hdispatch
  | some n =>
    refine .value ho.alike fun ⟨t, p⟩ ⟨t', p'⟩ _ _ huu' _ => ?_
    have hp : p.Alike w.pairs p' := huu'.payload
    cases hp with
    | @vector xs ys hxy =>
      have hsize : xs.size = ys.size := by simpa using hxy.length_eq
      simp only [hsize]
      refine .elementAt n _ fun j => ?_
      have hj := forall₂_getElem? hxy j
      rw [Array.getElem?_toList, Array.getElem?_toList] at hj
      exact hj
    | fields _ => exact hdispatch
    | plain hplain =>
      cases p with
      | str s =>
        have hchar : ∀ j : Nat, Option.Rel (Same w) s.toList[j]? s.toList[j]? := by
          intro j
          cases s.toList[j]? with
          | none => exact .none
          | some c => exact .some rfl
        refine (Agree.elementAt n s.toList.length hchar).bind fun w' _ c c' hc => ?_
        obtain rfl : c = c' := hc
        exact .allocateText _
      | vector _ => cases hplain
      | _ => exact hdispatch

theorem Agree.evalIndex (object index : Node) (location : Location) :
    Agree w (evalIndex object index location) (evalIndex object index location) World.Alike := by
  refine .withRoots steady_alike ?_
  refine (Agree.eval object).bind fun w₁ _ o o' ho => ?_
  refine (Agree.root ho).bind fun w₂ _ _ _ hkeptO => ?_
  refine (Agree.eval index).bind fun w₃ hle₃ i i' hi => ?_
  refine (Agree.root hi).bind fun w₄ hle₄ _ _ hkeptI => ?_
  exact .indexOp (hkeptO.mono (le_trans hle₃ hle₄)) hkeptI location

/-! ## 6. Control and declarations -/

theorem Agree.evalStatements {r r' : Ref} (h : w.Alike r r') (nodes : List Node) :
    Agree w (evalStatements r nodes) (evalStatements r' nodes) World.Alike := by
  induction nodes generalizing w r r' with
  | nil => exact .pure h
  | cons node nodes ih => exact (Agree.eval node).bind fun w' _ s s' hs => ih hs

theorem Agree.evalBranch (condition consequence : Node) (alternative : Option Node) :
    Agree w (evalBranch condition consequence alternative)
      (evalBranch condition consequence alternative) World.Alike := by
  refine .inScope steady_alike fun w₁ _ => ?_
  refine (Agree.eval condition).bind fun w₂ _ c c' hc => ?_
  rw [← hc.isTruthy_eq]
  split
  · exact .eval consequence
  · cases alternative with
    | some node => exact .eval node
    | none => exact .pure .nil

theorem Agree.evalRound (condition body : Node) :
    Agree w (evalRound condition body) (evalRound condition body) Same := by
  refine .inScope steady_same fun w₁ _ => ?_
  refine (Agree.eval condition).bind fun w₂ _ c c' hc => ?_
  rw [← hc.isTruthy_eq]
  split
  · exact (Agree.eval body).bind fun _ _ _ _ _ => .pure rfl
  · exact .pure rfl

theorem Agree.evalFunction (routine : FunctionDef) (location : Location) :
    Agree w (evalFunction routine location) (evalFunction routine location) World.Alike := by
  refine .read ?_
  rw [← w.scopes.current_eq]
  have hlaw : (Value.ofFunction ⟨routine, w.left.scopes.current, none⟩).Lawful := by
    intro c hc
    obtain rfl := Option.some.inj hc
    trivial
  refine (Agree.allocate (.plain rfl) hlaw).bind fun w₁ _ r r' hr => ?_
  exact .bindValue routine.name .immutable location hr

theorem Agree.evalMethod (typeName : Name) (routine : FunctionDef) (location : Location) :
    Agree w (evalMethod typeName routine location) (evalMethod typeName routine location)
      World.Alike := by
  refine .read ?_
  rw [← w.types_eq]
  cases w.left.types.find typeName with
  | none => exact .raiseWith (by rw [text_eq])
  | some id =>
    refine .read ?_
    rw [← w.scopes.current_eq, ← w.methods_eq]
    have hf : (Callable.user ⟨routine, w.left.scopes.current, some w.left.methods.self⟩).Lawful :=
      trivial
    refine .bind (.changeTypes (w.lawful.insertMethod id hf location)) fun w₁ _ answer _ h => ?_
    obtain ⟨rfl, -⟩ := h
    cases answer with
    | error why => exact .raiseWith (by rw [text_eq])
    | ok _ => exact .pure .nil

theorem Agree.evalImport (name : Name) (location : Location) :
    Agree w (evalImport name location) (evalImport name location) World.Alike := by
  refine .readOrRaise (Q := Same) ?_ fun _ _ _ => ?_
  · rw [← w.modules.contains_eq, text_eq]
    split
    · exact .ok rfl
    · exact .error _
  · refine (Agree.allocate_plain rfl rfl).bind fun w₁ _ r r' hr => ?_
    exact .bindValue name .immutable location hr

/-- What a node with a value comes to. -/
theorem Agree.valued {x x' : Effect Ref} (h : Agree w x x' World.Alike) :
    Agree w (Turn.value <$> x) (Turn.value <$> x') Turn.Alike :=
  .map _ h fun _ _ _ _ hr => .value hr

/-- **Every node agrees with itself.** -/
theorem Agree.evalNode (node : Node) : Agree w (evalNode node) (evalNode node) Turn.Alike := by
  unfold Effect.evalNode
  cases node.kind with
  | program => exact .valued (.evalStatements .nil _)
  | block => exact .valued (.inScope steady_alike fun _ _ => .evalStatements .nil _)
  | literal value => exact .valued (.evalLiteral value)
  | symbol name => exact .valued (.evalSymbol name)
  | vector => exact .valued (.evalVector _)
  | declare name mutability =>
    exact .child_bind node 0 fun _ _ init => .valued (.evalDeclare name mutability init _)
  | assign name => exact .child_bind node 0 fun _ _ value => .valued (.evalAssign name value)
  | binary op =>
    refine .child_bind node 0 fun _ _ left => .child_bind node 1 fun _ _ right => ?_
    exact .valued (.evalBinary op left right _)
  | unary op => exact .child_bind node 0 fun _ _ operand => .valued (.evalUnary op operand _)
  | call => exact .child_bind node 0 fun _ _ callee => .valued (.evalCall callee _ _)
  | methodCall method =>
    exact .child_bind node 0 fun _ _ receiver => .valued (.evalMethodCall method receiver _ _)
  | member name => exact .child_bind node 0 fun _ _ object => .valued (.evalMember object name)
  | index =>
    refine .child_bind node 0 fun _ _ object => .child_bind node 1 fun _ _ index => ?_
    exact .valued (.evalIndex object index _)
  | branch =>
    refine .child_bind node 0 fun _ _ condition => .child_bind node 1 fun _ _ consequence => ?_
    exact .valued (.evalBranch condition consequence _)
  | loop =>
    refine .child_bind node 0 fun _ _ condition => .child_bind node 1 fun _ _ body => ?_
    refine (Agree.evalRound condition body).bind fun _ _ goesOn goesOn' hgoes => .pure ?_
    obtain rfl : goesOn = goesOn' := hgoes
    cases goesOn with
    | true => exact .again node
    | false => exact .value .nil
  | function routine => exact .valued (.evalFunction routine _)
  | method typeName routine => exact .valued (.evalMethod typeName routine _)
  | importModule name => exact .valued (.evalImport name _)

theorem Agree.evalReporting (node : Node) :
    Agree w (evalReporting node) (evalReporting node) Turn.Alike := by
  refine (Agree.evalNode node).attempt.bind fun w₁ _ o o' ho => ?_
  cases ho with
  | ok hturn => exact .pure hturn
  | error kind =>
    refine .bind (Q := Same) (.modify (w₁.report kind node.location) rfl rfl (w₁.le_report _ _) rfl) ?_
    exact fun _ _ _ _ _ => .pure (.value .nil)

/-! ## 7. Calls -/

/-- The world of a call under way keeps what its caller keeps. -/
theorem kept_withCalls {args args' : List Ref} (h : List.Forall₂ w.Kept args args')
    (calls : CallStack) : List.Forall₂ (w.withCalls calls).Kept args args' := h

theorem Agree.enterNative {f : NativeFunction} (hf : f.Lawful) {args args' : List Ref}
    (hargs : List.Forall₂ w.Kept args args') (location : Location)
    (hq : exact ∨ f.procedure.isQuiet w.left args = true) :
    Agree w (enterNative f args location (f.procedure.run args))
      (enterNative f args' location (f.procedure.run args')) World.Alike := by
  unfold Effect.enterNative
  rw [← hargs.length_eq]
  split
  · next haccepts =>
    refine .inCall steady_alike _ fun calls => ?_
    exact .run (kept_withCalls hargs calls) _ (hf _ haccepts) hq
  · exact .raiseArity _ _ _

theorem Agree.copyArgs {args args' copies copies' : List Ref}
    (hargs : List.Forall₂ w.Kept args args') (hcopies : List.Forall₂ w.Kept copies copies') :
    Agree w (copyArgs args copies) (copyArgs args' copies') fun w' rs rs' =>
      List.Forall₂ w'.Kept rs rs' ∧ rs.length = copies.length + args.length := by
  induction args generalizing w args' copies copies' with
  | nil =>
    cases hargs
    exact .pure ⟨List.rel_reverse hcopies, by simp⟩
  | cons arg rest ih =>
    obtain ⟨arg', rest', harg, hrest, rfl⟩ := List.forall₂_cons_left_iff.1 hargs
    refine (Agree.duplicate harg).bind fun w₁ hle₁ r r' hr => ?_
    refine (Agree.root hr.alike).bind fun w₂ hle₂ _ _ hkept => ?_
    have hle := le_trans hle₁ hle₂
    refine (ih (World.forall₂_kept_mono hle hrest)
      (.cons hkept (World.forall₂_kept_mono hle hcopies))).imp fun w₃ _ rs rs' h => ⟨h.1, ?_⟩
    rw [h.2, List.length_cons, List.length_cons]
    omega

theorem Agree.arrange {f : UserFunction} {copies copies' : List Ref}
    (h : List.Forall₂ w.Kept copies copies') (haccepts : f.accepts copies.length = true) :
    Agree w (arrange f copies) (arrange f copies') fun w' => List.Forall₂ w'.Kept := by
  unfold Effect.arrange
  split
  · next hvariadic =>
    have hle : f.required ≤ copies.length := by simpa [UserFunction.accepts, hvariadic] using haccepts
    refine .demand (by simpa using hle) (by simpa [← h.length_eq] using hle) _ ?_
    have hrest := alike_of_kept (List.forall₂_drop f.required h)
    refine (Agree.allocateVector hrest).bind fun w₁ hle₁ r r' hr => ?_
    refine (Agree.root hr).bind fun w₂ hle₂ _ _ hkept => .pure ?_
    refine List.rel_append ?_ (.cons hkept .nil)
    exact World.forall₂_kept_mono (le_trans hle₁ hle₂) (List.forall₂_take f.required h)
  · exact .pure h

theorem Agree.bindParams (location : Location) (names : List Name) {values values' : List Ref}
    (h : List.Forall₂ w.Kept values values') :
    Agree w (bindParams location names values) (bindParams location names values') Same := by
  induction names generalizing w values values' with
  | nil => exact .pure rfl
  | cons name names ih =>
    cases h with
    | nil => exact .pure rfl
    | @cons value value' _ _ hvalue hvalues =>
      have hentry : Entry.Alike w.pairs ⟨value, .mutable, location⟩ ⟨value', .mutable, location⟩ :=
        ⟨hvalue.alike, rfl, rfl⟩
      refine (Agree.bindName name hentry).bind fun w₁ hle₁ _ _ _ => ?_
      exact ih (World.forall₂_kept_mono hle₁ hvalues)

theorem Agree.enterUser (f : UserFunction) {args args' : List Ref}
    (hargs : List.Forall₂ w.Kept args args') (location : Location) :
    Agree w (enterUser f args location) (enterUser f args' location) World.Alike := by
  unfold Effect.enterUser
  rw [← hargs.length_eq]
  split
  · next haccepts =>
    refine .inCall steady_alike _ fun calls => .withRoots steady_alike ?_
    refine (Agree.copyArgs (kept_withCalls hargs calls) .nil).bind fun w₁ _ copies copies' h => ?_
    have hlen : copies.length = args.length := by simpa using h.2
    refine (Agree.arrange h.1 (hlen ▸ haccepts)).bind fun w₂ _ values values' hvalues => ?_
    refine .inFunctionScope steady_alike f.scope fun w₃ hle₃ => ?_
    refine (Agree.bindParams _ f.params (World.forall₂_kept_mono hle₃ hvalues)).bind ?_
    exact fun _ _ _ _ _ => .evalStatements .nil _
  · exact .raiseArity _ _ _

/-! ## 8. Requests -/

/-- **Requests that are alike get answers that are alike.** -/
theorem Agree.perform {q q' : Request} (h : q.Alike w q') (hq : exact ∨ q.isQuiet w.left = true) :
    Agree w q.perform q'.perform Turn.Alike := by
  cases h with
  | eval node => exact .evalReporting node
  | @call c args args' location hc hargs =>
    cases c with
    | user f => exact .valued (.enterUser f hargs location)
    | native f => exact .valued (.enterNative hc hargs location hq)

end Effect

end Evaluation

end ScriptMachine
