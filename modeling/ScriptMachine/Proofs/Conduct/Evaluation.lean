/-
# Evaluation is orderly

Every kind of node, every call and every rendering does nothing but act, and so does a run that
answers all requests on the way.  A run is a stack: the computation at work began at some machine
and is orderly from there on, and each computation that waits goes on orderly from wherever the
answer leaves the machine.  One step keeps that, and so does a run.

* `Effect.Orderly.evalNode`, `Effect.Orderly.perform`: nodes and requests;
* `Run.Orderly.next`, `Run.Orderly.finish`: one step, and a run;
* `Machine.run_follows`: where the run of any orderly computation can be, at its end and at every
  moment.
-/
import ScriptMachine.Machine.Host
import ScriptMachine.Proofs.Conduct.Builtin

namespace ScriptMachine

namespace Effect

variable {α β : Type} {rooting : Bool}

/-! ## 1. Constants, variables and vectors -/

theorem Orderly.child (node : Node) (i : Nat) : Orderly rooting (child node i) := by
  unfold Effect.child
  split
  · exact .pure _
  · exact .raise _

theorem Orderly.evalLiteral (literal : Literal) : Orderly rooting (evalLiteral literal) := by
  cases literal with
  | nil => exact .pure _
  | bool b => exact .pure _
  | int i => exact .allocateInt i
  | real x => exact .allocateReal x
  | str s => exact .allocateText s

theorem Orderly.evalRooted (nodes : List Node) (values : List Ref) :
    Orderly true (evalRooted nodes values) := by
  induction nodes generalizing values with
  | nil => exact .pure _
  | cons node rest ih => exact .bind (.eval node) fun v => .bind (.root v) fun _ => ih (v :: values)

theorem Orderly.evalVector (elements : List Node) : Orderly rooting (evalVector elements) :=
  .withRoots (.bind (.evalRooted elements []) fun _ => .allocateVector _)

/-- Evaluating a node whose value is kept alive while the rest runs. -/
theorem Orderly.evalThen (node : Node) {f : Ref → Effect α} (hf : ∀ v, (f v).Orderly true) :
    Orderly true (do let v ← Effect.eval node; Effect.root v; f v) :=
  .bind (.eval node) fun v => .bind (.root v) fun _ => hf v

/-! ## 2. Bindings -/

theorem Orderly.evalDeclare (name : Name) (mutability : Mutability) (init : Node)
    (location : Location) : Orderly rooting (evalDeclare name mutability init location) :=
  .bind (.eval init) fun _ => .bind (.bindName name _) fun _ => .pure _

theorem Orderly.assignName (name : Name) (v : Ref) : Orderly rooting (assignName name v) := by
  intro m
  have hact := Machine.Act.assign m name v
  unfold Effect.assignName
  generalize m.scopes.assign name v = result at hact
  obtain ⟨result, scopes⟩ := result
  cases result with
  | ok _ => exact .act hact
  | error why => exact .act hact

theorem Orderly.evalAssign (name : Name) (node : Node) : Orderly rooting (evalAssign name node) :=
  .bind (.readOrRaise _) fun _ => .bind (.eval node) fun v =>
    .bind (.assignName name v) fun _ => .pure v

/-! ## 3. Operators -/

theorem Orderly.binaryMethod (op : BinaryOp) (l r : Ref) (location : Location) :
    Orderly rooting (binaryMethod op l r location) := by
  refine .bind (.read _) fun method => ?_
  split
  · exact .callMethod l _ [r] location
  · exact .raiseAbout l _

theorem Orderly.binaryOp (op : BinaryOp) (l r : Ref) (location : Location) :
    Orderly rooting (binaryOp op l r location) := by
  refine .bind (.value l) fun a => .bind (.value r) fun b => ?_
  split
  · exact .allocateOrRaise _
  · exact .binaryMethod op l r location

theorem Orderly.expectBool (op : BinaryOp) (r : Ref) : Orderly rooting (expectBool op r) := by
  unfold Effect.expectBool
  split
  · exact .pure _
  · exact .raiseAbout r _

theorem Orderly.evalLogical (op : BinaryOp) (left right : Node) (decisive : Bool) :
    Orderly rooting (evalLogical op left right decisive) := by
  refine .bind (.eval left) fun l => .bind (.expectBool op l) fun a => ?_
  split
  · exact .pure _
  · exact .bind (.eval right) fun r => .bind (.expectBool op r) fun _ => .pure _

theorem Orderly.evalBinary (op : BinaryOp) (left right : Node) (location : Location) :
    Orderly rooting (evalBinary op left right location) := by
  unfold Effect.evalBinary
  split
  · exact .evalLogical _ left right false
  · exact .evalLogical _ left right true
  · exact .withRoots (.evalThen left fun l => .evalThen right fun r => .binaryOp _ l r location)

theorem Orderly.unaryOp (op : UnaryOp) (r : Ref) (location : Location) :
    Orderly rooting (unaryOp op r location) := by
  refine .bind (.value r) fun v => ?_
  split
  · exact .allocateOrRaise _
  · exact .callKnown _ r [] location

theorem Orderly.evalUnary (op : UnaryOp) (operand : Node) (location : Location) :
    Orderly rooting (evalUnary op operand location) :=
  .withRoots (.evalThen operand fun v => .unaryOp op v location)

/-! ## 4. Calls, members and elements -/

theorem Orderly.evalCall (callee : Node) (args : List Node) (location : Location) :
    Orderly rooting (evalCall callee args location) :=
  .withRoots (.evalThen callee fun f => .bind (.evalRooted args []) fun args =>
    .callValue f args location)

theorem Orderly.moduleMember (name member : Name) : Orderly rooting (moduleMember name member) :=
  .readOrRaise _

theorem Orderly.evalMethodCall (method : Name) (receiver : Node) (args : List Node)
    (location : Location) : Orderly rooting (evalMethodCall method receiver args location) := by
  refine .withRoots (.evalThen receiver fun r => .bind (.evalRooted args []) fun args =>
    .bind (.value r) fun v => ?_)
  split
  · exact .bind (.moduleMember _ method) fun f => .callValue f args location
  · exact .callMethod r method args location

theorem Orderly.instanceMember (r : Ref) (v : Value) (member : Name) :
    Orderly rooting (instanceMember r v member) := by
  refine .bind (.read _) fun field => ?_
  split
  · exact .pure _
  · exact .bind (.renderPlain r) fun owner => .raiseWith _

theorem Orderly.evalMember (object : Node) (member : Name) :
    Orderly rooting (evalMember object member) := by
  refine .bind (.eval object) fun r => .bind (.value r) fun v => ?_
  split
  · exact .moduleMember _ member
  · exact .instanceMember r v member

theorem Orderly.elementAt (index : Int64) (length : Nat) (get : Nat → Option α) :
    Orderly rooting (elementAt index length get) := by
  unfold Effect.elementAt
  split
  · exact .pure _
  · exact .raise _

theorem Orderly.indexOp (object index : Ref) (location : Location) :
    Orderly rooting (indexOp object index location) := by
  refine .bind (.value index) fun i => ?_
  split
  · exact .callKnown _ object [index] location
  · refine .bind (.value object) fun v => ?_
    split
    · exact .elementAt _ _ _
    · exact .bind (.elementAt _ _ _) fun c => .allocateText _
    · exact .callKnown _ object [index] location

theorem Orderly.evalIndex (object index : Node) (location : Location) :
    Orderly rooting (evalIndex object index location) :=
  .withRoots (.evalThen object fun o => .evalThen index fun i => .indexOp o i location)

/-! ## 5. Control -/

theorem Orderly.evalBranch (condition consequence : Node) (alternative : Option Node) :
    Orderly rooting (evalBranch condition consequence alternative) := by
  refine .inScope (.bind (.eval condition) fun c => ?_)
  split
  · exact .eval consequence
  · split
    · exact .eval _
    · exact .pure _

theorem Orderly.evalRound (condition body : Node) : Orderly rooting (evalRound condition body) := by
  refine .inScope (.bind (.eval condition) fun c => ?_)
  split
  · exact .bind (.eval body) fun _ => .pure _
  · exact .pure _

/-! ## 6. Declarations of functions, methods and imports -/

theorem Orderly.evalFunction (routine : FunctionDef) (location : Location) :
    Orderly rooting (evalFunction routine location) :=
  .bind (.read _) fun _ => .bind (.allocate fun _ => .function _) fun _ =>
    .bind (.bindName _ _) fun _ => .pure _

theorem Orderly.evalMethod (typeName : Name) (routine : FunctionDef) (location : Location) :
    Orderly rooting (evalMethod typeName routine location) := by
  refine .bind (.read _) fun found => ?_
  cases found with
  | none => exact .raiseWith _
  | some type =>
    refine .bind (.read _) fun f => .bind (.changeTypes fun m => .addMethod m type _ _) fun answer => ?_
    cases answer with
    | error why => exact .raiseWith _
    | ok _ => exact .pure _

/-- The module that is imported is there. -/
theorem Orderly.evalImport (name : Name) (location : Location) :
    Orderly rooting (evalImport name location) := by
  intro m
  refine follows_readOrRaise fun _ hknown => ?_
  split at hknown
  · next hmodule =>
    refine Step.Follows.bind (follows_allocate (.module hmodule)) fun v m' hm => ?_
    have hbind : Orderly rooting (do Effect.bindName name ⟨v, .immutable, location⟩; Pure.pure v) :=
      .bind (.bindName name _) fun _ => .pure v
    exact .of_proceeds hm (hbind m')
  · cases hknown

/-! ## 7. Nodes and requests -/

/-- **Every node is orderly**, of whatever shape. -/
theorem Orderly.evalNode (node : Node) : Orderly rooting (evalNode node) := by
  unfold Effect.evalNode
  split
  · exact .map _ (.evalStatements _ _)
  · exact .map _ (.inScope (.evalStatements _ _))
  · exact .map _ (.evalLiteral _)
  · exact .map _ (.readOrRaise _)
  · exact .map _ (.evalVector _)
  · exact .bind (.child node 0) fun init => .map _ (.evalDeclare _ _ init _)
  · exact .bind (.child node 0) fun value => .map _ (.evalAssign _ value)
  · exact .bind (.child node 0) fun left => .bind (.child node 1) fun right =>
      .map _ (.evalBinary _ left right _)
  · exact .bind (.child node 0) fun operand => .map _ (.evalUnary _ operand _)
  · exact .bind (.child node 0) fun callee => .map _ (.evalCall callee _ _)
  · exact .bind (.child node 0) fun receiver => .map _ (.evalMethodCall _ receiver _ _)
  · exact .bind (.child node 0) fun object => .map _ (.evalMember object _)
  · exact .bind (.child node 0) fun object => .bind (.child node 1) fun index =>
      .map _ (.evalIndex object index _)
  · exact .bind (.child node 0) fun condition => .bind (.child node 1) fun consequence =>
      .map _ (.evalBranch condition consequence _)
  · exact .bind (.child node 0) fun condition => .bind (.child node 1) fun body =>
      .bind (.evalRound condition body) fun _ => .pure _
  · exact .map _ (.evalFunction _ _)
  · exact .map _ (.evalMethod _ _ _)
  · exact .map _ (.evalImport _ _)

/-- Logging a fault, then answering. -/
theorem Orderly.report (kind : FaultKind) (location : Location) {x : Effect α}
    (hx : x.Orderly rooting) :
    Orderly rooting (do Effect.modify fun m => m.report kind location; x) :=
  .bind (.modify fun m => .report m kind location) fun _ => hx

theorem Orderly.evalReporting (node : Node) : Orderly rooting (evalReporting node) := by
  refine .attempt_bind (.evalNode node) fun outcome => ?_
  cases outcome with
  | ok turn => exact .pure _
  | error kind => exact .report kind _ (.pure _)

/-- **Every request is answered orderly.** -/
theorem Orderly.perform (q : Request) : Orderly rooting q.perform := by
  cases q with
  | eval node => exact .evalReporting node
  | call callable args location =>
    cases callable with
    | native f => exact .bind (.enterNative f args location (.run _ args)) fun _ => .pure _
    | user f => exact .bind (.enterUser f args location) fun _ => .pure _

theorem Orderly.display (r : Ref) : Orderly rooting (display r) := by
  refine .attempt_bind (.render r) fun outcome => ?_
  cases outcome with
  | ok text => exact .pure _
  | error kind => exact .report kind _ (.renderPlain r)

end Effect

/-! ## 8. Runs -/

/-- Computations that wait for a machine to which `m` proceeds.  The one in front began at `v`, and
those behind it wait for it; below all of them is `base`. -/
inductive Waits (base : Machine) : Machine → List Continuation → Prop where
  | nil {m : Machine} : base.Proceeds false m → Waits base m []
  | cons {m v : Machine} {resume : Continuation} {rest : List Continuation} : v.Passes m →
      (∀ m' r, m.Proceeds false m' → (resume m' r).Follows false v) → Waits base v rest →
      Waits base m (resume :: rest)

namespace Waits

variable {base m m' : Machine} {waiting : List Continuation}

/-- Who waits for a machine waits for every machine that it proceeds to. -/
theorem mono (h : Waits base m waiting) (hm : m.Proceeds false m') : Waits base m' waiting := by
  cases h with
  | nil hbase => exact .nil (hbase.trans hm)
  | cons hpasses hresume hrest =>
    exact .cons (hpasses.trans (.proceeds hm)) (fun _ r hm' => hresume _ r (hm.trans hm')) hrest

/-- A machine that is waited for is a moment of the whole run. -/
theorem passes (h : Waits base m waiting) : base.Passes m := by
  induction h with
  | nil hbase => exact .proceeds hbase
  | cons hpasses _ _ ih => exact ih.trans hpasses

end Waits

/-- A run that began at `base`: the computation at work is orderly from the machine it began at, and
the others wait for its end. -/
def Run.Orderly (base : Machine) (run : Run) : Prop :=
  ∃ m, run.current.Follows false m ∧ Waits base m run.waiting

/-- Where a run that began at `base` can end: with all brackets closed, unless it was cut short. -/
def Outcome.Follows {α : Type} (base : Machine) : Outcome α → Prop
  | .value m _ | .fault m _ => base.Proceeds false m
  | .defect m _ | .outOfSteps m => base.Passes m

/-- What one step of a run comes to. -/
def Run.Advances (base : Machine) : Outcome Ref ⊕ Run → Prop
  | .inl outcome => outcome.Follows base
  | .inr run => run.Orderly base

namespace Run.Orderly

variable {base : Machine} {run : Run}

/-- The machine of a run is a moment of it. -/
theorem passes (h : run.Orderly base) : base.Passes run.machine := by
  obtain ⟨current, waiting⟩ := run
  obtain ⟨m, hcurrent, hwaiting⟩ := h
  cases current with
  | done m' turn => exact hwaiting.passes.trans (.proceeds hcurrent)
  | fault m' kind => exact hwaiting.passes.trans (.proceeds hcurrent)
  | defect m' d => exact hwaiting.passes.trans hcurrent
  | call m' q resume => exact hwaiting.passes.trans hcurrent.1

/-- **One step** of an orderly run. -/
theorem next (h : run.Orderly base) : Run.Advances base run.next := by
  obtain ⟨current, waiting⟩ := run
  obtain ⟨m, hcurrent, hwaiting⟩ := h
  cases current with
  | done m' turn =>
    cases turn with
    | again node => exact ⟨m', Effect.Orderly.perform (.eval node) m', hwaiting.mono hcurrent⟩
    | value r =>
      cases hwaiting with
      | nil hbase => exact hbase.trans hcurrent
      | cons _ hresume hrest => exact ⟨_, hresume m' (.ok r) hcurrent, hrest⟩
  | fault m' kind =>
    cases hwaiting with
    | nil hbase => exact hbase.trans hcurrent
    | cons _ hresume hrest => exact ⟨_, hresume m' (.error kind) hcurrent, hrest⟩
  | defect m' d => exact hwaiting.passes.trans hcurrent
  | call m' q resume =>
    -- the computation that asked began at `m` and now waits for the answer
    exact ⟨m', Effect.Orderly.perform q m', .cons hcurrent.1 hcurrent.2 hwaiting⟩

/-- **A run** of at most `n` steps. -/
theorem finish (h : run.Orderly base) (n : Nat) : (run.finish n).2.Follows base := by
  induction n generalizing run with
  | zero => exact h.passes
  | succ n ih =>
    have hstep := h.next
    unfold Run.finish
    cases hnext : run.next with
    | inl outcome =>
      rw [hnext] at hstep
      exact hstep
    | inr run' =>
      rw [hnext] at hstep
      exact ih hstep

end Run.Orderly

/-- Answering all requests of an orderly computation. -/
theorem Step.Follows.run {α : Type} {m : Machine} {s : Step α} (h : s.Follows false m) (n : Nat) :
    (s.run n).Follows m := by
  induction s generalizing n with
  | done m' a => exact h
  | fault m' k => exact h
  | defect m' d => exact h
  | call m' q resume ih =>
    have hrun : (Run.mk (q.perform m') []).Orderly m' :=
      ⟨m', Effect.Orderly.perform q m', .nil (.refl m')⟩
    have hfinish := hrun.finish n
    unfold Step.run
    generalize (Run.mk (q.perform m') []).finish n = result at hfinish
    obtain ⟨k, outcome⟩ := result
    cases outcome with
    | value m'' r => exact ih m'' (.ok r) (h.2 m'' (.ok r) hfinish) k
    | fault m'' kind => exact ih m'' (.error kind) (h.2 m'' (.error kind) hfinish) k
    | defect m'' d => exact h.1.trans hfinish
    | outOfSteps m'' => exact h.1.trans hfinish

namespace Machine

/-- **The run of an orderly computation** ends with all brackets closed, or is cut short at one of its
moments.  A run of `n` steps that is out of steps shows the `n`-th of them. -/
theorem run_follows {α : Type} {x : Effect α} (hx : x.Orderly false) (m : Machine) (n : Nat) :
    (m.run n x).Follows m := by
  have hrun := (hx m).run n
  unfold Machine.run
  generalize (x m).run n = outcome at hrun
  cases outcome with
  | value m' a => exact hrun
  | fault m' k => exact hrun
  | defect m' d => exact .unwound hrun
  | outOfSteps m' => exact hrun

/-- The machine that a run shows, however far it came, is one of its moments. -/
theorem run_passes {α : Type} {x : Effect α} (hx : x.Orderly false) (m : Machine) (n : Nat) :
    m.Passes (m.run n x).machine := by
  have hrun := run_follows hx m n
  generalize m.run n x = outcome at hrun
  cases outcome with
  | value m' a => exact .proceeds hrun
  | fault m' k => exact .proceeds hrun
  | defect m' d => exact hrun
  | outOfSteps m' => exact hrun

end Machine

end ScriptMachine
