/-
# What a computation does between two stops

A computation stops with a request, and others work on the machine until the answer is there.  What
it does itself, from its start or from an answer to its next stop, is less than what acts there are:
it begins and ends no call and logs no fault.  And what it asks for is limited too: a node it was
given, or a call of a callable that the machine holds there and then.

* `Machine.Holds`: the callables on the heap and in the method tables;
* `Machine.Move`, `Machine.Moves`: what a computation does itself, one change and any number;
* `Effect.Confined`: a computation that moves between its stops and asks for nothing else, whatever
  machine the answers leave.  There is one rule for each way to build a computation.
-/
import Mathlib.Logic.Relation
import ScriptMachine.Proofs.Conduct.Acts

namespace ScriptMachine

namespace Machine

/-! ## 1. Moves -/

/-- A callable is on the heap or in a method table. -/
def Holds (m : Machine) (c : Callable) : Prop :=
  (∃ h v, m.heap.get? h = some v ∧ v.payload.callable? = some c) ∨
    ∃ id info name entry, m.types.get? id = some info ∧ (name, entry) ∈ info.methods ∧
      entry.callable = c

/-- One change that a computation makes itself.  The functions that it makes are of `given`
routines. -/
inductive Move (given : FunctionDef → Prop) : Machine → Machine → Prop where
  | allocate {m : Machine} {v : Value} :
      (∀ f, v.payload = .function f → m.Holds (.user f) ∨ given f.routine) →
      Move given m (m.tryAllocate v).2
  | collect {m m' : Machine} {freed : Nat} : m.collectGarbage? = some (freed, m') → Move given m m'
  | store (m : Machine) (r : Ref) (position : Nat) (v : Ref) :
      Move given m (m.modifyPayload r fun p => p.setElement position v)
  | append (m : Machine) (r v : Ref) : Move given m (m.modifyPayload r fun p => p.push v)
  | addMethod (m : Machine) (type : TypeId) {f : UserFunction} (location : Location) :
      given f.routine →
      Move given m { m with types := (m.types.insertMethod type (.user f) location).2 }
  | close (m : Machine) (type : TypeId) :
      Move given m { m with types := (m.types.close type).2 }
  | write (m : Machine) (text : String) : Move given m { m with console := m.console.print text }
  | switch (m : Machine) (enabled : Bool) :
      Move given m { m with heap := m.heap.setEnabled enabled }
  | scopes (m : Machine) (scopes : ScopeStack) : Move given m { m with scopes }
  | temps (m : Machine) (temps : Array Ref) : Move given m { m with temps }
  | rendering (m : Machine) (renderDepth : Nat) : Move given m { m with renderDepth }

/-- What a computation does itself, up to its next stop. -/
def Moves (given : FunctionDef → Prop) : Machine → Machine → Prop :=
  Relation.ReflTransGen (Move given)

namespace Moves

variable {given : FunctionDef → Prop} {m m' m'' : Machine}

theorem refl (m : Machine) : m.Moves given m := Relation.ReflTransGen.refl

theorem trans (h : m.Moves given m') (h' : m'.Moves given m'') : m.Moves given m'' :=
  Relation.ReflTransGen.trans h h'

theorem single (h : m.Move given m') : m.Moves given m' := Relation.ReflTransGen.single h

theorem root (m : Machine) (r : Ref) : m.Moves given (m.root r) := by
  cases r with
  | nil => exact refl m
  | bool b => exact refl m
  | heap h => exact single (.temps m _)

end Moves

/-- **No move** logs a fault, or begins or ends a call. -/
theorem Move.untouched {given : FunctionDef → Prop} {m m' : Machine} (h : m.Move given m') :
    m'.faults = m.faults ∧ m'.calls = m.calls := by
  have hheap : (∃ heap, m' = { m with heap }) → m'.faults = m.faults ∧ m'.calls = m.calls := by
    rintro ⟨heap, rfl⟩
    exact ⟨rfl, rfl⟩
  cases h with
  | @allocate v _ => exact hheap (m.exists_heap_tryAllocate v)
  | collect h =>
    obtain ⟨swept, -, hm⟩ := Option.map_eq_some_iff.1 h
    exact hheap ⟨swept.2, (Prod.mk.inj hm).2.symm⟩
  | store r position v => exact hheap (m.exists_heap_modifyPayload r _)
  | append r v => exact hheap (m.exists_heap_modifyPayload r _)
  | _ => exact ⟨rfl, rfl⟩

theorem Moves.untouched {given : FunctionDef → Prop} {m m' : Machine} (h : m.Moves given m') :
    m'.faults = m.faults ∧ m'.calls = m.calls := by
  induction h with
  | refl => exact ⟨rfl, rfl⟩
  | tail _ hmove ih => exact ⟨hmove.untouched.1.trans ih.1, hmove.untouched.2.trans ih.2⟩

end Machine

/-! ## 2. Confined computations -/

/-- The requests that a computation may make: evaluate a node that it asks for, or call what the
machine holds. -/
def Request.Permitted (asks : Node → Prop) (m : Machine) : Request → Prop
  | .eval node => asks node
  | .call callable _ _ => m.Holds callable

/-- A computation that only moves, up to its first stop and after every answer, whatever machine the
answer leaves, and whose requests are permitted. -/
def Step.Confined {α : Type} (given : FunctionDef → Prop) (asks : Node → Prop) (m : Machine) :
    Step α → Prop
  | .done m' _ | .fault m' _ => m.Moves given m'
  | .defect _ _ => True
  | .call m' q resume =>
    m.Moves given m' ∧ q.Permitted asks m' ∧ ∀ m'' r, (resume m'' r).Confined given asks m''

namespace Step.Confined

variable {α β : Type} {given : FunctionDef → Prop} {asks : Node → Prop} {m m' : Machine}
  {s : Step α}

/-- A computation that goes on from a machine that was moved to. -/
theorem of_moves (hm : m.Moves given m') (h : s.Confined given asks m') :
    s.Confined given asks m := by
  cases s with
  | done m₁ a => exact hm.trans h
  | fault m₁ k => exact hm.trans h
  | defect m₁ d => trivial
  | call m₁ q resume => exact ⟨hm.trans h.1, h.2⟩

theorem bind (h : s.Confined given asks m) {f : α → Machine → Step β}
    (hf : ∀ a m', (f a m').Confined given asks m') : (s.bind f).Confined given asks m := by
  induction s generalizing m with
  | done m₁ a => exact .of_moves h (hf a m₁)
  | fault m₁ k => exact h
  | defect m₁ d => trivial
  | call m₁ q resume ih => exact ⟨h.1, h.2.1, fun m'' r => ih m'' r (h.2.2 m'' r)⟩

/-- A bracket whose end is a move. -/
theorem onExit (h : s.Confined given asks m) {g : Machine → Machine}
    (hg : ∀ m' : Machine, m'.Moves given (g m')) : (s.onExit g).Confined given asks m := by
  induction s generalizing m with
  | done m₁ a => exact Machine.Moves.trans h (hg m₁)
  | fault m₁ k => exact Machine.Moves.trans h (hg m₁)
  | defect m₁ d => trivial
  | call m₁ q resume ih => exact ⟨h.1, h.2.1, fun m'' r => ih m'' r (h.2.2 m'' r)⟩

end Step.Confined

namespace Effect

/-- A computation that is confined, from whatever machine it starts. -/
def Confined {α : Type} (given : FunctionDef → Prop) (asks : Node → Prop) (x : Effect α) : Prop :=
  ∀ m, (x m).Confined given asks m

variable {α β : Type} {given : FunctionDef → Prop} {asks : Node → Prop} {m : Machine}

/-! ## 3. Rules for the ways to combine -/

theorem Confined.pure (a : α) : Confined given asks (Pure.pure a) := fun m => .refl m

theorem Confined.bind {x : Effect α} {f : α → Effect β} (hx : x.Confined given asks)
    (hf : ∀ a, (f a).Confined given asks) : (x >>= f).Confined given asks :=
  fun m => (hx m).bind fun a m' => hf a m'

theorem Confined.map (g : α → β) {x : Effect α} (hx : x.Confined given asks) :
    (g <$> x).Confined given asks :=
  hx.bind fun a => .pure (g a)

theorem Confined.raise (kind : FaultKind) : Confined given asks (raise kind : Effect α) :=
  fun m => .refl m

theorem Confined.raiseWith (kind : Machine → FaultKind) :
    Confined given asks (raiseWith kind : Effect α) :=
  fun m => .refl m

/-! ## 4. Rules for reading -/

theorem Confined.read (f : Machine → α) : Confined given asks (read f) := fun m => .refl m

/-- Going on with a fact about the machine, which holds there and then. -/
theorem confined_read {f : Machine → α} {g : α → Effect β}
    (hg : (g (f m) m).Confined given asks m) : ((Effect.read f >>= g) m).Confined given asks m :=
  hg

theorem confined_readOrRaise {f : Machine → Except FaultKind α} {g : α → Effect β}
    (hg : ∀ a, f m = .ok a → (g a m).Confined given asks m) :
    ((Effect.readOrRaise f >>= g) m).Confined given asks m := by
  show (Step.bind (Effect.readOrRaise f m) g).Confined given asks m
  unfold Effect.readOrRaise
  cases h : f m with
  | ok a => exact hg a h
  | error k => exact .refl m

theorem confined_readOrDefect {f : Machine → Except Defect α} {g : α → Effect β}
    (hg : ∀ a, f m = .ok a → (g a m).Confined given asks m) :
    ((Effect.readOrDefect f >>= g) m).Confined given asks m := by
  show (Step.bind (Effect.readOrDefect f m) g).Confined given asks m
  unfold Effect.readOrDefect
  cases h : f m with
  | ok a => exact hg a h
  | error d => trivial

/-- Going on with the value behind a reference, which is there. -/
theorem confined_value {r : Ref} {g : Value → Effect β}
    (hg : ∀ v, m.resolve r = .ok v → (g v m).Confined given asks m) :
    ((Effect.value r >>= g) m).Confined given asks m :=
  confined_readOrDefect hg

theorem Confined.readOrRaise (f : Machine → Except FaultKind α) :
    Confined given asks (readOrRaise f) := by
  intro m
  unfold Effect.readOrRaise
  cases f m with
  | ok a => exact .refl m
  | error k => exact .refl m

theorem Confined.readOrDefect (f : Machine → Except Defect α) :
    Confined given asks (readOrDefect f) := by
  intro m
  unfold Effect.readOrDefect
  cases f m with
  | ok a => exact .refl m
  | error d => trivial

theorem Confined.value (r : Ref) : Confined given asks (value r) := .readOrDefect _

theorem Confined.typeText (r : Ref) : Confined given asks (typeText r) := .readOrDefect _

theorem Confined.raiseAbout (r : Ref) (kind : String → FaultKind) :
    Confined given asks (raiseAbout r kind : Effect α) :=
  .bind (.typeText r) fun s => .raise (kind s)

theorem Confined.demand (condition : Bool) (d : Defect) :
    Confined given asks (demand condition d) := by
  intro m
  unfold Effect.demand
  cases condition with
  | true => exact .refl m
  | false => trivial

/-! ## 5. Rules for moves -/

theorem confined_modify {f : Machine → Machine} (h : m.Move given (f m)) :
    (Effect.modify f m).Confined given asks m :=
  .single h

theorem Confined.modify {f : Machine → Machine} (h : ∀ m : Machine, m.Move given (f m)) :
    Confined given asks (modify f) :=
  fun m => confined_modify (h m)

/-- Going on with the answer of the table of types, whether it accepted or refused. -/
theorem confined_changeTypes {f : TypeTable → α × TypeTable} {g : α → Effect β}
    (h : m.Move given { m with types := (f m.types).2 }) (hg : ∀ a, (g a).Confined given asks) :
    ((Effect.changeTypes f >>= g) m).Confined given asks m :=
  .of_moves (.single h) (hg _ _)

theorem Confined.allocate {v : Value} (h : ∀ f, v.payload = .function f → given f.routine) :
    Confined given asks (allocate v) := by
  intro m
  have hmove : m.Move given (m.tryAllocate v).2 := .allocate fun f hf => .inr (h f hf)
  unfold Effect.allocate
  generalize m.tryAllocate v = result at hmove
  obtain ⟨result, m'⟩ := result
  cases result with
  | ok r => exact .single hmove
  | error why => trivial

theorem Confined.root (r : Ref) : Confined given asks (root r) := fun m => .root m r

theorem Confined.bindName (name : Name) (entry : Entry) :
    Confined given asks (bindName name entry) := by
  intro m
  unfold Effect.bindName
  generalize m.scopes.bind name entry = result
  obtain ⟨result, scopes⟩ := result
  cases result with
  | ok _ => exact .single (.scopes m scopes)
  | error why => exact .single (.scopes m scopes)

/-! ## 6. Rules for requests and brackets -/

theorem confined_request {q : Request} (h : q.Permitted asks m) :
    (Effect.request q m).Confined given asks m := by
  refine ⟨.refl m, h, fun m' r => ?_⟩
  cases r with
  | ok v => exact .refl m'
  | error k => exact .refl m'

theorem Confined.eval {node : Node} (h : asks node) : Confined given asks (eval node) :=
  fun _ => confined_request h

theorem Confined.withRoots {x : Effect α} (hx : x.Confined given asks) :
    Confined given asks (withRoots x) :=
  fun m => (hx m).onExit fun m' => .single (.temps m' _)

theorem Confined.inScope {x : Effect α} (hx : x.Confined given asks) :
    Confined given asks (inScope x) :=
  fun m => .of_moves (.single (.scopes m _)) ((hx _).onExit fun m' => .single (.scopes m' _))

theorem Confined.inFunctionScope (parent : ScopeId) {x : Effect α} (hx : x.Confined given asks) :
    Confined given asks (inFunctionScope parent x) :=
  fun m => .of_moves (.single (.scopes m _)) ((hx _).onExit fun m' => .single (.scopes m' _))

theorem Confined.inRendering {x : Effect α} (hx : x.Confined given asks) :
    Confined given asks (inRendering x) :=
  fun m => .of_moves (.single (.rendering m _)) ((hx _).onExit fun m' => .single (.rendering m' _))

end Effect

end ScriptMachine
