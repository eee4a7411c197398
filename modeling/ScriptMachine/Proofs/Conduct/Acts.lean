/-
# What a computation can do to its machine

Everything that evaluation does to a machine is listed here once: eleven kinds of acts, and four kinds
of brackets that are entered and left again (a scope, a call, a rendering, a stretch of temporary
roots).  What an evaluation keeps is then proved act by act, without looking at the evaluator again.

* `Machine.Makes`: the values that are placed on the heap;
* `Machine.Act`: one act;
* `Machine.Proceeds`: from the start of a computation to its end, every bracket closed;
* `Machine.Passes`: from the start of a computation to any of its moments, brackets still open;
* `Effect.Orderly`: a computation that does nothing else, from whatever machine it starts.  There
  is one rule for each way to build a computation, and none looks inside the computations it
  combines.
-/
import ScriptMachine.Machine.Step

namespace ScriptMachine

/-! ## 1. Acts -/

namespace Machine

/-- The values that evaluation places on the heap of a machine. -/
inductive Makes (m : Machine) : Value → Prop where
  | int (i : Int64) : Makes m (.ofInt i)
  | real (x : Double) : Makes m (.ofReal x)
  | str (s : String) : Makes m (.ofStr s)
  | vector (items : Array Ref) : Makes m (.ofVector items)
  | function (f : UserFunction) : Makes m (.ofFunction f)
  | module {name : Name} : m.modules.contains name = true → Makes m (.ofModule name)
  | typeOf {r : Ref} {v : Value} : m.resolve r = .ok v → Makes m (.ofType v.type)
  | object {type : TypeId} {info : TypeInfo} {slots : Array Ref} : m.types.get? type = some info →
      info.kind = .object → type ≠ .baseObject → info.isSealed = true →
      slots.size = info.members.size → Makes m ⟨type, .fields slots⟩
  | copy {h : Handle} {v : Value} : m.heap.get? h = some v → Makes m v

/-- One act of a computation. -/
inductive Act : Machine → Machine → Prop where
  /-- Place a value, or find that there is no room for it. -/
  | allocate {m : Machine} {v : Value} : m.Makes v → Act m (m.tryAllocate v).2
  | collect {m m' : Machine} {freed : Nat} : m.collectGarbage? = some (freed, m') → Act m m'
  | store (m : Machine) (r : Ref) (position : Nat) (v : Ref) :
      Act m (m.modifyPayload r fun p => p.setElement position v)
  | append (m : Machine) (r v : Ref) : Act m (m.modifyPayload r fun p => p.push v)
  | bind (m : Machine) (name : Name) (entry : Entry) :
      Act m { m with scopes := (m.scopes.bind name entry).2 }
  | assign (m : Machine) (name : Name) (v : Ref) :
      Act m { m with scopes := (m.scopes.assign name v).2 }
  | addMethod (m : Machine) (type : TypeId) (callable : Callable) (location : Location) :
      Act m { m with types := (m.types.insertMethod type callable location).2 }
  | close (m : Machine) (type : TypeId) : Act m { m with types := (m.types.close type).2 }
  | report (m : Machine) (kind : FaultKind) (location : Location) : Act m (m.report kind location)
  | write (m : Machine) (text : String) : Act m { m with console := m.console.print text }
  | switch (m : Machine) (enabled : Bool) : Act m { m with heap := m.heap.setEnabled enabled }

/-- An allocation changes nothing but the heap. -/
theorem exists_heap_tryAllocate (m : Machine) (v : Value) :
    ∃ heap, (m.tryAllocate v).2 = { m with heap } := by
  unfold tryAllocate makeRoom?
  split
  · next m' hroom =>
    split at hroom
    · obtain ⟨collected, hcollect, rfl⟩ := Option.map_eq_some_iff.1 hroom
      obtain ⟨swept, -, rfl⟩ := Option.map_eq_some_iff.1 hcollect
      exact ⟨_, rfl⟩
    · obtain rfl := Option.some.inj hroom
      exact ⟨_, rfl⟩
  · exact ⟨_, rfl⟩

/-- Neither does a write. -/
theorem exists_heap_modifyPayload (m : Machine) (r : Ref) (f : Payload → Payload) :
    ∃ heap, m.modifyPayload r f = { m with heap } := by
  cases r with
  | nil => exact ⟨_, rfl⟩
  | bool b => exact ⟨_, rfl⟩
  | heap h => exact ⟨_, rfl⟩

/-- **What one act can change**: the heap, a binding, the types, the fault log, or the output. -/
theorem Act.parts {m m' : Machine} (h : m.Act m') :
    (∃ heap, m' = { m with heap }) ∨
    (∃ name entry, m' = { m with scopes := (m.scopes.bind name entry).2 }) ∨
    (∃ name v, m' = { m with scopes := (m.scopes.assign name v).2 }) ∨
    (∃ types, m' = { m with types }) ∨ (∃ kind location, m' = m.report kind location) ∨
    ∃ text, m' = { m with console := m.console.print text } := by
  cases h with
  | allocate _ => exact .inl (m.exists_heap_tryAllocate _)
  | collect h =>
    obtain ⟨swept, -, hm⟩ := Option.map_eq_some_iff.1 h
    exact .inl ⟨swept.2, (Prod.mk.inj hm).2.symm⟩
  | store r position v => exact .inl (m.exists_heap_modifyPayload r _)
  | append r v => exact .inl (m.exists_heap_modifyPayload r _)
  | bind name entry => exact .inr (.inl ⟨name, entry, rfl⟩)
  | assign name v => exact .inr (.inr (.inl ⟨name, v, rfl⟩))
  | addMethod type callable location => exact .inr (.inr (.inr (.inl ⟨_, rfl⟩)))
  | close type => exact .inr (.inr (.inr (.inl ⟨_, rfl⟩)))
  | report kind location => exact .inr (.inr (.inr (.inr (.inl ⟨kind, location, rfl⟩))))
  | write text => exact .inr (.inr (.inr (.inr (.inr ⟨text, rfl⟩))))
  | switch enabled => exact .inl ⟨_, rfl⟩

/-! ## 2. Stretches and moments -/

/-- From the start of a computation to its end.  Only one that is `rooting` may leave temporary roots
behind. -/
inductive Proceeds : Bool → Machine → Machine → Prop where
  | refl {rooting : Bool} (m : Machine) : Proceeds rooting m m
  | trans {rooting : Bool} {m m' m'' : Machine} : Proceeds rooting m m' → Proceeds rooting m' m'' →
      Proceeds rooting m m''
  | act {rooting : Bool} {m m' : Machine} : m.Act m' → Proceeds rooting m m'
  | root (m : Machine) (r : Ref) : Proceeds true m (m.root r)
  | released {rooting : Bool} {m m' : Machine} : Proceeds true m m' →
      Proceeds rooting m (m'.releaseTo m.temps.size)
  | scope {rooting : Bool} {m m' : Machine} {parent : Nat} (h : parent < m.scopes.frames.size) :
      Proceeds rooting { m with scopes := m.scopes.pushAt parent h } m' →
      Proceeds rooting m { m' with scopes := m'.scopes.pop }
  | call {rooting : Bool} {m m' : Machine} {frame : CallFrame} {calls : CallStack} :
      m.calls.push frame = (.ok (), calls) → Proceeds rooting { m with calls } m' →
      Proceeds rooting m { m' with calls := m'.calls.pop }
  | rendering {rooting : Bool} {m m' : Machine} :
      Proceeds rooting { m with renderDepth := m.renderDepth + 1 } m' →
      Proceeds rooting m { m' with renderDepth := m'.renderDepth - 1 }

/-- From the start of a computation to one of its moments: some brackets may be open. -/
inductive Passes : Machine → Machine → Prop where
  | proceeds {rooting : Bool} {m m' : Machine} : m.Proceeds rooting m' → Passes m m'
  | trans {m m' m'' : Machine} : Passes m m' → Passes m' m'' → Passes m m''
  | scope (m : Machine) {parent : Nat} (h : parent < m.scopes.frames.size) :
      Passes m { m with scopes := m.scopes.pushAt parent h }
  | call {m : Machine} {frame : CallFrame} {calls : CallStack} :
      m.calls.push frame = (.ok (), calls) → Passes m { m with calls }
  | rendering (m : Machine) : Passes m { m with renderDepth := m.renderDepth + 1 }
  /-- A defect leaves all scopes that the computation had entered. -/
  | unwound {m m' : Machine} : Passes m m' →
      Passes m { m' with scopes := m'.scopes.unwindTo m.scopes.depth }

variable {m m' m'' : Machine} {rooting : Bool}

theorem Passes.refl (m : Machine) : m.Passes m := .proceeds (.refl m : m.Proceeds false m)

theorem Act.passes (h : m.Act m') : m.Passes m' := .proceeds (.act h : m.Proceeds false m')

/-- What may root need not. -/
theorem Proceeds.weaken (h : m.Proceeds false m') : m.Proceeds rooting m' := by
  generalize hfalse : false = b at h
  induction h with
  | refl m => exact .refl m
  | trans _ _ ih ih' => exact .trans (ih hfalse) (ih' hfalse)
  | act h => exact .act h
  | root m r => cases hfalse
  | released h _ => exact .released h
  | scope h _ ih => exact .scope h (ih hfalse)
  | call h _ ih => exact .call h (ih hfalse)
  | rendering _ ih => exact .rendering (ih hfalse)

end Machine

/-! ## 3. Orderly computations -/

/-- A computation begun at `m` that does nothing but act, up to its first stop and after every answer.
Answers come from computations that end with all brackets closed and no roots left. -/
def Step.Follows {α : Type} (rooting : Bool) (m : Machine) : Step α → Prop
  | .done m' _ | .fault m' _ => m.Proceeds rooting m'
  | .defect m' _ => m.Passes m'
  | .call m' _ resume =>
    m.Passes m' ∧ ∀ m'' r, m'.Proceeds false m'' → (resume m'' r).Follows rooting m

namespace Step.Follows

variable {α β : Type} {rooting inner : Bool} {m m' : Machine} {s : Step α}

/-- A computation that goes on from a later machine. -/
theorem of_proceeds (hm : m.Proceeds rooting m') (h : s.Follows rooting m') :
    s.Follows rooting m := by
  induction s with
  | done m₁ a => exact hm.trans h
  | fault m₁ k => exact hm.trans h
  | defect m₁ d => exact .trans (.proceeds hm) h
  | call m₁ q resume ih =>
    exact ⟨.trans (.proceeds hm) h.1, fun m'' r hanswer => ih m'' r (h.2 m'' r hanswer)⟩

theorem bind (h : s.Follows rooting m) {f : α → Machine → Step β}
    (hf : ∀ a m', m.Proceeds rooting m' → (f a m').Follows rooting m) :
    (s.bind f).Follows rooting m := by
  induction s with
  | done m₁ a => exact hf a m₁ h
  | fault m₁ k => exact h
  | defect m₁ d => exact h
  | call m₁ q resume ih => exact ⟨h.1, fun m'' r hanswer => ih m'' r (h.2 m'' r hanswer)⟩

/-- A bracket around a computation whose end is a change of the machine. -/
theorem onExit (h : s.Follows inner m') {g : Machine → Machine} (henter : m.Passes m')
    (hexit : ∀ m₁, m'.Proceeds inner m₁ → m.Proceeds rooting (g m₁)) :
    (s.onExit g).Follows rooting m := by
  induction s with
  | done m₁ a => exact hexit m₁ h
  | fault m₁ k => exact hexit m₁ h
  | defect m₁ d => exact henter.trans h
  | call m₁ q resume ih =>
    exact ⟨henter.trans h.1, fun m'' r hanswer => ih m'' r (h.2 m'' r hanswer)⟩

/-- A bracket around a computation whose end is another computation. -/
theorem attempt_bind (h : s.Follows inner m') {f : Except FaultKind α → Machine → Step β}
    (henter : m.Passes m') (hexit : ∀ r m₁, m'.Proceeds inner m₁ → (f r m₁).Follows rooting m) :
    (s.attempt.bind f).Follows rooting m := by
  induction s with
  | done m₁ a => exact hexit (.ok a) m₁ h
  | fault m₁ k => exact hexit (.error k) m₁ h
  | defect m₁ d => exact henter.trans h
  | call m₁ q resume ih =>
    exact ⟨henter.trans h.1, fun m'' r hanswer => ih m'' r (h.2 m'' r hanswer)⟩

end Step.Follows

namespace Effect

/-- A computation that does nothing but act, from whatever machine it starts. -/
def Orderly {α : Type} (rooting : Bool) (x : Effect α) : Prop := ∀ m, (x m).Follows rooting m

variable {α β : Type} {rooting : Bool} {m : Machine}

/-! ## 4. Rules for the ways to combine -/

theorem Orderly.pure (a : α) : Orderly rooting (Pure.pure a) := fun m => .refl m

theorem Orderly.bind {x : Effect α} {f : α → Effect β} (hx : x.Orderly rooting)
    (hf : ∀ a, (f a).Orderly rooting) : (x >>= f).Orderly rooting :=
  fun m => (hx m).bind fun a m' hm => .of_proceeds hm (hf a m')

theorem Orderly.map (g : α → β) {x : Effect α} (hx : x.Orderly rooting) :
    (g <$> x).Orderly rooting :=
  hx.bind fun a => .pure (g a)

theorem Orderly.attempt_bind {x : Effect α} {f : Except FaultKind α → Effect β}
    (hx : x.Orderly rooting) (hf : ∀ r, (f r).Orderly rooting) :
    (attempt x >>= f).Orderly rooting :=
  fun m => (hx m).attempt_bind (.refl m) fun r m' hm => .of_proceeds hm (hf r m')

theorem Orderly.raise (kind : FaultKind) : Orderly rooting (raise kind : Effect α) :=
  fun m => .refl m

theorem Orderly.raiseWith (kind : Machine → FaultKind) :
    Orderly rooting (raiseWith kind : Effect α) :=
  fun m => .refl m

/-! ## 5. Rules for reading -/

theorem Orderly.read (f : Machine → α) : Orderly rooting (read f) := fun m => .refl m

/-- Going on with a fact about the machine, which holds there and then. -/
theorem follows_read {f : Machine → α} {g : α → Effect β} (hg : (g (f m) m).Follows rooting m) :
    ((Effect.read f >>= g) m).Follows rooting m :=
  hg

theorem follows_readOrRaise {f : Machine → Except FaultKind α} {g : α → Effect β}
    (hg : ∀ a, f m = .ok a → (g a m).Follows rooting m) :
    ((Effect.readOrRaise f >>= g) m).Follows rooting m := by
  show (Step.bind (Effect.readOrRaise f m) g).Follows rooting m
  unfold Effect.readOrRaise
  cases h : f m with
  | ok a => exact hg a h
  | error k => exact .refl m

theorem follows_readOrDefect {f : Machine → Except Defect α} {g : α → Effect β}
    (hg : ∀ a, f m = .ok a → (g a m).Follows rooting m) :
    ((Effect.readOrDefect f >>= g) m).Follows rooting m := by
  show (Step.bind (Effect.readOrDefect f m) g).Follows rooting m
  unfold Effect.readOrDefect
  cases h : f m with
  | ok a => exact hg a h
  | error d => exact .refl m

/-- Going on with the value behind a reference, which is there. -/
theorem follows_value {r : Ref} {g : Value → Effect β}
    (hg : ∀ v, m.resolve r = .ok v → (g v m).Follows rooting m) :
    ((Effect.value r >>= g) m).Follows rooting m :=
  follows_readOrDefect hg

theorem Orderly.readOrRaise (f : Machine → Except FaultKind α) :
    Orderly rooting (readOrRaise f) := by
  intro m
  unfold Effect.readOrRaise
  cases f m with
  | ok a => exact .refl m
  | error k => exact .refl m

theorem Orderly.readOrDefect (f : Machine → Except Defect α) :
    Orderly rooting (readOrDefect f) := by
  intro m
  unfold Effect.readOrDefect
  cases f m with
  | ok a => exact .refl m
  | error d => exact .refl m

theorem Orderly.value (r : Ref) : Orderly rooting (value r) := .readOrDefect _

theorem Orderly.typeText (r : Ref) : Orderly rooting (typeText r) := .readOrDefect _

theorem Orderly.raiseAbout (r : Ref) (kind : String → FaultKind) :
    Orderly rooting (raiseAbout r kind : Effect α) :=
  .bind (.typeText r) fun s => .raise (kind s)

theorem Orderly.demand (condition : Bool) (d : Defect) : Orderly rooting (demand condition d) := by
  intro m
  unfold Effect.demand
  cases condition with
  | true => exact .refl m
  | false => exact .refl m

/-! ## 6. Rules for acts -/

theorem follows_modify {f : Machine → Machine} (h : m.Act (f m)) :
    (Effect.modify f m).Follows rooting m :=
  .act h

theorem Orderly.modify {f : Machine → Machine} (h : ∀ m : Machine, m.Act (f m)) :
    Orderly rooting (modify f) :=
  fun m => follows_modify (h m)

/-- Going on with the answer of the table of types, whether it accepted or refused. -/
theorem follows_changeTypes {f : TypeTable → α × TypeTable} {g : α → Effect β}
    (h : m.Act { m with types := (f m.types).2 })
    (hg : (g (f m.types).1 { m with types := (f m.types).2 }).Follows rooting
      { m with types := (f m.types).2 }) :
    ((Effect.changeTypes f >>= g) m).Follows rooting m :=
  .of_proceeds (.act h) hg

theorem Orderly.changeTypes {f : TypeTable → α × TypeTable}
    (h : ∀ m : Machine, m.Act { m with types := (f m.types).2 }) :
    Orderly rooting (changeTypes f) :=
  fun m => .act (h m)

theorem follows_allocate {v : Value} (h : m.Makes v) : (Effect.allocate v m).Follows rooting m := by
  have hact := Machine.Act.allocate h
  unfold Effect.allocate
  generalize m.tryAllocate v = result at hact
  obtain ⟨result, m'⟩ := result
  cases result with
  | ok r => exact .act hact
  | error why => exact hact.passes

theorem Orderly.allocate {v : Value} (h : ∀ m : Machine, m.Makes v) :
    Orderly rooting (allocate v) :=
  fun m => follows_allocate (h m)

theorem Orderly.root (r : Ref) : Orderly true (root r) := fun m => .root m r

theorem Orderly.bindName (name : Name) (entry : Entry) : Orderly rooting (bindName name entry) := by
  intro m
  have hact := Machine.Act.bind m name entry
  unfold Effect.bindName
  generalize m.scopes.bind name entry = result at hact
  obtain ⟨result, scopes⟩ := result
  cases result with
  | ok _ => exact .act hact
  | error why => exact .act hact

/-! ## 7. Rules for requests and brackets -/

theorem Orderly.request (q : Request) : Orderly rooting (request q) := by
  intro m
  refine ⟨.refl m, fun m' r hanswer => ?_⟩
  cases r with
  | ok v => exact hanswer.weaken
  | error k => exact hanswer.weaken

theorem Orderly.eval (node : Node) : Orderly rooting (eval node) := .request _

theorem Orderly.call (callable : Callable) (args : List Ref) (location : Location) :
    Orderly rooting (call callable args location) :=
  .request _

/-- Whatever is rooted inside is released at the end. -/
theorem Orderly.withRoots {x : Effect α} (hx : x.Orderly true) : Orderly rooting (withRoots x) :=
  fun m => (hx m).onExit (.refl m) fun _ hm => .released hm

theorem Orderly.inScope {x : Effect α} (hx : x.Orderly rooting) : Orderly rooting (inScope x) :=
  fun m => (hx _).onExit (.scope m m.scopes.top_lt) fun _ hm => .scope m.scopes.top_lt hm

theorem Orderly.inFunctionScope (parent : ScopeId) {x : Effect α} (hx : x.Orderly rooting) :
    Orderly rooting (inFunctionScope parent x) :=
  fun m => (hx _).onExit (.scope m (Fin.isLt _)) fun _ hm => .scope (Fin.isLt _) hm

theorem Orderly.inRendering {x : Effect α} (hx : x.Orderly rooting) :
    Orderly rooting (inRendering x) :=
  fun m => (hx _).onExit (.rendering m) fun _ hm => .rendering hm

theorem Orderly.inCall (frame : CallFrame) {x : Effect α} (hx : x.Orderly rooting) :
    Orderly rooting (inCall frame x) := by
  intro m
  show (Step.bind (Effect.beginCall frame m) _).Follows rooting m
  unfold Effect.beginCall
  rcases m.calls.push_cases frame with ⟨limit, -, -, hpush⟩ | ⟨calls, hpush, -⟩
  · rw [hpush]
    exact .refl m
  · rw [hpush]
    refine (hx { m with calls }).attempt_bind (.call hpush) fun outcome m' hm => ?_
    show (Step.bind (Effect.endCall m') _).Follows rooting m
    unfold Effect.endCall
    split
    · exact .trans (.call hpush) (.proceeds hm)
    · have hend : Orderly rooting (Effect.readOrRaise fun _ => outcome) := .readOrRaise _
      exact .of_proceeds (.call hpush hm) (hend _)

end Effect

end ScriptMachine
