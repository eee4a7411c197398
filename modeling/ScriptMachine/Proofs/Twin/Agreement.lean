/-
# Computations that agree

Two computations agree if, started on the machines of a world, they stop in the same way: with
outcomes that are alike in the world where they end, or with requests that are alike, and then go on
agreeing whatever later world the answers come from.  The one exception is a heap that is full: a
machine all of whose 2^32 slots are in use stops, and the other one may go on.

`Step.Agree P` is agreement with `P` of the world and the outcomes at the end; `Effect.Agree w x x' Q`
adds that the end is a later world than `w` and that faults are the same, so that `Q` speaks of values
only.  There is one rule for each way to build a computation, and one for each way to read or change a
machine.  No rule looks inside the computations it combines.
-/
import ScriptMachine.Machine.Step
import ScriptMachine.Proofs.Twin.Memory

namespace ScriptMachine

/-! ## 1. Changes apart from the heap -/

namespace World

variable {exact : Prop} (w : World exact)

/-- Other scopes on both sides. -/
def withScopes {s t : ScopeStack} (h : s.Alike w.pairs t) (heq : exact → s = t) : World exact :=
  { w with
    left := { w.left with scopes := s }
    right := { w.right with scopes := t }
    scopes := h
    same := fun he => by rw [w.same he, heq he] }

/-- Other calls under way, the same on both sides. -/
def withCalls (calls : CallStack) : World exact :=
  { w with
    left := { w.left with calls }
    right := { w.right with calls }
    calls_eq := rfl
    same := fun he => by rw [w.same he] }

/-- Another console, the same on both sides. -/
def withConsole (console : Console) : World exact :=
  { w with
    left := { w.left with console }
    right := { w.right with console }
    console_eq := rfl
    same := fun he => by rw [w.same he] }

/-- Other types, the same on both sides. -/
def withTypes {types : TypeTable} (ht : types.Lawful) : World exact :=
  { w with
    left := { w.left with types }
    right := { w.right with types }
    types_eq := rfl
    lawful := ht
    same := fun he => by rw [w.same he] }

/-- Another depth of rendering, the same on both sides. -/
def withRenderDepth (renderDepth : Nat) : World exact :=
  { w with
    left := { w.left with renderDepth }
    right := { w.right with renderDepth }
    renderDepth_eq := rfl
    same := fun he => by rw [w.same he] }

/-- A fault logged on both sides. -/
def report (kind : FaultKind) (location : Location) : World exact :=
  { w with
    left := w.left.report kind location
    right := w.right.report kind location
    faults_eq := by simp only [Machine.report, w.faults_eq, w.calls_eq]
    console_eq := by
      simp only [Machine.report, w.echo_eq, w.console_eq, w.calls_eq, w.names_eq]
    same := fun he => by rw [w.same he] }

/-- The temporary roots beyond the first `n` released on both sides. -/
def release (n : Nat) : World exact :=
  { w with
    left := w.left.releaseTo n
    right := w.right.releaseTo n
    temps := by
      simp only [Machine.releaseTo, Array.toList_shrink]
      exact List.forall₂_take n w.temps
    same := fun he => by rw [w.same he] }

/-- One more temporary root on both sides. -/
def pushTemp {a b : Handle} (hab : w.pairs a b) : World exact :=
  { w with
    left := w.left.root (.heap a)
    right := w.right.root (.heap b)
    temps := by
      simp only [Machine.root, Array.toList_push]
      exact List.rel_append w.temps (.cons (.heap hab) .nil)
    same := fun he => by rw [w.same he, w.diagonal he a b hab] }

/-- A machine whose only news are its scopes has evolved. -/
theorem le_withScopes {s t : ScopeStack} (h : s.Alike w.pairs t) (heq : exact → s = t) :
    w ≤ w.withScopes h heq :=
  ⟨.of_heap_eq List.prefix_rfl rfl rfl rfl, .of_heap_eq List.prefix_rfl rfl rfl rfl⟩

theorem le_withConsole (console : Console) : w ≤ w.withConsole console :=
  ⟨.of_heap_eq List.prefix_rfl rfl rfl rfl, .of_heap_eq List.prefix_rfl rfl rfl rfl⟩

theorem le_withTypes {types : TypeTable} (ht : types.Lawful) : w ≤ w.withTypes ht :=
  ⟨.of_heap_eq List.prefix_rfl rfl rfl rfl, .of_heap_eq List.prefix_rfl rfl rfl rfl⟩

theorem le_withRenderDepth (depth : Nat) : w ≤ w.withRenderDepth depth :=
  ⟨.of_heap_eq List.prefix_rfl rfl rfl rfl, .of_heap_eq List.prefix_rfl rfl rfl rfl⟩

theorem le_report (kind : FaultKind) (location : Location) : w ≤ w.report kind location :=
  ⟨.of_heap_eq List.prefix_rfl rfl rfl rfl, .of_heap_eq List.prefix_rfl rfl rfl rfl⟩

theorem le_pushTemp {a b : Handle} (hab : w.pairs a b) : w ≤ w.pushTemp hab := by
  refine ⟨.of_heap_eq ?_ rfl rfl rfl, .of_heap_eq ?_ rfl rfl rfl⟩
  · simp [pushTemp, Machine.root]
  · simp [pushTemp, Machine.root]

/-- The number of temporary roots is the same on both sides. -/
theorem temps_size_eq : w.left.temps.size = w.right.temps.size := by
  simpa using w.temps.length_eq

variable {w}

/-- A reference to the heap that is alike is kept once it is a temporary root. -/
theorem kept_pushTemp {a b : Handle} (hab : w.pairs a b) :
    (w.pushTemp hab).Kept (.heap a) (.heap b) := by
  obtain ⟨v, u, hv, hu, -⟩ := w.values a b hab
  refine .heap ⟨hab, .root ?_ hv, .root ?_ hu⟩
  · refine List.mem_filterMap.2 ⟨.heap a, ?_, rfl⟩
    simp [pushTemp, Machine.root, Machine.anchors]
  · refine List.mem_filterMap.2 ⟨.heap b, ?_, rfl⟩
    simp [pushTemp, Machine.root, Machine.anchors]

/-- Releasing what was rooted since an earlier world leads to a world that is later still. -/
theorem le_release {w' : World exact} (hle : w ≤ w') : w ≤ w'.release w.left.temps.size := by
  have htake : ∀ {m m' : Machine}, m.Evolves m' → ∀ n, n = m.temps.size →
      m.Evolves (m'.releaseTo n) := by
    intro m m' h n hn
    refine ⟨?_, h.modules_eq, h.calls_eq, h.held⟩
    simp only [Machine.releaseTo, Array.toList_shrink]
    refine List.prefix_take_iff.2 ⟨h.temps, ?_⟩
    simp [hn]
  exact ⟨htake hle.1 _ rfl, htake hle.2 _ w.temps_size_eq⟩

end World

/-! ## 2. Outcomes, requests and steps -/

/-- The same error, or values that are related. -/
inductive SameResult {ε α : Type} (R : α → α → Prop) : Except ε α → Except ε α → Prop where
  | ok {a b : α} : R a b → SameResult R (.ok a) (.ok b)
  | error (k : ε) : SameResult R (.error k) (.error k)

section Agreement

variable {exact : Prop} {α β : Type}

/-- The same request, up to handles that are kept. -/
inductive Request.Alike (w : World exact) : Request → Request → Prop where
  | eval (node : Node) : Request.Alike w (.eval node) (.eval node)
  | call {c : Callable} {args args' : List Ref} (location : Location) : c.Lawful →
      List.Forall₂ w.Kept args args' →
      Request.Alike w (.call c args location) (.call c args' location)

/-- Two computations that stop alike, and go on alike after every answer. -/
inductive Step.Agree (P : World exact → Except FaultKind α → Except FaultKind α → Prop) :
    Step α → Step α → Prop where
  | done (w : World exact) {m m' : Machine} {a a' : α} : m = w.left → m' = w.right →
      P w (.ok a) (.ok a') → Step.Agree P (.done m a) (.done m' a')
  | fault (w : World exact) {m m' : Machine} {k k' : FaultKind} : m = w.left → m' = w.right →
      P w (.error k) (.error k') → Step.Agree P (.fault m k) (.fault m' k')
  | call (w : World exact) {m m' : Machine} {q q' : Request}
      {resume resume' : Machine → Except FaultKind Ref → Step α} :
      m = w.left → m' = w.right → q.Alike w q' →
      (∀ w', w ≤ w' → ∀ r r', SameResult w'.Alike r r' →
        Step.Agree P (resume w'.left r) (resume' w'.right r')) →
      Step.Agree P (.call m q resume) (.call m' q' resume')
  | leftFull {m : Machine} (s : Step α) : Heap.maxSlots ≤ m.heap.live →
      Step.Agree P (.defect m (.heapExhausted .allocFailed)) s
  | rightFull (s : Step α) {m : Machine} : Heap.maxSlots ≤ m.heap.live →
      Step.Agree P s (.defect m (.heapExhausted .allocFailed))

namespace Step.Agree

variable {P P' : World exact → Except FaultKind α → Except FaultKind α → Prop}
  {S : World exact → Except FaultKind β → Except FaultKind β → Prop} {s s' : Step α}

/-- Weaker conditions at the end. -/
theorem imp (h : Agree P s s') (himp : ∀ w r r', P w r r' → P' w r r') : Agree P' s s' := by
  induction h with
  | done w hm hm' hP => exact .done w hm hm' (himp _ _ _ hP)
  | fault w hm hm' hP => exact .fault w hm hm' (himp _ _ _ hP)
  | call w hm hm' hq _ ih => exact .call w hm hm' hq ih
  | leftFull s hfull => exact .leftFull s hfull
  | rightFull s hfull => exact .rightFull s hfull

/-- Computations that go on with others after their end. -/
theorem bind (h : Agree P s s') {f f' : α → Machine → Step β}
    (hok : ∀ w a a', P w (.ok a) (.ok a') → Agree S (f a w.left) (f' a' w.right))
    (herror : ∀ w k k', P w (.error k) (.error k') → S w (.error k) (.error k')) :
    Agree S (s.bind f) (s'.bind f') := by
  induction h with
  | done w hm hm' hP =>
    subst hm hm'
    exact hok w _ _ hP
  | fault w hm hm' hP => exact .fault w hm hm' (herror w _ _ hP)
  | call w hm hm' hq _ ih => exact .call w hm hm' hq ih
  | leftFull s hfull => exact .leftFull _ hfull
  | rightFull s hfull => exact .rightFull _ hfull

/-- Computations whose outcome is taken as a value. -/
theorem attempt {S : World exact → Except FaultKind (Except FaultKind α) →
      Except FaultKind (Except FaultKind α) → Prop}
    (h : Agree P s s') (himp : ∀ w r r', P w r r' → S w (.ok r) (.ok r')) :
    Agree S s.attempt s'.attempt := by
  induction h with
  | done w hm hm' hP => exact .done w hm hm' (himp _ _ _ hP)
  | fault w hm hm' hP => exact .done w hm hm' (himp _ _ _ hP)
  | call w hm hm' hq _ ih => exact .call w hm hm' hq ih
  | leftFull s hfull => exact .leftFull _ hfull
  | rightFull s hfull => exact .rightFull _ hfull

/-- Computations with a change of the machine at their end. -/
theorem onExit (h : Agree P s s') {g g' : Machine → Machine}
    (hexit : ∀ w r r', P w r r' → ∃ w' : World exact, g w.left = w'.left ∧ g' w.right = w'.right ∧
      P' w' r r') : Agree P' (s.onExit g) (s'.onExit g') := by
  induction h with
  | done w hm hm' hP =>
    obtain ⟨w', hl, hr, hP'⟩ := hexit w _ _ hP
    subst hm hm'
    exact .done w' hl hr hP'
  | fault w hm hm' hP =>
    obtain ⟨w', hl, hr, hP'⟩ := hexit w _ _ hP
    subst hm hm'
    exact .fault w' hl hr hP'
  | call w hm hm' hq _ ih => exact .call w hm hm' hq ih
  | leftFull s hfull => exact .leftFull _ hfull
  | rightFull s hfull => exact .rightFull _ hfull

end Step.Agree

namespace Effect

/-- Two computations that agree from a world on: they end in a later one, with the same fault or with
values of which `Q` holds there. -/
def Agree (w : World exact) (x x' : Effect α) (Q : World exact → α → α → Prop) : Prop :=
  Step.Agree (fun w' r r' => w ≤ w' ∧ SameResult (Q w') r r') (x w.left) (x' w.right)

/-- The values at the end are the same. -/
def Same (_ : World exact) (a a' : α) : Prop := a = a'

/-- Conditions that speak of references only, so that they survive a change of the machine that moves
no value. -/
def Steady (Q : World exact → α → α → Prop) : Prop :=
  ∀ w w' : World exact, w'.pairs = w.pairs → ∀ a a', Q w a a' → Q w' a a'

theorem steady_same : @Steady exact α Same := fun _ _ _ _ _ h => h

theorem steady_alike : @Steady exact Ref World.Alike := by
  intro w w' hpairs a a' h
  rw [World.Alike, hpairs]
  exact h

theorem Steady.sameResult {Q : World exact → α → α → Prop} (hQ : Steady Q) {w w' : World exact}
    {r r' : Except FaultKind α} (h : SameResult (Q w) r r') (hpairs : w'.pairs = w.pairs) :
    SameResult (Q w') r r' := by
  cases h with
  | ok h => exact .ok (hQ w w' hpairs _ _ h)
  | error k => exact .error k

variable {w : World exact} {Q Q' : World exact → α → α → Prop}
  {R : World exact → β → β → Prop}

/-! ## 3. Building computations -/

theorem Agree.pure {a a' : α} (h : Q w a a') : Agree w (pure a) (pure a') Q :=
  .done w rfl rfl ⟨le_rfl, .ok h⟩

theorem Agree.imp {x x' : Effect α} (h : Agree w x x' Q)
    (himp : ∀ w', w ≤ w' → ∀ a a', Q w' a a' → Q' w' a a') : Agree w x x' Q' := by
  refine Step.Agree.imp h fun w' r r' hP => ⟨hP.1, ?_⟩
  obtain ⟨hle, hres⟩ := hP
  cases hres with
  | ok hQ => exact .ok (himp w' hle _ _ hQ)
  | error k => exact .error k

/-- Agreement from a later world on is agreement. -/
theorem Agree.of_le {w' : World exact} (hle : w ≤ w') {s s' : Step α}
    (h : Step.Agree (fun w'' r r' => w' ≤ w'' ∧ SameResult (Q w'') r r') s s') :
    Step.Agree (fun w'' r r' => w ≤ w'' ∧ SameResult (Q w'') r r') s s' :=
  h.imp fun _ _ _ hP => ⟨le_trans hle hP.1, hP.2⟩

theorem Agree.bind {x x' : Effect α} {f f' : α → Effect β} (hx : Agree w x x' Q)
    (hf : ∀ w', w ≤ w' → ∀ a a', Q w' a a' → Agree w' (f a) (f' a') R) :
    Agree w (x >>= f) (x' >>= f') R := by
  refine Step.Agree.bind hx (fun w' a a' hP => ?_) fun w' k k' hP => ⟨hP.1, ?_⟩
  · obtain ⟨hle, hres⟩ := hP
    cases hres with
    | ok hQ => exact Agree.of_le hle (hf w' hle a a' hQ)
  · obtain ⟨-, hres⟩ := hP
    cases hres with
    | error k => exact .error k

theorem Agree.map {x x' : Effect α} (g : α → β) (hx : Agree w x x' Q)
    (hg : ∀ w', w ≤ w' → ∀ a a', Q w' a a' → R w' (g a) (g a')) :
    Agree w (g <$> x) (g <$> x') R :=
  hx.bind fun w' hle a a' hQ => .pure (hg w' hle a a' hQ)

theorem Agree.attempt {x x' : Effect α} (hx : Agree w x x' Q) :
    Agree w (attempt x) (attempt x') fun w' => SameResult (Q w') :=
  Step.Agree.attempt hx fun _ _ _ hP => ⟨hP.1, .ok hP.2⟩

theorem Agree.raise (k : FaultKind) : Agree w (raise k) (raise k) Q :=
  .fault w rfl rfl ⟨le_rfl, .error k⟩

theorem Agree.raiseWith {k k' : Machine → FaultKind} (hk : k w.left = k' w.right) :
    Agree w (raiseWith k) (raiseWith k') Q :=
  .fault w rfl rfl ⟨le_rfl, hk ▸ .error _⟩

/-! ## 4. Reading the machine -/

/-- Going on with a fact about the machine. -/
theorem Agree.read {f f' : Machine → α} {g g' : α → Effect β}
    (h : Agree w (g (f w.left)) (g' (f' w.right)) R) :
    Agree w (read f >>= g) (read f' >>= g') R :=
  h

/-- Going on with a fact about the machine that may be a fault. -/
theorem Agree.readOrRaise {f f' : Machine → Except FaultKind α} {g g' : α → Effect β}
    (hf : SameResult (Q w) (f w.left) (f' w.right))
    (hg : ∀ a a', Q w a a' → Agree w (g a) (g' a') R) :
    Agree w (readOrRaise f >>= g) (readOrRaise f' >>= g') R := by
  show Step.Agree _ (Step.bind (Effect.readOrRaise f w.left) g)
    (Step.bind (Effect.readOrRaise f' w.right) g')
  unfold Effect.readOrRaise
  generalize hl : f w.left = l at hf ⊢
  generalize hr : f' w.right = r at hf ⊢
  cases hf with
  | ok hQ => exact hg _ _ hQ
  | error k => exact .fault w rfl rfl ⟨le_rfl, .error k⟩

/-- Ending with a fact about the machine that may be a fault. -/
theorem Agree.readOrRaise_end {f f' : Machine → Except FaultKind α}
    (hf : SameResult (Q w) (f w.left) (f' w.right)) :
    Agree w (Effect.readOrRaise f) (Effect.readOrRaise f') Q := by
  unfold Agree Effect.readOrRaise
  generalize hl : f w.left = l at hf ⊢
  generalize hr : f' w.right = r at hf ⊢
  cases hf with
  | ok hQ => exact .done w rfl rfl ⟨le_rfl, .ok hQ⟩
  | error k => exact .fault w rfl rfl ⟨le_rfl, .error k⟩

/-- Going on with a fact about the machine that is no defect. -/
theorem Agree.readOrDefect {f f' : Machine → Except Defect α} {a a' : α} {g g' : α → Effect β}
    (hl : f w.left = .ok a) (hr : f' w.right = .ok a') (hg : Agree w (g a) (g' a') R) :
    Agree w (readOrDefect f >>= g) (readOrDefect f' >>= g') R := by
  show Step.Agree _ (Step.bind (Effect.readOrDefect f w.left) g)
    (Step.bind (Effect.readOrDefect f' w.right) g')
  rw [Effect.readOrDefect, Effect.readOrDefect, hl, hr]
  exact hg

/-- Ending with a fact about the machine that is no defect. -/
theorem Agree.readOrDefect_end {f f' : Machine → Except Defect α} {a a' : α}
    (hl : f w.left = .ok a) (hr : f' w.right = .ok a') (hQ : Q w a a') :
    Agree w (Effect.readOrDefect f) (Effect.readOrDefect f') Q := by
  unfold Agree Effect.readOrDefect
  rw [hl, hr]
  exact .done w rfl rfl ⟨le_rfl, .ok hQ⟩

/-- Going on with the values behind references that are alike. -/
theorem Agree.value {r r' : Ref} {g g' : Value → Effect β} (h : w.Alike r r')
    (hg : ∀ v v', w.left.resolve r = .ok v → w.right.resolve r' = .ok v' →
      v.Alike w.pairs v' → v.Lawful → Agree w (g v) (g' v') R) :
    Agree w (value r >>= g) (value r' >>= g') R := by
  obtain ⟨v, v', hv, hv', hvv', hlaw⟩ := h.resolve
  exact .readOrDefect hv hv' (hg v v' hv hv' hvv' hlaw)

/-- A text that names a type is the same on both sides. -/
theorem typeText_eq (w : World exact) (t : TypeId) : w.left.typeText t = w.right.typeText t := by
  rw [Machine.typeText, Machine.typeText, Machine.text, Machine.text, w.names_eq, w.types_eq]

theorem text_eq (w : World exact) (n : Name) : w.left.text n = w.right.text n := by
  rw [Machine.text, Machine.text, w.names_eq]

/-- Going on with the name of the type of a value. -/
theorem Agree.typeText {r r' : Ref} {g g' : String → Effect β} (h : w.Alike r r')
    (hg : ∀ s, Agree w (g s) (g' s) R) : Agree w (typeText r >>= g) (typeText r' >>= g') R := by
  obtain ⟨v, v', hv, hv', hvv', -⟩ := h.resolve
  have hl : (w.left.resolve r).map (fun v => w.left.typeText v.type) =
      .ok (w.left.typeText v.type) := by
    rw [hv]
    rfl
  have hr : (w.right.resolve r').map (fun v => w.right.typeText v.type) =
      .ok (w.left.typeText v.type) := by
    rw [hv', typeText_eq, hvv'.type_eq]
    rfl
  exact .readOrDefect hl hr (hg _)

theorem Agree.raiseAbout {r r' : Ref} (h : w.Alike r r') (kind : String → FaultKind) :
    Agree w (raiseAbout r kind) (raiseAbout r' kind) Q :=
  .typeText h fun s => .raise (kind s)

theorem Agree.demand {c c' : Bool} (hc : c = true) (hc' : c' = true) (d : Defect)
    {g g' : Unit → Effect β} (hg : Agree w (g ()) (g' ()) R) :
    Agree w (demand c d >>= g) (demand c' d >>= g') R := by
  subst hc hc'
  exact hg

/-! ## 5. Changing the machine -/

/-- A change that leads to a later world. -/
theorem Agree.modify {f f' : Machine → Machine} {Q : World exact → Unit → Unit → Prop}
    (w' : World exact) (hl : f w.left = w'.left) (hr : f' w.right = w'.right) (hle : w ≤ w')
    (hQ : Q w' () ()) : Agree w (modify f) (modify f') Q :=
  .done w' hl hr ⟨hle, .ok hQ⟩

/-- A request to the table of types is answered alike on both sides and moves no value. -/
theorem Agree.changeTypes {f : TypeTable → α × TypeTable} (hlaw : (f w.left.types).2.Lawful) :
    Agree w (changeTypes f) (changeTypes f) fun w' a a' => a = a' ∧ w'.pairs = w.pairs := by
  have hright : { w.right with types := (f w.right.types).2 } =
      { w.right with types := (f w.left.types).2 } := by rw [w.types_eq]
  have hanswer : (f w.left.types).1 = (f w.right.types).1 := by rw [w.types_eq]
  exact .done (w.withTypes hlaw) rfl hright ⟨w.le_withTypes hlaw, .ok ⟨hanswer, rfl⟩⟩

/-- Placing values that are alike. -/
theorem Agree.allocate {v v' : Value} (h : v.Alike w.pairs v') (hlaw : v.Lawful) :
    Agree w (allocate v) (allocate v') World.Alike := by
  unfold Agree Effect.allocate
  rcases w.allocate h hlaw with ⟨a, b, w', hl, hr, ha⟩ | ⟨m, hl, hfull, -⟩ | ⟨m, hr, hfull, -⟩
  · rw [hl, hr]
    exact .done w' rfl rfl ⟨ha.le, .ok (.heap ha.pair)⟩
  · rw [hl]
    exact .leftFull _ hfull
  · rw [hr]
    exact .rightFull _ hfull

/-- Placing a value that holds no references. -/
theorem Agree.allocate_plain {v : Value} (hv : v.payload.elements? = none)
    (hlaw : v.payload.callable? = none) : Agree w (Effect.allocate v) (Effect.allocate v) World.Alike :=
  .allocate (.plain hv) (.of_callable? hlaw)

/-- Values that become temporary roots are kept. -/
theorem Agree.root {r r' : Ref} (h : w.Alike r r') :
    Agree w (root r) (root r') fun w' _ _ => w'.Kept r r' := by
  cases h with
  | nil => exact .modify w rfl rfl le_rfl .nil
  | bool b => exact .modify w rfl rfl le_rfl (.bool b)
  | heap hab => exact .modify (w.pushTemp hab) rfl rfl (w.le_pushTemp hab) (World.kept_pushTemp hab)

/-- Binding a name to values that are alike moves no value. -/
theorem Agree.bindName (name : Name) {e e' : Entry} (h : e.Alike w.pairs e') :
    Agree w (bindName name e) (bindName name e') fun w' _ _ => w'.pairs = w.pairs := by
  obtain ⟨hres, hscopes⟩ := w.scopes.bind name h
  have heq : exact → (w.left.scopes.bind name e).2 = (w.right.scopes.bind name e').2 := by
    intro he
    rw [w.same he, h.eq (w.diagonal he)]
  unfold Agree Effect.bindName
  simp only
  rw [← hres]
  cases (w.left.scopes.bind name e).1 with
  | ok _ =>
    exact .done (w.withScopes hscopes heq) rfl rfl ⟨w.le_withScopes hscopes heq, .ok rfl⟩
  | error _ =>
    refine .fault (w.withScopes hscopes heq) rfl rfl ⟨w.le_withScopes hscopes heq, ?_⟩
    simp only [Machine.text, w.names_eq]
    exact .error _

/-! ## 6. Requests -/

theorem Agree.request {q q' : Request} (h : q.Alike w q') :
    Agree w (request q) (request q') World.Alike := by
  refine .call w rfl rfl h fun w' hle r r' hres => ?_
  cases hres with
  | ok hrr' => exact .done w' rfl rfl ⟨hle, .ok hrr'⟩
  | error k => exact .fault w' rfl rfl ⟨hle, .error k⟩

theorem Agree.eval (node : Node) : Agree w (eval node) (eval node) World.Alike := .request (.eval node)

theorem Agree.call {c : Callable} (hc : c.Lawful) {args args' : List Ref}
    (hargs : List.Forall₂ w.Kept args args') (location : Location) :
    Agree w (call c args location) (call c args' location) World.Alike :=
  .request (.call location hc hargs)

/-! ## 7. Brackets -/

theorem Agree.withRoots {x x' : Effect α} (hQ : Steady Q) (hx : Agree w x x' Q) :
    Agree w (withRoots x) (withRoots x') Q := by
  refine Step.Agree.onExit hx fun w' r r' hP => ⟨w'.release w.left.temps.size, rfl, ?_, ?_, ?_⟩
  · simp only [World.release, w.temps_size_eq]
  · exact World.le_release hP.1
  · exact hQ.sameResult hP.2 rfl

/-- Leaving the innermost scope on both sides. -/
theorem exists_pop (w' : World exact) (hle : w ≤ w') {r r' : Except FaultKind α} (hQ : Steady Q)
    (h : SameResult (Q w') r r') : ∃ w'' : World exact,
      { w'.left with scopes := w'.left.scopes.pop } = w''.left ∧
      { w'.right with scopes := w'.right.scopes.pop } = w''.right ∧
      w ≤ w'' ∧ SameResult (Q w'') r r' := by
  have heq : exact → w'.left.scopes.pop = w'.right.scopes.pop := fun he => by rw [w'.same he]
  exact ⟨w'.withScopes w'.scopes.pop heq, rfl, rfl,
    le_trans hle (w'.le_withScopes w'.scopes.pop heq), hQ.sameResult h rfl⟩

theorem Agree.inScope {x x' : Effect α} (hQ : Steady Q)
    (hx : ∀ w', w ≤ w' → Agree w' x x' Q) : Agree w (inScope x) (inScope x') Q := by
  have heq : exact → w.left.scopes.push = w.right.scopes.push := fun he => by rw [w.same he]
  have hle := w.le_withScopes w.scopes.push heq
  exact Step.Agree.onExit (hx _ hle) fun w' r r' hP => exists_pop w' (le_trans hle hP.1) hQ hP.2

theorem Agree.inFunctionScope {x x' : Effect α} (hQ : Steady Q) (parent : ScopeId)
    (hx : ∀ w', w ≤ w' → Agree w' x x' Q) :
    Agree w (inFunctionScope parent x) (inFunctionScope parent x') Q := by
  have heq : exact → w.left.scopes.pushFunction parent = w.right.scopes.pushFunction parent :=
    fun he => by rw [w.same he]
  have hle := w.le_withScopes (w.scopes.pushFunction parent) heq
  exact Step.Agree.onExit (hx _ hle) fun w' r r' hP => exists_pop w' (le_trans hle hP.1) hQ hP.2

theorem Agree.inRendering {x x' : Effect α} (hQ : Steady Q)
    (hx : ∀ w', w ≤ w' → Agree w' x x' Q) : Agree w (inRendering x) (inRendering x') Q := by
  have hle := w.le_withRenderDepth (w.left.renderDepth + 1)
  unfold Agree Effect.inRendering
  rw [← w.renderDepth_eq]
  refine Step.Agree.onExit (hx _ hle) fun w' r r' hP => ?_
  obtain ⟨hle', hres⟩ := hP
  refine ⟨w'.withRenderDepth (w'.left.renderDepth - 1), rfl, ?_,
    le_trans hle (le_trans hle' (w'.le_withRenderDepth _)), hQ.sameResult hres rfl⟩
  simp only [World.withRenderDepth, w'.renderDepth_eq]

/-- A call that ends finds its own frame on top of the calls under way, and leaves those that were
there when it began. -/
theorem Agree.inCall {x x' : Effect α} (hQ : Steady Q) (frame : CallFrame)
    (hx : ∀ calls, Agree (w.withCalls calls) x x' Q) :
    Agree w (inCall frame x) (inCall frame x') Q := by
  unfold Agree
  simp only [Effect.inCall]
  show Step.Agree _ (Step.bind (Effect.beginCall frame w.left) _)
    (Step.bind (Effect.beginCall frame w.right) _)
  unfold Effect.beginCall
  rw [← w.calls_eq]
  rcases w.left.calls.push_cases frame with ⟨limit, -, -, hpush⟩ | ⟨calls, hpush, hframes, -⟩
  · -- without room for the frame the calls under way stay as they are
    rw [hpush]
    refine .fault w rfl ?_ ⟨le_rfl, .error _⟩
    rw [w.calls_eq]
  · rw [hpush]
    have hbody : Step.Agree (fun w' r r' => ∃ o o', r = .ok o ∧ r' = .ok o' ∧
        w.withCalls calls ≤ w' ∧ SameResult (Q w') o o')
        (x (w.withCalls calls).left).attempt (x' (w.withCalls calls).right).attempt :=
      Step.Agree.attempt (hx calls) fun _ o o' hP => ⟨o, o', rfl, rfl, hP⟩
    refine Step.Agree.bind hbody (fun w' r r' hP => ?_) fun w' k k' hP => ?_
    · obtain ⟨o, o', ho, ho', hle, hres⟩ := hP
      obtain rfl : r = o := Except.ok.inj ho
      obtain rfl : r' = o' := Except.ok.inj ho'
      have hleft : w'.left.calls = calls := hle.1.calls_eq
      have hright : w'.right.calls = calls := w'.calls_eq ▸ hleft
      have hsome : calls.isEmpty = false := by simp [CallStack.isEmpty, hframes]
      have hpop : calls.pop = w.left.calls := CallStack.pop_of_push hpush
      show Step.Agree _ (Step.bind (Effect.endCall w'.left) _) (Step.bind (Effect.endCall w'.right) _)
      simp only [Effect.endCall, hleft, hright, hsome, hpop, Bool.false_eq_true, if_false]
      have hle' : w ≤ w'.withCalls w.left.calls :=
        ⟨⟨hle.1.temps, hle.1.modules_eq, rfl, hle.1.held⟩,
          ⟨hle.2.temps, hle.2.modules_eq, w.calls_eq, hle.2.held⟩⟩
      have hend : Agree (w'.withCalls w.left.calls) (Effect.readOrRaise fun _ => r)
          (Effect.readOrRaise fun _ => r') Q := .readOrRaise_end (hQ.sameResult hres rfl)
      exact Agree.of_le hle' hend
    · obtain ⟨o, o', ho, -⟩ := hP
      cases ho

end Effect

end Agreement

end ScriptMachine
