/-
# Runs side by side

A run is a stack: the computation at work, and those that wait for it.  Two runs are alike if the
computations at work agree, and those that wait go on in agreement from every world that is later than
the one they stopped in.  One step keeps that, as long as the request it answers is quiet, and so does
a whole run; the two runs take the same number of steps.

* `Run.Alike.next`: one step;
* `Run.Alike.finish`: a run;
* `World.evaluate`: the evaluation of a node;
* `Machine.evaluate_ne_fault`: the faults of a node are logged, so its evaluation ends without one.
-/
import ScriptMachine.Proofs.Twin.Evaluation

namespace ScriptMachine

/-! ## 1. Quiet runs -/

namespace Run

/-- Whether the next step of a run shows nothing of the heap but the values on it. -/
def isQuiet (run : Run) : Bool :=
  match run.current with
  | .call m q _ => q.isQuiet m
  | .done _ _ | .fault _ _ | .defect _ _ => true

/-- Whether the next `n` steps of a run are quiet, as far as it goes on. -/
def isQuietFor : Nat → Run → Bool
  | 0, _ => true
  | n + 1, run =>
    run.isQuiet &&
      match run.next with
      | .inl _ => true
      | .inr run => run.isQuietFor n

end Run

/-- The run that evaluates a node. -/
def Machine.start (m : Machine) (node : Node) : Run := ⟨(Request.eval node).perform m, []⟩

/-- An evaluation is a run, and a defect leaves the scopes that it entered. -/
theorem Machine.evaluate_eq (m : Machine) (n : Nat) (node : Node) :
    m.evaluate n node =
      match ((m.start node).finish n).2 with
      | .defect m' d => .defect { m' with scopes := m'.scopes.unwindTo m.scopes.depth } d
      | outcome => outcome := by
  simp only [Machine.evaluate, Machine.run, Effect.eval, Effect.request, Step.run, Machine.start]
  obtain ⟨k, outcome⟩ := Run.finish n ⟨(Request.eval node).perform m, []⟩
  cases outcome with
  | value m' r => rfl
  | fault m' kind => rfl
  | defect m' d => rfl
  | outOfSteps m' => rfl

/-! ## 2. Runs and outcomes that are alike -/

section Alike

variable {exact : Prop}

/-- The end of a computation that began in a world. -/
def World.Later (w w' : World exact) (r r' : Except FaultKind Turn) : Prop :=
  w ≤ w' ∧ SameResult (Turn.Alike w') r r'

/-- Computations that wait for an answer from a world later than `w`.  Those that wait for them in
turn count on the world in which they began themselves; below all of them is `base`. -/
inductive Waiting (base : World exact) :
    World exact → List Continuation → List Continuation → Prop where
  | nil {w : World exact} : base ≤ w → Waiting base w [] []
  | cons {w v : World exact} {resume resume' : Continuation} {rest rest' : List Continuation} :
      (∀ w', w ≤ w' → ∀ r r', SameResult w'.Alike r r' →
        Step.Agree v.Later (resume w'.left r) (resume' w'.right r')) →
      Waiting base v rest rest' → Waiting base w (resume :: rest) (resume' :: rest')

/-- Who waits for a world waits for every later one. -/
theorem Waiting.mono {base w w' : World exact} {ks ks' : List Continuation}
    (h : Waiting base w ks ks') (hle : w ≤ w') : Waiting base w' ks ks' := by
  cases h with
  | nil hbase => exact .nil (le_trans hbase hle)
  | cons hresume hrest => exact .cons (fun w'' hle' => hresume w'' (le_trans hle hle')) hrest

/-- Runs that are alike. -/
def Run.Alike (base : World exact) (run run' : Run) : Prop :=
  ∃ w, Step.Agree w.Later run.current run'.current ∧ Waiting base w run.waiting run'.waiting

/-- Outcomes that are alike: they come with a later world, except that a machine may have stopped
because all of its 2^32 slots are in use. -/
inductive Outcome.Alike {α : Type} (base : World exact) (R : World exact → α → α → Prop) :
    Outcome α → Outcome α → Prop where
  | value (w : World exact) {a a' : α} : base ≤ w → R w a a' →
      Outcome.Alike base R (.value w.left a) (.value w.right a')
  | fault (w : World exact) (k : FaultKind) : base ≤ w →
      Outcome.Alike base R (.fault w.left k) (.fault w.right k)
  | outOfSteps (m m' : Machine) : Outcome.Alike base R (.outOfSteps m) (.outOfSteps m')
  | leftFull {m : Machine} (outcome : Outcome α) : Heap.maxSlots ≤ m.heap.live →
      Outcome.Alike base R (.defect m (.heapExhausted .allocFailed)) outcome
  | rightFull (outcome : Outcome α) {m : Machine} : Heap.maxSlots ≤ m.heap.live →
      Outcome.Alike base R outcome (.defect m (.heapExhausted .allocFailed))

/-! ## 3. One step and a whole run -/

/-- What a step makes of runs that are alike. -/
inductive Run.StepAlike (base : World exact) : Outcome Ref ⊕ Run → Outcome Ref ⊕ Run → Prop where
  | goesOn {run run' : Run} : run.Alike base run' → StepAlike base (.inr run) (.inr run')
  | ends {outcome outcome' : Outcome Ref} : outcome.Alike base World.Alike outcome' →
      StepAlike base (.inl outcome) (.inl outcome')
  | leftFull {m : Machine} (x : Outcome Ref ⊕ Run) : Heap.maxSlots ≤ m.heap.live →
      StepAlike base (.inl (.defect m (.heapExhausted .allocFailed))) x
  | rightFull (x : Outcome Ref ⊕ Run) {m : Machine} : Heap.maxSlots ≤ m.heap.live →
      StepAlike base x (.inl (.defect m (.heapExhausted .allocFailed)))

variable {base : World exact} {run run' : Run}

/-- An answer goes to the innermost computation that waits, or is the outcome of the run. -/
theorem Waiting.answer {w w' : World exact} {ks ks' : List Continuation}
    (h : Waiting base w ks ks') (hle : w ≤ w') {r r' : Except FaultKind Ref}
    (hr : SameResult w'.Alike r r') :
    (∃ k rest k' rest', ks = k :: rest ∧ ks' = k' :: rest' ∧
      Run.Alike base ⟨k w'.left r, rest⟩ ⟨k' w'.right r', rest'⟩) ∨
    (ks = [] ∧ ks' = [] ∧ base ≤ w') := by
  cases h with
  | nil hbase => exact .inr ⟨rfl, rfl, le_trans hbase hle⟩
  | cons hresume hrest => exact .inl ⟨_, _, _, _, rfl, rfl, _, hresume w' hle r r' hr, hrest⟩

/-- **One step** of runs that are alike, answering the same request on both sides if there is one. -/
theorem Run.Alike.next (h : run.Alike base run') (hq : exact ∨ run.isQuiet = true) :
    Run.StepAlike base run.next run'.next := by
  obtain ⟨current, waiting⟩ := run
  obtain ⟨current', waiting'⟩ := run'
  obtain ⟨w, hcurrent, hwaiting⟩ := h
  simp only at hcurrent hwaiting
  cases hcurrent with
  | @done w' m m' a a' hm hm' hP =>
    subst hm hm'
    obtain ⟨hle, hres⟩ := hP
    cases hres with
    | ok hturn =>
      cases hturn with
      | again node =>
        have hnode : Effect.Agree w' (Request.eval node).perform (Request.eval node).perform
            Turn.Alike := .evalReporting node
        exact .goesOn ⟨w', hnode, hwaiting.mono hle⟩
      | @value r r' hr =>
        rcases hwaiting.answer hle (.ok hr) with ⟨k, rest, k', rest', rfl, rfl, hnext⟩ | ⟨rfl, rfl, hb⟩
        · exact .goesOn hnext
        · exact .ends (.value w' hb hr)
  | @fault w' m m' k k' hm hm' hP =>
    subst hm hm'
    obtain ⟨hle, hres⟩ := hP
    cases hres with
    | error k =>
      rcases hwaiting.answer hle (.error k) with
        ⟨_, rest, _, rest', rfl, rfl, hnext⟩ | ⟨rfl, rfl, hb⟩
      · exact .goesOn hnext
      · exact .ends (.fault w' k hb)
  | @call w' m m' q q' resume resume' hm hm' hqq' hresume =>
    subst hm hm'
    -- the computation that asked now waits for a world later than the one it asked in
    exact .goesOn ⟨w', Effect.Agree.perform hqq' hq, .cons hresume hwaiting⟩
  | leftFull s hfull => exact .leftFull _ hfull
  | rightFull s hfull => exact .rightFull _ hfull

/-- **A run** of at most `n` steps ends alike on both sides, if its steps are quiet. -/
theorem Run.Alike.finish (h : run.Alike base run') (n : Nat)
    (hq : exact ∨ run.isQuietFor n = true) :
    (run.finish n).2.Alike base World.Alike (run'.finish n).2 := by
  induction n generalizing run run' with
  | zero => exact .outOfSteps _ _
  | succ n ih =>
    have hnow : exact ∨ run.isQuiet = true :=
      hq.imp_right fun hq => (Bool.and_eq_true_iff.1 hq).1
    have hstep := h.next hnow
    have hthen : exact ∨ (match run.next with
        | .inl _ => true
        | .inr run => run.isQuietFor n) = true :=
      hq.imp_right fun hq => (Bool.and_eq_true_iff.1 hq).2
    unfold Run.finish
    generalize run.next = x at hstep hthen
    generalize run'.next = x' at hstep
    cases hstep with
    | goesOn halike => exact ih halike hthen
    | ends houtcome => exact houtcome
    | leftFull x hfull => exact .leftFull _ hfull
    | rightFull x hfull => exact .rightFull _ hfull

/-! ## 4. Evaluation -/

/-- **Evaluations of a node agree**, if the one on the left is quiet or there is only one machine. -/
theorem World.evaluate (w : World exact) (n : Nat) (node : Node)
    (hq : exact ∨ (w.left.start node).isQuietFor n = true) :
    (w.left.evaluate n node).Alike w World.Alike (w.right.evaluate n node) := by
  have hstart : Run.Alike w (w.left.start node) (w.right.start node) :=
    ⟨w, Effect.Agree.evalReporting node, .nil le_rfl⟩
  have hfinish := hstart.finish n hq
  rw [Machine.evaluate_eq, Machine.evaluate_eq]
  generalize ((w.left.start node).finish n).2 = o at hfinish
  generalize ((w.right.start node).finish n).2 = o' at hfinish
  cases hfinish with
  | value w' hle hr => exact .value w' hle hr
  | fault w' k hle => exact .fault w' k hle
  | outOfSteps m m' => exact .outOfSteps m m'
  | leftFull outcome hfull => exact .leftFull _ hfull
  | rightFull outcome hfull => exact .rightFull _ hfull

end Alike

/-! ## 5. An evaluation ends without a fault -/

/-- A computation that does not end with a fault, whatever answers it gets. -/
def Step.NeverFaults {α : Type} : Step α → Prop
  | .done _ _ | .defect _ _ => True
  | .fault _ _ => False
  | .call _ _ resume => ∀ m r, (resume m r).NeverFaults

namespace Step

variable {α β : Type}

theorem neverFaults_attempt (s : Step α) : s.attempt.NeverFaults := by
  induction s with
  | done m a => trivial
  | fault m k => trivial
  | defect m d => trivial
  | call m q resume ih => exact ih

theorem NeverFaults.bind {s : Step α} (hs : s.NeverFaults) {f : α → Machine → Step β}
    (hf : ∀ a m, (f a m).NeverFaults) : (s.bind f).NeverFaults := by
  induction s with
  | done m a => exact hf a m
  | fault m k => exact hs.elim
  | defect m d => trivial
  | call m q resume ih => exact fun m' r => ih m' r (hs m' r)

end Step

/-- The faults of a node are caught where it is evaluated. -/
theorem Effect.evalReporting_neverFaults (node : Node) (m : Machine) :
    (Effect.evalReporting node m).NeverFaults := by
  refine Step.NeverFaults.bind (Step.neverFaults_attempt _) fun outcome m' => ?_
  cases outcome with
  | ok turn => trivial
  | error kind => trivial

/-- The outermost computation of a run does not end with a fault. -/
def Run.NeverFaults (run : Run) : Prop :=
  match run.waiting.getLast? with
  | none => run.current.NeverFaults
  | some resume => ∀ m r, (resume m r).NeverFaults

/-- Answering the innermost computation that waits leaves the outermost one in place. -/
theorem Run.NeverFaults.answer {s : Step Turn} {resume : Continuation} {waiting : List Continuation}
    (h : Run.NeverFaults ⟨s, resume :: waiting⟩) (m : Machine) (r : Except FaultKind Ref) :
    Run.NeverFaults ⟨resume m r, waiting⟩ := by
  cases waiting with
  | nil => exact h m r
  | cons k rest => exact h

/-- What a step may come to if the outermost computation does not end with a fault. -/
def Run.EndsWell : Outcome Ref ⊕ Run → Prop
  | .inl (.fault _ _) => False
  | .inl _ => True
  | .inr run => run.NeverFaults

/-- One step keeps the outermost computation free of faults, and does not end with one. -/
theorem Run.NeverFaults.next {run : Run} (h : run.NeverFaults) : Run.EndsWell run.next := by
  obtain ⟨current, waiting⟩ := run
  cases current with
  | done m turn =>
    cases turn with
    | again node =>
      cases waiting with
      | nil => exact Effect.evalReporting_neverFaults node m
      | cons k rest => exact h
    | value r =>
      cases waiting with
      | nil => trivial
      | cons k rest => exact h.answer m (.ok r)
  | fault m kind =>
    cases waiting with
    | nil => exact h.elim
    | cons k rest => exact h.answer m (.error kind)
  | defect m d => trivial
  | call m q resume =>
    cases waiting with
    | nil => exact h
    | cons k rest => exact h

theorem Run.NeverFaults.finish {run : Run} (h : run.NeverFaults) (n : Nat) (m : Machine)
    (k : FaultKind) : (run.finish n).2 ≠ .fault m k := by
  induction n generalizing run with
  | zero => nofun
  | succ n ih =>
    have hstep := h.next
    unfold Run.finish
    cases hnext : run.next with
    | inl outcome =>
      rintro rfl
      rw [hnext] at hstep
      exact hstep
    | inr run' =>
      rw [hnext] at hstep
      exact ih hstep

/-- **The evaluation of a node ends without a fault**: those of the node and of all nodes inside are in
the log. -/
theorem Machine.evaluate_ne_fault (m : Machine) (n : Nat) (node : Node) (m' : Machine)
    (k : FaultKind) : m.evaluate n node ≠ .fault m' k := by
  have hstart : (m.start node).NeverFaults := Effect.evalReporting_neverFaults node m
  have hfinish := hstart.finish n m' k
  rw [Machine.evaluate_eq]
  split
  · nofun
  · exact hfinish

end ScriptMachine
