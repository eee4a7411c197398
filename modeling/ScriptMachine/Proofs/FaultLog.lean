/-
# The fault log

A fault ends the computation that raised it, and unwinds through native bodies, functions and
methods up to the node whose step it was.  It is logged there, once, with the place of that node and
the calls that were under way when its evaluation began; the node evaluates to nil, and the program
goes on.

What a node does itself, with the calls it makes but without the evaluations that it asks for, is
told by a relation of its own (`Step.Goes`, `Machine.Concludes`).  Nothing about it mentions the
log, so that what the log holds can be read off from it.

* `Machine.Accounts`: the log grows, and the error stream by the rendering of what was logged;
* `Machine.Passes.accounts`: that holds at every moment of a computation;
* `Step.Goes.logs`: a computation itself logs nothing;
* `Step.Goes.ends`, `Step.goes_of_finish`: the relation tells what a run does, and all of it;
* `Machine.faults_accounted`: the evaluation of a node and its log.
-/
import ScriptMachine.Proofs.Balance
import ScriptMachine.Proofs.Conduct.Confinement
import ScriptMachine.Proofs.Runs

namespace ScriptMachine

/-! ## 1. The log and the error stream -/

/-- What faults come to on the error stream: each in its rendering, with a line break after it. -/
def Fault.lines (names : NameTable) : List Fault → String
  | [] => ""
  | fault :: rest => fault.render names ++ "\n" ++ lines names rest

theorem Fault.lines_append (names : NameTable) (faults faults' : List Fault) :
    lines names (faults ++ faults') = lines names faults ++ lines names faults' := by
  induction faults with
  | nil => exact String.empty_append.symm
  | cons fault rest ih => simp only [List.cons_append, lines, ih, String.append_assoc]

/-- A console after faults were echoed to it. -/
def Console.Echoes (text : String) (console console' : Console) : Prop :=
  ∀ out err, console = .buffer out err → ∃ out', console' = .buffer out' (err ++ text)

namespace Machine

variable {m m' m'' : Machine} {rooting : Bool}

theorem faults_report (m : Machine) (kind : FaultKind) (location : Location) :
    (m.report kind location).faults.toList =
      m.faults.toList ++ [⟨kind, location, m.calls.capture⟩] := by
  simp [report]

/-- The log has grown, and the error stream by the rendering of what was logged, if faults are
echoed, and not at all otherwise. -/
structure Accounts (m m' : Machine) : Prop where
  names_eq : m'.names = m.names
  echo_eq : m'.echo = m.echo
  logged : ∃ logged, m'.faults.toList = m.faults.toList ++ logged ∧
    m.console.Echoes (if m.echo then Fault.lines m.names logged else "") m'.console

namespace Accounts

/-- A change that logs nothing and leaves the error stream alone. -/
theorem of_errors (hnames : m'.names = m.names) (hecho : m'.echo = m.echo)
    (hfaults : m'.faults = m.faults) (hconsole : m.console.Echoes "" m'.console) :
    m.Accounts m' where
  names_eq := hnames
  echo_eq := hecho
  logged := by
    refine ⟨[], by rw [hfaults, List.append_nil], ?_⟩
    cases m.echo with
    | false => exact hconsole
    | true => exact hconsole

/-- A change that neither logs nor touches the console. -/
theorem of_eq (hnames : m'.names = m.names) (hecho : m'.echo = m.echo)
    (hfaults : m'.faults = m.faults) (hconsole : m'.console = m.console) : m.Accounts m' :=
  .of_errors hnames hecho hfaults fun out err hbuffer =>
    ⟨out, by rw [hconsole, hbuffer, String.append_empty]⟩

theorem write (m : Machine) (text : String) :
    m.Accounts { m with console := m.console.print text } := by
  refine .of_errors rfl rfl rfl fun out err hbuffer => ⟨out ++ text, ?_⟩
  rw [hbuffer, String.append_empty]
  rfl

/-- A fault that is reported is logged, and echoed if faults are. -/
theorem report (m : Machine) (kind : FaultKind) (location : Location) :
    m.Accounts (m.report kind location) where
  names_eq := rfl
  echo_eq := rfl
  logged := by
    refine ⟨_, faults_report m kind location, fun out err hbuffer => ⟨out, ?_⟩⟩
    cases hecho : m.echo with
    | false => simp [Machine.report, hecho, hbuffer]
    | true =>
      simp [Machine.report, hecho, hbuffer, Console.error, Fault.lines, String.append_assoc]

theorem trans (h : m.Accounts m') (h' : m'.Accounts m'') : m.Accounts m'' where
  names_eq := h'.names_eq.trans h.names_eq
  echo_eq := h'.echo_eq.trans h.echo_eq
  logged := by
    obtain ⟨logged, hlogged, hechoes⟩ := h.logged
    obtain ⟨logged', hlogged', hechoes'⟩ := h'.logged
    refine ⟨logged ++ logged', by rw [hlogged', hlogged, List.append_assoc], ?_⟩
    intro out err hbuffer
    obtain ⟨out₁, hout₁⟩ := hechoes out err hbuffer
    obtain ⟨out₂, hout₂⟩ := hechoes' out₁ _ hout₁
    refine ⟨out₂, ?_⟩
    rw [hout₂, h.names_eq, h.echo_eq]
    cases m.echo with
    | false => simp
    | true => simp [Fault.lines_append, String.append_assoc]

end Accounts

theorem Act.accounts (h : m.Act m') : m.Accounts m' := by
  rcases h.parts with
    ⟨_, rfl⟩ | ⟨_, _, rfl⟩ | ⟨_, _, rfl⟩ | ⟨_, rfl⟩ | ⟨kind, location, rfl⟩ | ⟨text, rfl⟩
  · exact .of_eq rfl rfl rfl rfl
  · exact .of_eq rfl rfl rfl rfl
  · exact .of_eq rfl rfl rfl rfl
  · exact .of_eq rfl rfl rfl rfl
  · exact .report m kind location
  · exact .write m text

theorem Proceeds.accounts (h : m.Proceeds rooting m') : m.Accounts m' := by
  induction h with
  | refl m => exact .of_eq rfl rfl rfl rfl
  | trans _ _ ih ih' => exact ih.trans ih'
  | act h => exact h.accounts
  | root m r =>
    cases r with
    | nil => exact .of_eq rfl rfl rfl rfl
    | bool b => exact .of_eq rfl rfl rfl rfl
    | heap a => exact .of_eq rfl rfl rfl rfl
  | released _ ih => exact ih.trans (.of_eq rfl rfl rfl rfl)
  | scope h _ ih => exact ⟨ih.names_eq, ih.echo_eq, ih.logged⟩
  | call h _ ih => exact ⟨ih.names_eq, ih.echo_eq, ih.logged⟩
  | rendering _ ih => exact ⟨ih.names_eq, ih.echo_eq, ih.logged⟩

/-- **At every moment** of a computation the log and the error stream have grown alike. -/
theorem Passes.accounts (h : m.Passes m') : m.Accounts m' := by
  induction h with
  | proceeds h => exact h.accounts
  | trans _ _ ih ih' => exact ih.trans ih'
  | scope m h => exact .of_eq rfl rfl rfl rfl
  | call _ => exact .of_eq rfl rfl rfl rfl
  | rendering m => exact .of_eq rfl rfl rfl rfl
  | unwound _ ih => exact ⟨ih.names_eq, ih.echo_eq, ih.logged⟩

end Machine

/-! ## 2. What a computation does itself -/

/-- An evaluation that was asked for and came to a value. -/
structure Evaluation where
  node : Node
  before : Machine
  after : Machine
  ended : ∃ n r, before.evaluate n node = .value after r

/-- What an evaluation logged. -/
def Evaluation.logged (e : Evaluation) : List Fault :=
  e.after.faults.toList.drop e.before.faults.size

/-- The faults that evaluations logged, in their order. -/
def logOf (evaluations : List Evaluation) : List Fault := evaluations.flatMap Evaluation.logged

/-- **What a computation comes to**, and the evaluations that it asks for on the way.  A call that
it makes is its own work, and so are the evaluations that the call asks for. -/
inductive Step.Goes : Step Turn → List Evaluation → Machine → Except FaultKind Turn → Prop where
  | done (m : Machine) (turn : Turn) : Goes (.done m turn) [] m (.ok turn)
  | fault (m : Machine) (kind : FaultKind) : Goes (.fault m kind) [] m (.error kind)
  | eval {m m₁ m' : Machine} {node : Node} {resume : Continuation} {n : Nat} {r : Ref}
      {evaluations : List Evaluation} {outcome : Except FaultKind Turn}
      (hvalue : m.evaluate n node = .value m₁ r) :
      Goes (resume m₁ (.ok r)) evaluations m' outcome →
      Goes (.call m (.eval node) resume) (⟨node, m, m₁, n, r, hvalue⟩ :: evaluations) m' outcome
  | call {m m₁ m' : Machine} {callable : Callable} {args : List Ref} {location : Location}
      {resume : Continuation} {answer : Except FaultKind Ref}
      {evaluations evaluations' : List Evaluation} {outcome : Except FaultKind Turn} :
      Goes ((Request.call callable args location).perform m) evaluations m₁
        (answer.map Turn.value) →
      Goes (resume m₁ answer) evaluations' m' outcome →
      Goes (.call m (.call callable args location) resume) (evaluations ++ evaluations') m' outcome

/-- **The own step of a node**, and what it ends with.  A loop that comes to itself goes on. -/
inductive Machine.Concludes (node : Node) :
    Machine → List Evaluation → Machine → Except FaultKind Ref → Prop where
  | value {m m' : Machine} {evaluations : List Evaluation} {r : Ref} :
      (Effect.evalNode node m).Goes evaluations m' (.ok (.value r)) →
      Concludes node m evaluations m' (.ok r)
  | fault {m m' : Machine} {evaluations : List Evaluation} {kind : FaultKind} :
      (Effect.evalNode node m).Goes evaluations m' (.error kind) →
      Concludes node m evaluations m' (.error kind)
  | again {m m₁ m' : Machine} {evaluations evaluations' : List Evaluation}
      {result : Except FaultKind Ref} :
      (Effect.evalNode node m).Goes evaluations m₁ (.ok (.again node)) →
      Concludes node m₁ evaluations' m' result →
      Concludes node m (evaluations ++ evaluations') m' result

/-! ## 3. It logs nothing itself -/

/-- A computation that logs nothing between its stops. -/
def Step.Quiet {α : Type} (m : Machine) : Step α → Prop
  | .done m' _ | .fault m' _ => m'.faults = m.faults
  | .defect _ _ => True
  | .call m' _ resume => m'.faults = m.faults ∧ ∀ m'' r, (resume m'' r).Quiet m''

namespace Step

variable {α β : Type} {m m₁ : Machine} {s : Step α}

theorem Confined.quiet {given : FunctionDef → Prop} {asks : Node → Prop}
    (h : s.Confined given asks m) : s.Quiet m := by
  induction s generalizing m with
  | done m' a => exact (Machine.Moves.untouched h).1
  | fault m' k => exact (Machine.Moves.untouched h).1
  | defect m' d => trivial
  | call m' q resume ih => exact ⟨h.1.untouched.1, fun m'' r => ih m'' r (h.2.2 m'' r)⟩

theorem Quiet.of_eq (h : s.Quiet m₁) (hfaults : m₁.faults = m.faults) : s.Quiet m := by
  cases s with
  | done m' a => exact Eq.trans h hfaults
  | fault m' k => exact Eq.trans h hfaults
  | defect m' d => trivial
  | call m' q resume => exact ⟨h.1.trans hfaults, h.2⟩

theorem Quiet.bind (h : s.Quiet m) {f : α → Machine → Step β} (hf : ∀ a m', (f a m').Quiet m') :
    (s.bind f).Quiet m := by
  induction s generalizing m with
  | done m' a => exact (hf a m').of_eq h
  | fault m' k => exact h
  | defect m' d => trivial
  | call m' q resume ih => exact ⟨h.1, fun m'' r => ih m'' r (h.2 m'' r)⟩

theorem Quiet.attempt (h : s.Quiet m) : s.attempt.Quiet m := by
  induction s generalizing m with
  | done m' a => exact h
  | fault m' k => exact h
  | defect m' d => trivial
  | call m' q resume ih => exact ⟨h.1, fun m'' r => ih m'' r (h.2 m'' r)⟩

end Step

namespace Effect

/-- Neither the beginning nor the end of a call logs anything. -/
theorem quiet_inCall (frame : CallFrame) {x : Effect Ref} (hx : ∀ m, (x m).Quiet m) (m : Machine) :
    (inCall frame x m).Quiet m := by
  refine Step.Quiet.bind (s := beginCall frame m) ?_ fun _ m' => ?_
  · unfold beginCall
    generalize m.calls.push frame = result
    obtain ⟨result, calls⟩ := result
    cases result with
    | ok _ => exact rfl
    | error k => exact rfl
  · refine Step.Quiet.bind (s := (x m').attempt) (hx m').attempt fun outcome m' => ?_
    refine Step.Quiet.bind (s := endCall m') ?_ fun _ m' => ?_
    · unfold endCall
      split
      · trivial
      · exact rfl
    · cases outcome with
      | ok v => exact rfl
      | error k => exact rfl

/-- A call logs nothing, except through the evaluations that it asks for. -/
theorem quiet_perform_call (callable : Callable) (args : List Ref) (location : Location)
    (m : Machine) : ((Request.call callable args location).perform m).Quiet m := by
  cases callable with
  | native f =>
    refine Step.Quiet.bind (s := enterNative f args location (f.procedure.run args) m) ?_
      fun _ _ => rfl
    unfold enterNative
    split
    · have hbody : Confined (fun _ => False) (fun _ => False) (f.procedure.run args) := .run _ args
      exact quiet_inCall _ (fun m => (hbody m).quiet) m
    · exact rfl
  | user f =>
    refine Step.Quiet.bind (s := enterUser f args location m) ?_ fun _ _ => rfl
    unfold enterUser
    split
    · have hbody : Confined (fun _ => False) (· ∈ f.routine.body.children) _ := .userBody f args
      exact quiet_inCall _ (fun m => (hbody m).quiet) m
    · exact rfl

end Effect

/-- An evaluation adds to the log what it logged. -/
theorem Evaluation.faults_after (e : Evaluation) :
    e.after.faults.toList = e.before.faults.toList ++ e.logged := by
  obtain ⟨n, r, hvalue⟩ := e.ended
  have hpasses := Machine.run_passes (.eval e.node) e.before n
  rw [show e.before.run n (Effect.eval e.node) = _ from hvalue] at hpasses
  obtain ⟨logged, hlogged, -⟩ := hpasses.accounts.logged
  rw [show e.after.faults.toList = e.before.faults.toList ++ logged from hlogged, Evaluation.logged,
    show e.after.faults.toList = e.before.faults.toList ++ logged from hlogged,
    ← Array.length_toList, List.drop_left]

/-- **A computation itself logs nothing**: what is in the log at its end was there before, or was
logged by an evaluation that it asked for. -/
theorem Step.Goes.logs {s : Step Turn} {evaluations : List Evaluation} {m' : Machine}
    {outcome : Except FaultKind Turn} (h : s.Goes evaluations m' outcome) {m : Machine}
    (hs : s.Quiet m) : m'.faults.toList = m.faults.toList ++ logOf evaluations := by
  induction h generalizing m with
  | done m' turn => simpa [logOf] using congrArg Array.toList hs
  | fault m' kind => simpa [logOf] using congrArg Array.toList hs
  | @eval m₁ m₂ m' node resume n r evaluations outcome hvalue _ ih =>
    have hevaluation := Evaluation.faults_after ⟨node, m₁, m₂, n, r, hvalue⟩
    rw [ih (hs.2 m₂ (.ok r)), hevaluation, hs.1]
    simp [logOf]
  | @call m₁ m₂ m' callable args location resume answer _ _ _ _ _ ih ih' =>
    rw [ih' (hs.2 m₂ answer), ih (Effect.quiet_perform_call callable args location m₁), hs.1]
    simp [logOf]

/-- The stacks at the end of a computation are those of its start. -/
theorem Step.Goes.proceeds {s : Step Turn} {evaluations : List Evaluation} {m' : Machine}
    {outcome : Except FaultKind Turn} (h : s.Goes evaluations m' outcome) {m : Machine}
    (hs : s.Follows false m) : m.Proceeds false m' := by
  induction h generalizing m with
  | done m' turn => exact hs
  | fault m' kind => exact hs
  | @eval m₁ m₂ m' node resume n r evaluations outcome hvalue _ ih =>
    have hfollows := Machine.run_follows (.eval node) m₁ n
    rw [show m₁.run n (Effect.eval node) = _ from hvalue] at hfollows
    exact ih (hs.2 m₂ (.ok r) hfollows)
  | @call m₁ m₂ m' callable args location resume answer _ _ _ _ _ ih ih' =>
    exact ih' (hs.2 m₂ answer (ih (Effect.Orderly.perform _ m₁)))

/-! ## 4. It is what a run does -/

/-- A computation at its end. -/
def Step.ended (outcome : Except FaultKind Turn) (m : Machine) : Step Turn :=
  match outcome with
  | .ok turn => .done m turn
  | .error kind => .fault m kind

/-- Catching the end of a computation to end in the same way changes nothing. -/
theorem Step.attempt_bind_ended (s : Step Turn) : s.attempt.bind Step.ended = s := by
  induction s with
  | done m turn => rfl
  | fault m k => rfl
  | defect m d => rfl
  | call m q resume ih =>
    simp only [Step.attempt, Step.bind]
    congr 1
    funext m' r
    exact ih m' r

/-- The end of a run whose computation is at its end. -/
theorem Step.ends_ended (answer : Except FaultKind Ref) (m : Machine) :
    (Run.mk (Step.ended (answer.map Turn.value) m) []).Ends (.answered m answer) := by
  cases answer with
  | ok r => exact Run.ends_of_inl rfl
  | error kind => exact Run.ends_of_inl rfl

/-- The run of an evaluation that comes to a value. -/
theorem Machine.ends_of_evaluate {m m' : Machine} {n : Nat} {node : Node} {r : Ref}
    (h : m.evaluate n node = .value m' r) : (m.start node).Ends (.answered m' (.ok r)) := by
  obtain ⟨k, hfinish⟩ := finish_of_evaluate h
  obtain ⟨needed, -, hneeded⟩ :=
    Run.exists_of_finish hfinish (Outcome.answered_ne_outOfSteps m' (.ok r))
  exact ⟨needed, hneeded⟩

/-- **A run does what a computation goes through**, and then goes on from its end. -/
theorem Step.Goes.ends {s : Step Turn} {evaluations : List Evaluation} {m' : Machine}
    {outcome : Except FaultKind Turn} (h : s.Goes evaluations m' outcome)
    {f : Except FaultKind Turn → Machine → Step Turn} {outer : List Continuation}
    {result : Outcome Ref} (hf : (Run.mk (f outcome m') outer).Ends result) :
    (Run.mk (s.attempt.bind f) outer).Ends result := by
  induction h generalizing f outer result with
  | done m' turn => exact hf
  | fault m' kind => exact hf
  | @eval m₁ m₂ m' node resume n r evaluations outcome hvalue _ ih =>
    exact Run.ends_of_inr rfl ((Machine.ends_of_evaluate hvalue).answer
      (fun m r => (resume m r).attempt.bind f) (ih hf))
  | @call m₁ m₂ m' callable args location resume answer _ _ _ _ _ ih ih' =>
    have hcall := ih (Step.ends_ended answer m₂)
    rw [Step.attempt_bind_ended] at hcall
    exact Run.ends_of_inr rfl (hcall.answer (fun m r => (resume m r).attempt.bind f) (ih' hf))

/-- A call comes to a value, and never to a node. -/
theorem Request.comes_perform_call (callable : Callable) (args : List Ref) (location : Location) :
    Effect.Comes (fun turn => ∃ r, turn = .value r)
      (Request.call callable args location).perform := by
  cases callable with
  | native f => exact .bind _ fun v m => ⟨v, rfl⟩
  | user f => exact .bind _ fun v m => ⟨v, rfl⟩

/-- What a computation goes through comes to what it can come to. -/
theorem Step.Goes.comes {s : Step Turn} {evaluations : List Evaluation} {m' : Machine} {turn : Turn}
    {P : Turn → Prop} (h : s.Goes evaluations m' (.ok turn)) (hs : s.Comes P) : P turn := by
  generalize houtcome : (Except.ok turn : Except FaultKind Turn) = outcome at h
  induction h with
  | done m' turn' =>
    obtain rfl := Except.ok.inj houtcome
    exact hs
  | fault m' kind => cases houtcome
  | eval _ _ ih => exact ih (hs _ _) houtcome
  | call _ _ _ ih' => exact ih' (hs _ _) houtcome

/-- So what a call goes through comes to its answer. -/
theorem Step.Goes.eq_answer {callable : Callable} {args : List Ref} {location : Location}
    {m m₁ m₂ : Machine} {evaluations : List Evaluation} {outcome : Except FaultKind Turn}
    {answer : Except FaultKind Ref} {n k : Nat}
    (h : ((Request.call callable args location).perform m).Goes evaluations m₂ outcome)
    (hfinish : (Run.mk (Step.ended outcome m₂) []).finish n = (k, .answered m₁ answer)) :
    m₂ = m₁ ∧ outcome = answer.map Turn.value := by
  obtain ⟨answer', rfl⟩ : ∃ answer' : Except FaultKind Ref, outcome = answer'.map Turn.value := by
    cases outcome with
    | error kind => exact ⟨.error kind, rfl⟩
    | ok turn =>
      obtain ⟨r, rfl⟩ := h.comes (Request.comes_perform_call callable args location m)
      exact ⟨.ok r, rfl⟩
  cases n with
  | zero => exact (Outcome.answered_ne_outOfSteps _ _ _ (Prod.mk.inj hfinish).2.symm).elim
  | succ n =>
    cases answer' with
    | ok r =>
      cases answer with
      | ok r' =>
        obtain ⟨rfl, rfl⟩ := Outcome.value.inj (Prod.mk.inj hfinish).2
        exact ⟨rfl, rfl⟩
      | error kind => cases hfinish
    | error kind =>
      cases answer with
      | ok r' => cases hfinish
      | error kind' =>
        obtain ⟨rfl, rfl⟩ := Outcome.fault.inj (Prod.mk.inj hfinish).2
        exact ⟨rfl, rfl⟩

/-- **What a run does is what a computation goes through**, up to its end, and the run goes on from
there with the steps that are left.  The induction is on the number of steps: a request takes at
least one of them. -/
theorem Step.goes_of_finish {s : Step Turn} {n k : Nat} {m₀ : Machine}
    {answer : Except FaultKind Ref} (h : (Run.mk s []).finish n = (k, .answered m₀ answer)) :
    ∃ evaluations m' outcome, s.Goes evaluations m' outcome ∧
      ∃ n' ≤ n, (Run.mk (Step.ended outcome m') []).finish n' = (k, .answered m₀ answer) := by
  induction n using Nat.strongRecOn generalizing s k m₀ answer with
  | ind n ih =>
    cases s with
    | done m turn => exact ⟨[], m, .ok turn, .done m turn, n, Nat.le_refl n, h⟩
    | fault m kind => exact ⟨[], m, .error kind, .fault m kind, n, Nat.le_refl n, h⟩
    | defect m d =>
      cases n with
      | zero => exact (Outcome.answered_ne_outOfSteps _ _ _ (Prod.mk.inj h).2.symm).elim
      | succ n => exact (Outcome.answered_ne_defect _ _ _ _ (Prod.mk.inj h).2.symm).elim
    | call m q resume =>
      cases n with
      | zero => exact (Outcome.answered_ne_outOfSteps _ _ _ (Prod.mk.inj h).2.symm).elim
      | succ n =>
        obtain ⟨k₁, m₁, answer₁, hk₁, hinner, houter⟩ := Run.finish_call h
        obtain ⟨evaluations', m', outcome, hgoes', n', hn', hfinish⟩ := ih k₁ (by omega) houter
        cases q with
        | eval node =>
          have hevaluate : m.evaluate n node = .answered m₁ answer₁ := by
            rw [Machine.evaluate_eq, Machine.start, hinner]
            cases answer₁ with
            | ok r => rfl
            | error kind => rfl
          cases answer₁ with
          | ok r => exact ⟨_, m', outcome, .eval hevaluate hgoes', n', by omega, hfinish⟩
          | error kind => exact (m.evaluate_ne_fault n node m₁ kind hevaluate).elim
        | call callable args location =>
          obtain ⟨evaluations, m₂, outcome₂, hgoes, n₂, -, hfinish₂⟩ := ih n (by omega) hinner
          obtain ⟨rfl, rfl⟩ := hgoes.eq_answer hfinish₂
          exact ⟨_, m', outcome, .call hgoes hgoes', n', by omega, hfinish⟩

/-- What a computation goes through whose end is caught, and what goes on from there. -/
theorem Step.Goes.of_attempt_bind {s : Step Turn} {f : Except FaultKind Turn → Machine → Step Turn}
    {evaluations : List Evaluation} {m' : Machine} {outcome : Except FaultKind Turn}
    (h : (s.attempt.bind f).Goes evaluations m' outcome) :
    ∃ evaluations₁ m₁ outcome₁ evaluations₂, s.Goes evaluations₁ m₁ outcome₁ ∧
      (f outcome₁ m₁).Goes evaluations₂ m' outcome ∧
      evaluations = evaluations₁ ++ evaluations₂ := by
  induction s generalizing evaluations with
  | done m turn => exact ⟨[], m, .ok turn, evaluations, .done m turn, h, rfl⟩
  | fault m kind => exact ⟨[], m, .error kind, evaluations, .fault m kind, h, rfl⟩
  | defect m d => cases h
  | call m q resume ih =>
    cases h with
    | eval hvalue hgoes =>
      obtain ⟨evaluations₁, m₁, outcome₁, evaluations₂, hfirst, hthen, rfl⟩ := ih _ _ hgoes
      exact ⟨_, m₁, outcome₁, evaluations₂, .eval hvalue hfirst, hthen, rfl⟩
    | call hcall hgoes =>
      obtain ⟨evaluations₁, m₁, outcome₁, evaluations₂, hfirst, hthen, rfl⟩ := ih _ _ hgoes
      exact ⟨_, m₁, outcome₁, evaluations₂, .call hcall hfirst, hthen, by rw [List.append_assoc]⟩

namespace Machine

/-! ## 5. The own step of a node and its evaluation -/

variable {node : Node} {m m' : Machine} {evaluations : List Evaluation}

/-- The machine and the value that an evaluation comes to, from the end of the own step. -/
def concluded (node : Node) (m : Machine) : Except FaultKind Ref → Outcome Ref
  | .ok r => .value m r
  | .error kind => .value (m.report kind node.location) .nil

/-- What an evaluation comes to if the own step of the node ends. -/
theorem Concludes.ends {result : Except FaultKind Ref}
    (h : Concludes node m evaluations m' result) :
    (m.start node).Ends (concluded node m' result) := by
  induction h with
  | value hgoes => exact hgoes.ends (Run.ends_of_inl rfl)
  | fault hgoes => exact hgoes.ends (Run.ends_of_inl rfl)
  | again hgoes _ ih => exact hgoes.ends (Run.ends_of_inr rfl ih)

/-- The log at the end of the own step, and the calls under way. -/
theorem Concludes.logs {result : Except FaultKind Ref}
    (h : Concludes node m evaluations m' result) :
    m'.faults.toList = m.faults.toList ++ logOf evaluations ∧ m'.calls = m.calls := by
  have hgoes : ∀ {m₁ m₂ : Machine} {evaluations : List Evaluation} {outcome},
      (Effect.evalNode node m₁).Goes evaluations m₂ outcome →
      m₂.faults.toList = m₁.faults.toList ++ logOf evaluations ∧ m₂.calls = m₁.calls := by
    intro m₁ m₂ evaluations outcome hgoes
    exact ⟨hgoes.logs (Effect.Confined.evalNode node m₁).quiet,
      (hgoes.proceeds (Effect.Orderly.evalNode node m₁)).settled.calls_eq⟩
  induction h with
  | value h => exact hgoes h
  | fault h => exact hgoes h
  | again h _ ih =>
    obtain ⟨hfaults, hcalls⟩ := hgoes h
    refine ⟨?_, ih.2.trans hcalls⟩
    rw [ih.1, hfaults]
    simp [logOf]

/-- The end of a run whose computation is at its end. -/
theorem ended_of_finish {outcome : Except FaultKind Turn} {m₁ : Machine} {n k : Nat} {r : Ref}
    (h : (Run.mk (Step.ended outcome m₁) []).finish n = (k, .value m' r)) :
    (outcome = .ok (.value r) ∧ m₁ = m') ∨
    ∃ node' n', outcome = .ok (.again node') ∧ n = n' + 1 ∧
      (m₁.start node').finish n' = (k, .value m' r) := by
  cases n with
  | zero => cases h
  | succ n =>
    cases outcome with
    | error kind => cases h
    | ok turn =>
      cases turn with
      | value r' =>
        obtain ⟨rfl, rfl⟩ := Outcome.value.inj (Prod.mk.inj h).2
        exact .inl ⟨rfl, rfl⟩
      | again node' => exact .inr ⟨node', n, rfl, rfl, h⟩

/-- The own step of a node whose evaluation comes to a value.  The induction is on the number of
steps: each round of a loop takes at least one of them. -/
theorem concludes_of_evaluate {n : Nat} {r : Ref} (h : m.evaluate n node = .value m' r) :
    ∃ evaluations m₁ result, Concludes node m evaluations m₁ result ∧
      .value m' r = concluded node m₁ result := by
  induction n using Nat.strongRecOn generalizing m with
  | ind n ih =>
    obtain ⟨k, hfinish⟩ := finish_of_evaluate h
    have hanswered : (m.start node).finish n = (k, .answered m' (.ok r)) := hfinish
    obtain ⟨evaluations, m₁, outcome, hgoes, n', hn', hended⟩ := Step.goes_of_finish hanswered
    obtain ⟨evaluations₁, m₂, outcome₁, evaluations₂, hnode, hthen, rfl⟩ :=
      Step.Goes.of_attempt_bind hgoes
    cases outcome₁ with
    | error kind =>
      cases hthen
      rcases ended_of_finish hended with ⟨houtcome, rfl⟩ | ⟨node', n'', houtcome, -, -⟩
      · cases houtcome
        exact ⟨_, m₂, .error kind, .fault hnode, rfl⟩
      · cases houtcome
    | ok turn =>
      cases hthen
      rcases ended_of_finish hended with ⟨houtcome, rfl⟩ | ⟨node', n'', houtcome, rfl, hagain⟩
      · cases houtcome
        exact ⟨_, m₁, .ok r, .value hnode, rfl⟩
      · cases houtcome
        obtain ⟨rfl, -⟩ := hnode.comes (Effect.Comes.evalNode node m)
        have hevaluate : m₁.evaluate n'' node' = .value m' r := by rw [evaluate_eq, hagain]
        obtain ⟨evaluations', m₃, result, hconcludes, hresult⟩ := ih n'' (by omega) hevaluate
        exact ⟨_, m₃, result, .again hnode hconcludes, hresult⟩

/-- **Faults are accounted for.**  Evaluate any node on any machine.  At every moment the log is the
log from before with faults added to it, and the error stream of a buffer has grown by exactly the
lines of these faults, in their order, if faults are echoed.  If the own step of the node ends with
a fault, the evaluation comes to nil, and has logged what the evaluations inside it logged, and then
this fault, with the place of the node and the calls that were under way at its start, innermost
first.  If the own step ends with a value, the evaluation comes to that value, and has logged what
the evaluations inside it logged.  Every evaluation that comes to a value does so in one of these
two ways. -/
theorem faults_accounted (m : Machine) (node : Node) :
    (∀ n, m.Accounts (m.evaluate n node).machine) ∧
    (∀ evaluations m' kind, Concludes node m evaluations m' (.error kind) →
      (∃ needed, ∀ extra,
        m.evaluate (needed + extra) node = .value (m'.report kind node.location) .nil) ∧
      (m'.report kind node.location).faults.toList = m.faults.toList ++ logOf evaluations ++
        [⟨kind, node.location, m.calls.frames.toList.reverse⟩]) ∧
    (∀ evaluations m' r, Concludes node m evaluations m' (.ok r) →
      (∃ needed, ∀ extra, m.evaluate (needed + extra) node = .value m' r) ∧
      m'.faults.toList = m.faults.toList ++ logOf evaluations) ∧
    ∀ n m' r, m.evaluate n node = .value m' r →
      ∃ evaluations m₁ result, Concludes node m evaluations m₁ result ∧
        .value m' r = concluded node m₁ result := by
  refine ⟨fun n => (run_passes (.eval node) m n).accounts, ?_, ?_, ?_⟩
  · intro evaluations m' kind h
    obtain ⟨hfaults, hcalls⟩ := h.logs
    refine ⟨evaluate_of_ends h.ends, ?_⟩
    rw [faults_report, hfaults, hcalls, CallStack.capture_eq]
  · intro evaluations m' r h
    exact ⟨evaluate_of_ends h.ends, h.logs.1⟩
  · intro n m' r h
    exact concludes_of_evaluate h

/-- A machine with one call under way. -/
def calling : Machine :=
  { bare ⟨⟨0, true⟩, some 5, .emptyBuffer, true, .standard⟩ .initial with
    calls := ((CallStack.initial (some 5)).push ⟨⟨1⟩, ⟨⟨1⟩, 4, 2⟩⟩).2 }

/-- The conjunction of a node with `true`, in a column of line 7. -/
def conjunction (left : Node) (column : Nat) : Node :=
  ⟨.binary .and, [left, ⟨.literal (.bool true), [], .builtin⟩], ⟨⟨1⟩, 7, column⟩⟩

/-- The conjunction of nil with `true`, and of what that comes to with `true`: the first fault is of
the evaluation inside, and the second one has the call that is under way in its backtrace. -/
theorem faults_accounted_conjunction :
    let kind : FaultKind := .invalidOperand "and" (calling.typeText .nil)
    let inner := conjunction ⟨.literal .nil, [], .builtin⟩ 4
    let m₁ := calling.report kind ⟨⟨1⟩, 7, 4⟩
    calling.typeText .nil = "Nil" ∧
    ∃ evaluations, Concludes (conjunction inner 10) calling evaluations m₁ (.error kind) ∧
      (∃ needed, ∀ extra, calling.evaluate (needed + extra) (conjunction inner 10) =
        .value (m₁.report kind ⟨⟨1⟩, 7, 10⟩) .nil) ∧
      (m₁.report kind ⟨⟨1⟩, 7, 10⟩).faults.toList =
        logOf evaluations ++ [⟨kind, ⟨⟨1⟩, 7, 10⟩, [⟨⟨1⟩, ⟨⟨1⟩, 4, 2⟩⟩]⟩] := by
  have htype : calling.typeText .nil = "Nil" := by decide +kernel
  intro kind inner m₁
  have hinner : calling.evaluate 5 inner = .value m₁ .nil := rfl
  have hconcludes : Concludes (conjunction inner 10) calling
      [⟨inner, calling, m₁, 5, .nil, hinner⟩] m₁ (.error kind) :=
    .fault (.eval hinner (.fault m₁ kind))
  refine ⟨htype, _, hconcludes, ?_⟩
  exact (faults_accounted calling (conjunction inner 10)).2.1 _ m₁ kind hconcludes

end Machine

end ScriptMachine
