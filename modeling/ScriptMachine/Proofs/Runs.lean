/-
# Runs inside runs

A run that waits for another one is answered when that one ends, and goes on with the steps that are
left.  Steps are counted exactly here, so that what is said about a run does not depend on how many
steps it was given: a run that ends needs a number of steps of its own, and keeps the others.

* `Run.finish_append`: a run for whose end others wait;
* `Run.Ends`: how a run ends, if it is given steps enough;
* `Run.Ends.answer`, `Run.Ends.defect`: the end of a run inside another;
* `Machine.evaluate_of_ends`: the evaluation of a node whose run ends;
* `Machine.evaluate_of_answer`: the evaluation of a node that needs one other node;
* `Step.Comes`: what a computation can come to.
-/
import ScriptMachine.Proofs.Twin.Run

namespace ScriptMachine

/-- How a run ends that has an answer: with a value or with a fault. -/
def Outcome.answered (m : Machine) : Except FaultKind Ref → Outcome Ref
  | .ok r => .value m r
  | .error kind => .fault m kind

theorem Outcome.answered_ne_outOfSteps (m : Machine) (answer : Except FaultKind Ref)
    (m' : Machine) : Outcome.answered m answer ≠ .outOfSteps m' := by
  cases answer with
  | ok r => nofun
  | error kind => nofun

theorem Outcome.answered_ne_defect (m : Machine) (answer : Except FaultKind Ref) (m' : Machine)
    (d : Defect) : Outcome.answered m answer ≠ .defect m' d := by
  cases answer with
  | ok r => nofun
  | error kind => nofun

namespace Run

/-! ## 1. Steps -/

/-- A step that goes on does not look at who waits further out. -/
theorem next_append {s s' : Step Turn} {waiting waiting' : List Continuation}
    (h : (Run.mk s waiting).next = .inr ⟨s', waiting'⟩) (outer : List Continuation) :
    (Run.mk s (waiting ++ outer)).next = .inr ⟨s', waiting' ++ outer⟩ := by
  cases s with
  | done m turn =>
    cases turn with
    | again node =>
      obtain ⟨rfl, rfl⟩ := Run.mk.inj (Sum.inr.inj h)
      rfl
    | value r =>
      cases waiting with
      | nil => cases h
      | cons resume rest =>
        obtain ⟨rfl, rfl⟩ := Run.mk.inj (Sum.inr.inj h)
        rfl
  | fault m kind =>
    cases waiting with
    | nil => cases h
    | cons resume rest =>
      obtain ⟨rfl, rfl⟩ := Run.mk.inj (Sum.inr.inj h)
      rfl
  | defect m d => cases h
  | call m q resume =>
    obtain ⟨rfl, rfl⟩ := Run.mk.inj (Sum.inr.inj h)
    rfl

/-- How a run goes on outside, from the end of the run inside and the steps that it left. -/
def deliver (outer : List Continuation) : Nat × Outcome Ref → Nat × Outcome Ref
  | (k, .value m r) => (Run.mk (.done m (.value r)) outer).finish (k + 1)
  | (k, .fault m kind) => (Run.mk (.fault m kind) outer).finish (k + 1)
  | (k, .defect m d) => (k, .defect m d)
  | (k, .outOfSteps m) => (k, .outOfSteps m)

/-- **A run for whose end others wait** is the run by itself, and then what its end sets off. -/
theorem finish_append (s : Step Turn) (waiting outer : List Continuation) (n : Nat) :
    (Run.mk s (waiting ++ outer)).finish n = deliver outer ((Run.mk s waiting).finish n) := by
  induction n generalizing s waiting with
  | zero => rfl
  | succ n ih =>
    cases hnext : (Run.mk s waiting).next with
    | inr run =>
      obtain ⟨s', waiting'⟩ := run
      simp only [Run.finish, hnext, next_append hnext]
      exact ih s' waiting'
    | inl outcome =>
      have hinside : (Run.mk s waiting).finish (n + 1) = (n, outcome) := by rw [Run.finish, hnext]
      rw [hinside]
      cases s with
      | done m turn =>
        cases turn with
        | again node => cases hnext
        | value r =>
          cases waiting with
          | cons resume rest => cases hnext
          | nil =>
            obtain rfl := Sum.inl.inj hnext
            rfl
      | fault m kind =>
        cases waiting with
        | cons resume rest => cases hnext
        | nil =>
          obtain rfl := Sum.inl.inj hnext
          rfl
      | defect m d =>
        obtain rfl := Sum.inl.inj hnext
        rfl
      | call m q resume => cases hnext

/-! ## 2. How a run ends -/

/-- A run ends with an outcome after some number of steps, and keeps all others. -/
def Ends (run : Run) (outcome : Outcome Ref) : Prop :=
  ∃ n, ∀ extra, run.finish (n + extra) = (extra, outcome)

variable {run run' : Run} {outcome : Outcome Ref} {s : Step Turn}
  {waiting outer : List Continuation} {m : Machine} {r : Ref}

theorem ends_of_inl (h : run.next = .inl outcome) : run.Ends outcome := by
  refine ⟨1, fun extra => ?_⟩
  rw [Nat.add_comm, Run.finish, h]

theorem ends_of_inr (h : run.next = .inr run') (hrun : run'.Ends outcome) : run.Ends outcome := by
  obtain ⟨n, hn⟩ := hrun
  refine ⟨n + 1, fun extra => ?_⟩
  rw [Nat.succ_add, Run.finish, h]
  exact hn extra

/-- A run that was not out of steps has ended, with the steps that it did not need left. -/
theorem exists_of_finish {n k : Nat} (h : run.finish n = (k, outcome))
    (hended : ∀ m, outcome ≠ .outOfSteps m) :
    ∃ needed, n = needed + k ∧ ∀ extra, run.finish (needed + extra) = (extra, outcome) := by
  induction n generalizing run with
  | zero => exact absurd (Prod.mk.inj h).2.symm (hended _)
  | succ n ih =>
    cases hnext : run.next with
    | inl outcome' =>
      rw [Run.finish, hnext] at h
      obtain ⟨rfl, rfl⟩ := Prod.mk.inj h
      refine ⟨1, Nat.add_comm _ _, fun extra => ?_⟩
      rw [Nat.add_comm, Run.finish, hnext]
    | inr run' =>
      rw [Run.finish, hnext] at h
      obtain ⟨needed, hneeded, hfinish⟩ := ih h
      refine ⟨needed + 1, by omega, fun extra => ?_⟩
      rw [Nat.succ_add, Run.finish, hnext]
      exact hfinish extra

/-- A run that ends with a value answers whoever waits for it, with the steps that it had left. -/
theorem finish_answer {n k : Nat} (h : (Run.mk s waiting).finish n = (k, .value m r))
    (resume : Continuation) (outer : List Continuation) (extra : Nat) :
    (Run.mk s (waiting ++ resume :: outer)).finish (n + extra) =
      (Run.mk (resume m (.ok r)) outer).finish (k + extra) := by
  obtain ⟨needed, rfl, hneeded⟩ := exists_of_finish h (Outcome.answered_ne_outOfSteps m (.ok r))
  rw [finish_append, Nat.add_assoc, hneeded]
  rfl

/-- A run that makes a request and has an answer in the end: the request was answered, and the run
went on with the steps that were left. -/
theorem finish_call {q : Request} {resume : Continuation} {n k : Nat} {m' : Machine}
    {answer : Except FaultKind Ref}
    (h : (Run.mk (.call m q resume) []).finish (n + 1) = (k, .answered m' answer)) :
    ∃ k₁ m₁ answer₁, k₁ ≤ n ∧ (Run.mk (q.perform m) []).finish n = (k₁, .answered m₁ answer₁) ∧
      (Run.mk (resume m₁ answer₁) []).finish k₁ = (k, .answered m' answer) := by
  have happend := finish_append (q.perform m) [] [resume] n
  rw [show (Run.mk (q.perform m) ([] ++ [resume])).finish n = _ from h] at happend
  generalize hinner : (Run.mk (q.perform m) []).finish n = inner at happend
  obtain ⟨k₁, result⟩ := inner
  have hle : (∀ m, result ≠ .outOfSteps m) → k₁ ≤ n := by
    intro hended
    obtain ⟨needed, hneeded, -⟩ := exists_of_finish hinner hended
    omega
  cases result with
  | value m₁ r =>
    exact ⟨k₁, m₁, .ok r, hle (Outcome.answered_ne_outOfSteps m₁ (.ok r)), rfl, happend.symm⟩
  | fault m₁ kind =>
    exact ⟨k₁, m₁, .error kind, hle (Outcome.answered_ne_outOfSteps m₁ (.error kind)), rfl,
      happend.symm⟩
  | defect m₁ d => exact (Outcome.answered_ne_defect _ _ _ _ (Prod.mk.inj happend).2).elim
  | outOfSteps m₁ => exact (Outcome.answered_ne_outOfSteps _ _ _ (Prod.mk.inj happend).2).elim

/-- The end of a run that has an answer for whoever waits for it. -/
theorem Ends.answer {answer : Except FaultKind Ref}
    (h : (Run.mk s waiting).Ends (.answered m answer)) (resume : Continuation)
    (hresume : (Run.mk (resume m answer) outer).Ends outcome) :
    (Run.mk s (waiting ++ resume :: outer)).Ends outcome := by
  obtain ⟨n, hn⟩ := h
  obtain ⟨n', hn'⟩ := hresume
  refine ⟨n + n', fun extra => ?_⟩
  rw [finish_append, Nat.add_assoc, hn]
  cases answer with
  | ok r => exact hn' extra
  | error k => exact hn' extra

/-- A defect ends all runs around it. -/
theorem Ends.defect {d : Defect} (h : (Run.mk s waiting).Ends (.defect m d))
    (outer : List Continuation) : (Run.mk s (waiting ++ outer)).Ends (.defect m d) := by
  obtain ⟨n, hn⟩ := h
  refine ⟨n, fun extra => ?_⟩
  rw [finish_append, hn]
  rfl

end Run

/-- The outcome that a host sees: a defect leaves the scopes that were entered. -/
def Outcome.unwound {α : Type} (depth : Nat) : Outcome α → Outcome α
  | .defect m d => .defect { m with scopes := m.scopes.unwindTo depth } d
  | .value m a => .value m a
  | .fault m k => .fault m k
  | .outOfSteps m => .outOfSteps m

/-- The evaluation of a node whose run ends comes to that outcome, with as many steps as the run
needs or more. -/
theorem Machine.evaluate_of_ends {m : Machine} {node : Node} {outcome : Outcome Ref}
    (h : (m.start node).Ends outcome) :
    ∃ needed, ∀ extra, m.evaluate (needed + extra) node = outcome.unwound m.scopes.depth := by
  obtain ⟨needed, hneeded⟩ := h
  refine ⟨needed, fun extra => ?_⟩
  rw [Machine.evaluate_eq, hneeded extra]
  cases outcome with
  | value m' r => rfl
  | fault m' k => rfl
  | defect m' d => rfl
  | outOfSteps m' => rfl

/-- The run of an evaluation that comes to a value. -/
theorem Machine.finish_of_evaluate {m m' : Machine} {n : Nat} {node : Node} {r : Ref}
    (h : m.evaluate n node = .value m' r) : ∃ k, (m.start node).finish n = (k, .value m' r) := by
  rw [Machine.evaluate_eq] at h
  generalize (m.start node).finish n = result at h ⊢
  obtain ⟨k, outcome⟩ := result
  cases outcome with
  | value m₁ r₁ => exact ⟨k, by rw [show Outcome.value m₁ r₁ = .value m' r from h]⟩
  | fault m₁ kind => cases h
  | defect m₁ d => cases h
  | outOfSteps m₁ => cases h

/-- **A node that asks for another one and answers at once**: two steps more than for the other node
are enough. -/
theorem Machine.evaluate_of_answer {m m₁ m₂ : Machine} {n : Nat} {node other : Node} {r s : Ref}
    {resume : Continuation} (hperform : (Request.eval node).perform m = .call m (.eval other) resume)
    (hother : m.evaluate n other = .value m₁ r)
    (hresume : resume m₁ (.ok r) = .done m₂ (.value s)) (extra : Nat) :
    m.evaluate (n + 2 + extra) node = .value m₂ s := by
  obtain ⟨k, hfinish⟩ := finish_of_evaluate hother
  have hanswer := Run.finish_answer hfinish resume [] (1 + extra)
  have hrun : (m.start node).finish (n + 2 + extra) = (k + extra, .value m₂ s) := by
    rw [show n + 2 + extra = (n + (1 + extra)) + 1 by omega, Run.finish, Machine.start, hperform]
    refine hanswer.trans ?_
    rw [hresume, show k + (1 + extra) = (k + extra) + 1 by omega]
    rfl
  rw [Machine.evaluate_eq, hrun]

/-! ## 3. What a computation can come to -/

/-- Every value that a computation can end with is of some sort. -/
def Step.Comes {α : Type} (P : α → Prop) : Step α → Prop
  | .done _ a => P a
  | .fault _ _ | .defect _ _ => True
  | .call _ _ resume => ∀ m r, (resume m r).Comes P

theorem Step.Comes.bind {α β : Type} {P : β → Prop} (s : Step α) {f : α → Machine → Step β}
    (hf : ∀ a m, (f a m).Comes P) : (s.bind f).Comes P := by
  induction s with
  | done m a => exact hf a m
  | fault m k => trivial
  | defect m d => trivial
  | call m q resume ih => exact fun m' r => ih m' r

/-- A node comes to a value, and a loop can also come to itself. -/
def Turn.Of (node : Node) : Turn → Prop
  | .value _ => True
  | .again node' => node' = node ∧ node.kind = .loop

namespace Effect

/-- Every value that a computation can end with is of some sort, from whatever machine it starts. -/
def Comes {α : Type} (P : α → Prop) (x : Effect α) : Prop := ∀ m, (x m).Comes P

variable {α β : Type} {P : β → Prop}

theorem Comes.bind (x : Effect α) {f : α → Effect β} (hf : ∀ a, (f a).Comes P) :
    (x >>= f).Comes P :=
  fun m => Step.Comes.bind (x m) hf

theorem Comes.map (x : Effect α) {g : α → β} (hg : ∀ a, P (g a)) : (g <$> x).Comes P :=
  .bind x fun a _ => hg a

/-- **Only loops come to a node**, and only to themselves. -/
theorem Comes.evalNode (node : Node) : Comes (Turn.Of node) (evalNode node) := by
  have hvalue : ∀ x : Effect Ref, Comes (Turn.Of node) (Turn.value <$> x) := fun x =>
    .map x fun _ => trivial
  unfold Effect.evalNode
  split
  · exact hvalue _
  · exact hvalue _
  · exact hvalue _
  · exact hvalue _
  · exact hvalue _
  · exact .bind _ fun _ => hvalue _
  · exact .bind _ fun _ => hvalue _
  · exact .bind _ fun _ => .bind _ fun _ => hvalue _
  · exact .bind _ fun _ => hvalue _
  · exact .bind _ fun _ => hvalue _
  · exact .bind _ fun _ => hvalue _
  · exact .bind _ fun _ => hvalue _
  · exact .bind _ fun _ => .bind _ fun _ => hvalue _
  · exact .bind _ fun _ => .bind _ fun _ => hvalue _
  · next hloop =>
    refine .bind _ fun _ => .bind _ fun _ => .bind _ fun goesOn m => ?_
    cases goesOn with
    | true => exact ⟨rfl, hloop⟩
    | false => trivial
  · exact hvalue _
  · exact hvalue _
  · exact hvalue _

end Effect

end ScriptMachine
