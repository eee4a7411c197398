/-
# The collector does not show

When a collection runs depends on a threshold and a switch.  Two machines that differ in nothing else
place the values of a program in different slots and free them at different times, and yet the program
cannot tell them apart: after every tree both have written the same and logged the same faults, and what
their frames bind and what the tree came to are the same graphs of values.

What does show the heap is left out: its report and its size, a collection by hand, the state of the
switch, and the hash of a value that is hashed by its handle (`Procedure.isQuiet`).  And a machine that
keeps more values may run out of its 2^32 slots before the other one does.

* `Machine.history`: the states that trees lead to, one after another;
* `Indistinguishable`: machines and results that are the same up to a one-to-one pairing of handles;
* `Machine.history_transparent`: histories under two choices for the heap.
-/
import ScriptMachine.Proofs.Twin.Host

namespace ScriptMachine

/-! ## 1. Histories -/

/-- What a host gives to a machine: a tree, the texts whose names it brings in, and a number of steps
for its evaluation. -/
structure Submission where
  texts : List String
  node : Node
  steps : Nat

namespace Machine

/-- The machine with names for more texts. -/
def internAll (m : Machine) (texts : List String) : Machine :=
  { m with names := (m.names.internAll texts).2 }

/-- Bring in the names of a tree and evaluate it. -/
def submit (m : Machine) (s : Submission) : Outcome Ref :=
  (m.internAll s.texts).evaluate s.steps s.node

/-- The machine and the result after each of some trees, or the outcome of the first one that does not
end with a value. -/
def history (m : Machine) : List Submission → Except (Outcome Ref) (List (Machine × Ref))
  | [] => .ok []
  | s :: rest =>
    match m.submit s with
    | .value m' r => (m'.history rest).map ((m', r) :: ·)
    | outcome => .error outcome

/-- Whether the evaluation of some trees shows nothing of the heap but the values on it. -/
def isQuietOn (m : Machine) : List Submission → Bool
  | [] => true
  | s :: rest =>
    ((m.internAll s.texts).start s.node).isQuietFor s.steps &&
      match m.submit s with
      | .value m' _ => m'.isQuietOn rest
      | .fault _ _ | .defect _ _ | .outOfSteps _ => true

end Machine

/-! ## 2. What a program can tell apart -/

/-- Machines that hold the same when read through a one-to-one pairing of their handles. -/
structure Machine.Isomorphic (pairs : Pairing) (m m' : Machine) : Prop where
  functional : ∀ a b b', pairs a b → pairs a b' → b = b'
  injective : ∀ a a' b, pairs a b → pairs a' b → a = a'
  /-- Paired handles resolve, and references in their values are paired again. -/
  values : ∀ a b, pairs a b → ∃ v u, m.heap.get? a = some v ∧ m'.heap.get? b = some u ∧
    v.Alike pairs u
  scopes : m.scopes.Alike pairs m'.scopes
  modules : m.modules.Alike pairs m'.modules
  names_eq : m.names = m'.names
  types_eq : m.types = m'.types
  faults_eq : m.faults = m'.faults
  console_eq : m.console = m'.console

/-- Machines and results that are the same up to a pairing of handles. -/
def Indistinguishable (x x' : Machine × Ref) : Prop :=
  ∃ pairs, x.1.Isomorphic pairs x'.1 ∧ x.2.Alike pairs x'.2

/-- A history that ended because all of the 2^32 slots were in use. -/
def EndsFull {α : Type} (history : Except (Outcome Ref) α) : Prop :=
  ∃ m, history = .error (.defect m (.heapExhausted .allocFailed)) ∧ Heap.maxSlots ≤ m.heap.live

/-- Histories that a program cannot tell apart: both are complete and the same at every point, or both
ended out of steps, unless a heap was full. -/
def SameHistory (h h' : Except (Outcome Ref) (List (Machine × Ref))) : Prop :=
  (∃ states states', h = .ok states ∧ h' = .ok states' ∧
    List.Forall₂ Indistinguishable states states') ∨
  (∃ m m', h = .error (.outOfSteps m) ∧ h' = .error (.outOfSteps m')) ∨
  EndsFull h ∨ EndsFull h'

/-- The machines of a world are isomorphic. -/
theorem World.isomorphic {exact : Prop} (w : World exact) : w.left.Isomorphic w.pairs w.right where
  functional := w.functional
  injective := w.injective
  values := by
    intro a b hab
    obtain ⟨v, u, hv, hu, hvu, -⟩ := w.values a b hab
    exact ⟨v, u, hv, hu, hvu⟩
  scopes := w.scopes
  modules := w.modules
  names_eq := w.names_eq
  types_eq := w.types_eq
  faults_eq := w.faults_eq
  console_eq := w.console_eq

/-- References to isomorphic machines are the same reference on one side if they are on the other. -/
theorem Machine.Isomorphic.beq_eq {pairs : Pairing} {m m' : Machine} (h : m.Isomorphic pairs m')
    {r r' s s' : Ref} (hr : r.Alike pairs r') (hs : s.Alike pairs s') : (r == s) = (r' == s') :=
  hr.beq_eq hs h.functional h.injective

/-! ## 3. Transparency -/

section Transparency

variable {w : World False}

/-- One more state in front of histories that are the same. -/
theorem SameHistory.cons {x x' : Machine × Ref} (hx : Indistinguishable x x')
    {h h' : Except (Outcome Ref) (List (Machine × Ref))} (hh : SameHistory h h') :
    SameHistory (h.map (x :: ·)) (h'.map (x' :: ·)) := by
  rcases hh with ⟨states, states', rfl, rfl, hstates⟩ | ⟨m, m', rfl, rfl⟩ | ⟨m, rfl, hfull⟩ |
    ⟨m, rfl, hfull⟩
  · exact .inl ⟨_, _, rfl, rfl, .cons hx hstates⟩
  · exact .inr (.inl ⟨m, m', rfl, rfl⟩)
  · exact .inr (.inr (.inl ⟨m, rfl, hfull⟩))
  · exact .inr (.inr (.inr ⟨m, rfl, hfull⟩))

/-- One tree: both machines come to the same, and go on as a world. -/
theorem World.submit (w : World False) (s : Submission)
    (hq : ((w.left.internAll s.texts).start s.node).isQuietFor s.steps = true) :
    ∃ base : World False, (w.left.submit s).Alike base World.Alike (w.right.submit s) := by
  let w₁ := w.withNames (w.left.names.internAll s.texts).2
  have hright : w.right.internAll s.texts = w₁.right := by
    rw [Machine.internAll, ← w.names_eq]
    rfl
  have heval := w₁.evaluate s.steps s.node (.inr hq)
  refine ⟨w₁, ?_⟩
  rw [Machine.submit, Machine.submit, hright]
  exact heval

/-- Histories from the machines of a world.  The induction is on the trees; after each of them there is
a world again. -/
theorem World.history (w : World False) (trees : List Submission)
    (hq : w.left.isQuietOn trees = true) :
    SameHistory (w.left.history trees) (w.right.history trees) := by
  induction trees generalizing w with
  | nil => exact .inl ⟨[], [], rfl, rfl, .nil⟩
  | cons s rest ih =>
    obtain ⟨hnow, hthen⟩ := Bool.and_eq_true_iff.1 hq
    obtain ⟨base, halike⟩ := w.submit s hnow
    have hfault := (w.left.internAll s.texts).evaluate_ne_fault s.steps s.node
    rw [← Machine.submit] at hfault
    simp only [Machine.history]
    generalize w.left.submit s = outcome at halike hthen hfault
    generalize w.right.submit s = outcome' at halike
    cases halike with
    | @value w' r r' _ hr =>
      have hstate : Indistinguishable (w'.left, r) (w'.right, r') := ⟨w'.pairs, w'.isomorphic, hr⟩
      exact .cons hstate (ih w' hthen)
    | fault w' k _ => exact absurd rfl (hfault _ k)
    | outOfSteps m m' => exact .inr (.inl ⟨m, m', rfl, rfl⟩)
    | @leftFull m _ hfull => exact .inr (.inr (.inl ⟨m, rfl, hfull⟩))
    | @rightFull _ m hfull => exact .inr (.inr (.inr ⟨m, rfl, hfull⟩))

end Transparency

namespace Machine

/-- **The collector does not show.**  Two new machines that differ only in their choices about the heap
are given the same trees.  If the trees show nothing of the heap on one of them, both come to the same:
the same output, faults, types and names after each tree, and the same frames, modules and result up to
a one-to-one pairing of handles. -/
theorem history_transparent (settings : Settings) (config : HeapConfig) (names : NameTable)
    (trees : List Submission) (hq : (boot settings names).isQuietOn trees = true) :
    SameHistory ((boot settings names).history trees)
      ((boot { settings with heap := config } names).history trees) := by
  obtain ⟨w, hl, hr⟩ := World.boot False settings config names nofun
  rw [hl] at hq
  rw [hl, hr]
  exact w.history trees hq

/-- A program that counts, given in two parts: `mut x = 1; x = x + 1; [x, 7]` and `x = x + 1`, where `x`
is the first name after those of a new machine.  Each assignment drops a number, and the vector is
dropped at once. -/
def counting : List Submission :=
  let number := fun i : Int64 => (⟨.literal (.int i), [], .builtin⟩ : Node)
  let x : Node := ⟨.symbol ⟨50⟩, [], .builtin⟩
  let increment : Node := ⟨.assign ⟨50⟩, [⟨.binary .add, [x, number 1], .builtin⟩], .builtin⟩
  [⟨["x"], ⟨.program, [⟨.declare ⟨50⟩ .mutable, [number 1], .builtin⟩, increment,
      ⟨.vector, [x, number 7], .builtin⟩], .builtin⟩, 60⟩,
    ⟨[], increment, 20⟩]

/-- What the trees of a history came to, if it is complete. -/
def results? (h : Except (Outcome Ref) (List (Machine × Ref))) : Option (List Ref) :=
  h.toOption.map fun states => states.map Prod.snd

theorem exists_of_results? {h : Except (Outcome Ref) (List (Machine × Ref))} {rs : List Ref}
    (hrs : results? h = some rs) : ∃ states, h = .ok states ∧ states.map Prod.snd = rs := by
  cases h with
  | ok states => exact ⟨states, rfl, Option.some.inj hrs⟩
  | error outcome => cases hrs

/-- The program on a machine that never collects and on one that does so when more than thirty values
live.  The second one reuses the slots of what the program dropped, so that the results lie elsewhere,
and they are the same nevertheless. -/
theorem history_transparent_counting :
    ∃ states states',
      (boot ⟨⟨0, false⟩, some 5, .terminal, false, .standard⟩ .initial).history counting =
        .ok states ∧
      (boot ⟨⟨30, true⟩, some 5, .terminal, false, .standard⟩ .initial).history counting =
        .ok states' ∧
      states.map Prod.snd = [.heap ⟨32, 0⟩, .heap ⟨34, 0⟩] ∧
      states'.map Prod.snd = [.heap ⟨28, 1⟩, .heap ⟨29, 2⟩] ∧
      List.Forall₂ Indistinguishable states states' := by
  let settings : Settings := ⟨⟨0, false⟩, some 5, .terminal, false, .standard⟩
  have hkept : results? ((boot settings .initial).history counting) =
      some [.heap ⟨32, 0⟩, .heap ⟨34, 0⟩] := by decide +kernel
  have hfreed : results? ((boot { settings with heap := ⟨30, true⟩ } .initial).history counting) =
      some [.heap ⟨28, 1⟩, .heap ⟨29, 2⟩] := by decide +kernel
  have hsame := history_transparent settings ⟨30, true⟩ .initial counting (by decide +kernel)
  obtain ⟨states, hstates, hrefs⟩ := exists_of_results? hkept
  obtain ⟨states', hstates', hrefs'⟩ := exists_of_results? hfreed
  refine ⟨states, states', hstates, hstates', hrefs, hrefs', ?_⟩
  rw [hstates, hstates'] at hsame
  rcases hsame with ⟨_, _, ⟨⟩, ⟨⟩, hsame⟩ | ⟨_, _, h, _⟩ | ⟨_, h, _⟩ | ⟨_, h, _⟩
  · exact hsame
  all_goals cases h

end Machine

end ScriptMachine
