/-
# Computations that complete

A computation completes if its requests are answered, one after the other, and it ends with a value
and a machine that are as they should be.  An answer is a computation again, so this is not a fact
about the computation alone: `Step.Completes` is derived along the requests, with what is known of an
answer chosen at each of them.  It has a rule for each way of putting computations together, and what
is derived holds of the run (`Machine.run_of_completes`).

Where the heap has no slot left a computation stops.  How many slots would have been enough is a
parameter of the derivation, so that a heap with as many is known to be large enough beforehand.
-/
import ScriptMachine.Proofs.Runs
import ScriptMachine.Proofs.Copies.Additions

namespace ScriptMachine

/-- A computation that completes with a value and a machine that `Q` allows; or it stops, because
all slots of the heap are in use, and there are fewer than `slots` of them. -/
inductive Step.Completes (slots : Nat) : {α : Type} → (Machine → α → Prop) → Step α → Prop where
  | done {α : Type} {Q : Machine → α → Prop} {m : Machine} {a : α} (h : Q m a) :
      Completes slots Q (.done m a)
  | full {α : Type} {Q : Machine → α → Prop} {m : Machine} (hlive : Heap.maxSlots ≤ m.heap.live)
      (hslots : Heap.maxSlots < slots) :
      Completes slots Q (.defect m (.heapExhausted .allocFailed))
  | call {α : Type} {Q : Machine → α → Prop} {m : Machine} {q : Request}
      {resume : Machine → Except FaultKind Ref → Step α} {P : Machine → Ref → Prop}
      (hanswer : Completes slots (fun m' turn => ∃ r, turn = .value r ∧ P m' r) (q.perform m))
      (hresume : ∀ m' r, P m' r → Completes slots Q (resume m' (.ok r))) :
      Completes slots Q (.call m q resume)

namespace Step.Completes

variable {α β : Type} {slots : Nat} {P Q : Machine → α → Prop} {s : Step α}

/-! ## 1. Putting computations together -/

theorem imp (h : s.Completes slots P) (hQ : ∀ m a, P m a → Q m a) : s.Completes slots Q := by
  induction h with
  | done h => exact .done (hQ _ _ h)
  | full hlive hslots => exact .full hlive hslots
  | call hanswer _ _ ih => exact .call hanswer fun m' r hr => ih m' r hr hQ

theorem bind {Q : Machine → β → Prop} (h : s.Completes slots P) {f : α → Machine → Step β}
    (hf : ∀ m a, P m a → (f a m).Completes slots Q) : (s.bind f).Completes slots Q := by
  induction h with
  | done h => exact hf _ _ h
  | full hlive hslots => exact .full hlive hslots
  | call hanswer _ _ ih => exact .call hanswer fun m' r hr => ih m' r hr hf

/-- There is no fault to turn into a value. -/
theorem attempt (h : s.Completes slots P) :
    s.attempt.Completes slots fun m outcome => ∃ a, outcome = .ok a ∧ P m a := by
  induction h with
  | done h => exact .done ⟨_, rfl, h⟩
  | full hlive hslots => exact .full hlive hslots
  | call hanswer _ _ ih => exact .call hanswer ih

theorem onExit (h : s.Completes slots P) {g : Machine → Machine} (hg : ∀ m a, P m a → Q (g m) a) :
    (s.onExit g).Completes slots Q := by
  induction h with
  | done h => exact .done (hg _ _ h)
  | full hlive hslots => exact .full hlive hslots
  | call hanswer _ _ ih => exact .call hanswer fun m' r hr => ih m' r hr hg

end Step.Completes

namespace Effect

variable {α β : Type} {slots : Nat} {m : Machine} {P Q : Machine → α → Prop} {x : Effect α}

theorem completes_bind {Q : Machine → β → Prop} {f : α → Effect β} (hx : (x m).Completes slots P)
    (hf : ∀ m' a, P m' a → (f a m').Completes slots Q) : ((x >>= f) m).Completes slots Q :=
  hx.bind hf

/-- A computation under way as a call, for whose frame there is room. -/
theorem completes_inCall {frame : CallFrame} {calls : CallStack}
    (hpush : m.calls.push frame = (.ok (), calls))
    (hx : (x { m with calls }).Completes slots P)
    (hP : ∀ m' a, P m' a → m'.calls = calls ∧ Q { m' with calls := m.calls } a) :
    (inCall frame x m).Completes slots Q := by
  have hbegin : (beginCall frame m).Completes slots fun m' _ => m' = { m with calls } := by
    unfold beginCall
    rw [hpush]
    exact .done rfl
  refine completes_bind hbegin fun m₁ _ hm₁ => ?_
  subst hm₁
  refine completes_bind (x := Effect.attempt x) hx.attempt fun m₂ outcome h => ?_
  obtain ⟨a, rfl, ha⟩ := h
  obtain ⟨hcalls, hQ⟩ := hP m₂ a ha
  have hend : endCall m₂ = .done { m₂ with calls := m.calls } () := by
    unfold endCall
    rw [hcalls, if_neg (by simp [CallStack.isEmpty, (CallStack.of_push_ok hpush).1]),
      CallStack.pop_of_push hpush]
  refine completes_bind (P := fun m' _ => m' = { m₂ with calls := m.calls }) (hend ▸ .done rfl) ?_
  rintro m₃ - rfl
  exact .done hQ

/-- A call of a native function, for which there is room. -/
theorem completes_native {f : NativeFunction} {args : List Ref} {location : Location}
    {calls : CallStack} {P Q : Machine → Ref → Prop} (haccepts : f.accepts args.length = true)
    (hpush : m.calls.push ⟨f.name, location⟩ = (.ok (), calls))
    (hbody : (f.procedure.run args { m with calls }).Completes slots P)
    (hP : ∀ m' r, P m' r → m'.calls = calls ∧ Q { m' with calls := m.calls } r) :
    (call (.native f) args location m).Completes slots Q := by
  refine .call (P := Q) ?_ fun m' r hr => .done hr
  show ((enterNative f args location (f.procedure.run args) >>= _) m).Completes slots _
  rw [enterNative, if_pos haccepts]
  exact completes_bind (completes_inCall hpush hbody hP) fun m' r hr => .done ⟨r, rfl, hr⟩

/-- An allocation: it finds a place, or all slots are in use.  They are in use already if the allocation
fails. -/
theorem completes_allocate (hw : m.heap.WellFormed) {v : Value}
    (hslots : ∀ m', m.tryAllocate v = (.error .allocFailed, m') → Heap.maxSlots ≤ m.heap.live →
      Heap.maxSlots < slots) :
    (allocate v m).Completes slots fun m' r => ∃ a, r = .heap a ∧ m.Allocates v a m' := by
  unfold allocate
  rcases Machine.tryAllocate_cases hw v with ⟨a, m', ha⟩ | ⟨m', hfull, hmax, hle⟩
  · rw [ha.eq]
    exact .done ⟨a, rfl, ha⟩
  · rw [hfull]
    exact .full hmax (hslots m' hfull (hmax.trans hle))

end Effect

/-! ## 2. Runs -/

/-- An outcome as of a computation that completes. -/
def Outcome.Complete {α : Type} (slots : Nat) (Q : Machine → α → Prop) : Outcome α → Prop
  | .value m a => Q m a
  | .defect m d =>
    d = .heapExhausted .allocFailed ∧ Heap.maxSlots ≤ m.heap.live ∧ Heap.maxSlots < slots
  | .fault _ _ | .outOfSteps _ => False

theorem Step.bind_done {α : Type} (s : Step α) : (s.bind fun a m => .done m a) = s := by
  induction s with
  | done m a => rfl
  | fault m k => rfl
  | defect m d => rfl
  | call m q resume ih =>
    simp only [Step.bind]
    congr 1
    funext m' r
    exact ih m' r

namespace Step.Completes

variable {α : Type} {slots : Nat} {Q : Machine → α → Prop} {s : Step α}

/-- **A computation that completes ends**, with what comes after it.  The induction is on the
derivation: an answer ends first, and whoever waits for it goes on. -/
theorem ends_bind (h : s.Completes slots Q) {f : α → Machine → Step Turn}
    {R : Machine → Ref → Prop}
    (hf : ∀ m a, Q m a → ∃ outcome, (Run.mk (f a m) []).Ends outcome ∧ outcome.Complete slots R) :
    ∃ outcome, (Run.mk (s.bind f) []).Ends outcome ∧ outcome.Complete slots R := by
  induction h generalizing R with
  | done h => exact hf _ _ h
  | full hlive hslots => exact ⟨_, Run.ends_of_inl rfl, rfl, hlive, hslots⟩
  | @call α Q m q resume P _ _ ihanswer ih =>
    have hdone : ∀ m' turn, (∃ r, turn = .value r ∧ P m' r) →
        ∃ outcome, (Run.mk (.done m' turn) []).Ends outcome ∧ outcome.Complete slots P := by
      rintro m' turn ⟨r, rfl, hr⟩
      exact ⟨_, Run.ends_of_inl rfl, hr⟩
    obtain ⟨outcome, hends, hcomplete⟩ := ihanswer hdone
    rw [Step.bind_done] at hends
    have hnext : (Run.mk ((Step.call m q resume).bind f) []).next =
        .inr ⟨q.perform m, [] ++ [fun m r => (resume m r).bind f]⟩ := rfl
    cases outcome with
    | value m' r =>
      obtain ⟨outcome', hends', hcomplete'⟩ := ih m' r hcomplete hf
      have hvalue : (Run.mk (q.perform m) []).Ends (.answered m' (.ok r)) := hends
      exact ⟨outcome', Run.ends_of_inr hnext (hvalue.answer _ hends'), hcomplete'⟩
    | defect m' d => exact ⟨_, Run.ends_of_inr hnext (hends.defect _), hcomplete⟩
    | fault m' k => exact hcomplete.elim
    | outOfSteps m' => exact hcomplete.elim

/-- The run of an answer that completes. -/
theorem ends {s : Step Turn} {P : Machine → Ref → Prop}
    (h : s.Completes slots fun m turn => ∃ r, turn = .value r ∧ P m r) :
    ∃ outcome, (Run.mk s []).Ends outcome ∧ outcome.Complete slots P := by
  obtain ⟨outcome, hends, hcomplete⟩ := h.ends_bind (f := fun turn m => .done m turn) (R := P) <| by
    rintro m turn ⟨r, rfl, hr⟩
    exact ⟨_, Run.ends_of_inl rfl, hr⟩
  rw [Step.bind_done] at hends
  exact ⟨outcome, hends, hcomplete⟩

/-- All requests of a computation that completes are answered, with steps enough. -/
theorem run (h : s.Completes slots Q) :
    ∃ needed outcome, (∀ extra, s.run (needed + extra) = outcome) ∧ outcome.Complete slots Q := by
  induction h with
  | done h => exact ⟨0, _, fun _ => rfl, h⟩
  | full hlive hslots => exact ⟨0, _, fun _ => rfl, rfl, hlive, hslots⟩
  | @call α Q m q resume P hanswer _ _ ih =>
    obtain ⟨outcome, ⟨first, hfirst⟩, hcomplete⟩ := hanswer.ends
    cases outcome with
    | value m' r =>
      obtain ⟨rest, outcome', hrest, hcomplete'⟩ := ih m' r hcomplete
      refine ⟨first + rest, outcome', fun extra => ?_, hcomplete'⟩
      rw [Step.run, Nat.add_assoc, hfirst]
      exact hrest extra
    | defect m' d =>
      refine ⟨first, .defect m' d, fun extra => ?_, hcomplete⟩
      rw [Step.run, hfirst]
    | fault m' k => exact hcomplete.elim
    | outOfSteps m' => exact hcomplete.elim

end Step.Completes

/-- **The run of a computation that completes** comes to an outcome that is as derived, with as many
steps as it needs or more. -/
theorem Machine.run_of_completes {α : Type} {m : Machine} {x : Effect α} {slots : Nat}
    {Q : Machine → α → Prop} (h : (x m).Completes slots Q) :
    ∃ needed outcome, (∀ extra, m.run (needed + extra) x = outcome) ∧
      outcome.Complete slots Q := by
  obtain ⟨needed, outcome, hrun, hcomplete⟩ := h.run
  refine ⟨needed, outcome.unwound m.scopes.depth, fun extra => ?_, ?_⟩
  · rw [Machine.run, hrun extra]
    cases outcome with
    | value m' a => rfl
    | fault m' k => rfl
    | defect m' d => rfl
    | outOfSteps m' => rfl
  · cases outcome with
    | value m' a => exact hcomplete
    | fault m' k => exact hcomplete
    | defect m' d => exact hcomplete
    | outOfSteps m' => exact hcomplete

end ScriptMachine
