/-
# Evaluation is balanced

Evaluation keeps four stacks: the scopes, the temporary roots, the calls under way, and the depth of
rendering.  Each is pushed and popped by other code, and a fault can end a computation at any point
in between.  Whatever ends an evaluation or a call, a value or a fault, the stacks are afterwards
what they were before.

In between, the calls under way keep to their limit.  A stack of calls carries the proof that it does,
so what has to be shown is that nothing changes the limit.  A backtrace lists the calls under way, so
no fault that is reported has a longer one.

* `Machine.Proceeds.settled`: from the start of a computation to its end, every stack is back where it
  was;
* `Machine.Passes.keepsDepth`: at every moment, the limit on calls is the same and kept;
* `Machine.evaluation_balanced`: both, for all that a host can ask to be evaluated.
-/
import ScriptMachine.Proofs.Conduct.Evaluation

namespace ScriptMachine

/-! ## 1. The frames of a stack of scopes, bindings left aside -/

namespace ScopeStack

/-- The identities and the parents of the frames. -/
def outline (s : ScopeStack) : List (ScopeId × Option Nat) :=
  s.frames.toList.map fun f => (f.id, f.parent)

theorem length_outline (s : ScopeStack) : s.outline.length = s.depth := by
  simp [outline, depth]

theorem outline_modifyEntries (s : ScopeStack) (position : Nat) (f : Bindings → Bindings) :
    (s.modifyEntries position f).outline = s.outline := by
  refine List.ext_getElem? fun i => ?_
  simp only [outline, modifyEntries, List.getElem?_map, Array.getElem?_toList,
    Array.getElem?_modify]
  split
  · cases s.frames[i]? with
    | none => rfl
    | some frame => rfl
  · rfl

theorem outline_bind (s : ScopeStack) (name : Name) (entry : Entry) :
    (s.bind name entry).2.outline = s.outline := by
  unfold bind bindAt
  split
  · rfl
  · split
    · rfl
    · exact s.outline_modifyEntries _ _

theorem outline_assign (s : ScopeStack) (name : Name) (v : Ref) :
    (s.assign name v).2.outline = s.outline := by
  unfold assign
  split
  · rfl
  · split
    · exact s.outline_modifyEntries _ _
    · rfl

/-- Leaving a scope whose frame is on top. -/
theorem outline_pop {s s' : ScopeStack} {parent : Nat} (h : parent < s.frames.size)
    (hs' : s'.outline = (s.pushAt parent h).outline) : s'.pop.outline = s.outline := by
  have hpush : s'.outline = s.outline ++ [(⟨s.next⟩, some parent)] := by
    rw [hs']
    simp [outline, pushAt]
  have hdepth : s'.depth = s.depth + 1 := by
    rw [← length_outline, ← length_outline, hpush]
    simp
  have hpos : 0 < s.depth := s.nonempty
  unfold pop
  rw [dif_pos (by omega)]
  calc (s'.keep (s'.depth - 1) (by omega)).outline
      = s'.outline.take (s'.depth - 1) := by simp [outline, keep, List.map_take]
    _ = (s.outline ++ [(ScopeId.mk s.next, some parent)]).take s.outline.length := by
      rw [hpush, hdepth, length_outline, Nat.add_sub_cancel]
    _ = s.outline := List.take_left

end ScopeStack

/-! ## 2. The four stacks -/

namespace Machine

variable {m m' m'' : Machine} {rooting : Bool}

/-- The four stacks are the same on two machines: the same frames of the scopes, the same temporary
roots, the same calls under way, and the same depth of rendering. -/
structure Balanced (m m' : Machine) : Prop where
  outline_eq : m'.scopes.outline = m.scopes.outline
  temps_eq : m'.temps = m.temps
  calls_eq : m'.calls = m.calls
  renderDepth_eq : m'.renderDepth = m.renderDepth

/-- No act touches a stack. -/
theorem Act.balanced (h : m.Act m') : m.Balanced m' := by
  rcases h.parts with
    ⟨_, rfl⟩ | ⟨name, entry, rfl⟩ | ⟨name, v, rfl⟩ | ⟨_, rfl⟩ | ⟨_, _, rfl⟩ | ⟨_, rfl⟩
  · exact ⟨rfl, rfl, rfl, rfl⟩
  · exact ⟨m.scopes.outline_bind name entry, rfl, rfl, rfl⟩
  · exact ⟨m.scopes.outline_assign name v, rfl, rfl, rfl⟩
  · exact ⟨rfl, rfl, rfl, rfl⟩
  · exact ⟨rfl, rfl, rfl, rfl⟩
  · exact ⟨rfl, rfl, rfl, rfl⟩

/-- The stacks at the end of a computation: a rooting one may have added temporary roots. -/
structure Settled (rooting : Bool) (m m' : Machine) : Prop where
  outline_eq : m'.scopes.outline = m.scopes.outline
  temps : m.temps.toList <+: m'.temps.toList
  temps_eq : rooting = false → m'.temps = m.temps
  calls_eq : m'.calls = m.calls
  renderDepth_eq : m'.renderDepth = m.renderDepth

theorem Balanced.settled (h : m.Balanced m') : m.Settled rooting m' :=
  ⟨h.outline_eq, h.temps_eq ▸ List.prefix_rfl, fun _ => h.temps_eq, h.calls_eq, h.renderDepth_eq⟩

theorem Settled.trans (h : m.Settled rooting m') (h' : m'.Settled rooting m'') :
    m.Settled rooting m'' where
  outline_eq := h'.outline_eq.trans h.outline_eq
  temps := h.temps.trans h'.temps
  temps_eq := fun hr => (h'.temps_eq hr).trans (h.temps_eq hr)
  calls_eq := h'.calls_eq.trans h.calls_eq
  renderDepth_eq := h'.renderDepth_eq.trans h.renderDepth_eq

/-- Releasing what was rooted since an earlier machine gives its temporary roots. -/
theorem shrink_of_prefix {a b : Array Ref} (h : a.toList <+: b.toList) : b.shrink a.size = a := by
  obtain ⟨rest, hrest⟩ := h
  refine Array.toList_inj.1 ?_
  rw [Array.toList_shrink, ← hrest, ← Array.length_toList, List.take_left]

/-- **From the start of a computation to its end**, every stack is back where it was.  The induction
is on the acts and brackets: each bracket finds its own frame on top when it closes, because what
ran inside left the stacks as they were. -/
theorem Proceeds.settled (h : m.Proceeds rooting m') : m.Settled rooting m' := by
  induction h with
  | refl m => exact Balanced.settled ⟨rfl, rfl, rfl, rfl⟩
  | trans _ _ ih ih' => exact ih.trans ih'
  | act h => exact h.balanced.settled
  | root m r =>
    cases r with
    | nil => exact Balanced.settled ⟨rfl, rfl, rfl, rfl⟩
    | bool b => exact Balanced.settled ⟨rfl, rfl, rfl, rfl⟩
    | heap a => exact ⟨rfl, by simp [Machine.root], nofun, rfl, rfl⟩
  | released _ ih =>
    exact Balanced.settled ⟨ih.outline_eq, shrink_of_prefix ih.temps, ih.calls_eq, ih.renderDepth_eq⟩
  | scope h _ ih =>
    exact ⟨ScopeStack.outline_pop h ih.outline_eq, ih.temps, ih.temps_eq, ih.calls_eq,
      ih.renderDepth_eq⟩
  | @call _ m m' _ calls hpush _ ih =>
    have hpop : m'.calls.pop = m.calls := by
      rw [show m'.calls = calls from ih.calls_eq, CallStack.pop_of_push hpush]
    exact ⟨ih.outline_eq, ih.temps, ih.temps_eq, hpop, ih.renderDepth_eq⟩
  | @rendering _ m m' _ ih =>
    have hdepth : m'.renderDepth - 1 = m.renderDepth := by
      rw [show m'.renderDepth = m.renderDepth + 1 from ih.renderDepth_eq, Nat.add_sub_cancel]
    exact ⟨ih.outline_eq, ih.temps, ih.temps_eq, ih.calls_eq, hdepth⟩

theorem Proceeds.balanced (h : m.Proceeds false m') : m.Balanced m' :=
  ⟨h.settled.outline_eq, h.settled.temps_eq rfl, h.settled.calls_eq, h.settled.renderDepth_eq⟩

/-! ## 3. The limit on calls -/

/-- The limit on calls is the same, the calls under way keep to it, and so do the backtraces of the
faults that were reported since. -/
structure KeepsDepth (m m' : Machine) : Prop where
  limit_eq : m'.calls.limit = m.calls.limit
  depth_le : ∀ limit, m.calls.limit = some limit → m'.calls.depth ≤ limit
  backtraces : ∃ reported, m'.faults.toList = m.faults.toList ++ reported ∧
    ∀ fault ∈ reported, ∀ limit, m.calls.limit = some limit → fault.backtrace.length ≤ limit

namespace KeepsDepth

/-- A change that reports nothing and keeps the limit. -/
theorem of_eq (hlimit : m'.calls.limit = m.calls.limit) (hfaults : m'.faults = m.faults) :
    m.KeepsDepth m' where
  limit_eq := hlimit
  depth_le := fun limit h => m'.calls.within limit (hlimit.trans h)
  backtraces := ⟨[], by rw [hfaults, List.append_nil], nofun⟩

theorem report (m : Machine) (kind : FaultKind) (location : Location) :
    m.KeepsDepth (m.report kind location) where
  limit_eq := rfl
  depth_le := fun limit h => m.calls.within limit h
  backtraces := by
    refine ⟨[⟨kind, location, m.calls.capture⟩], by simp [Machine.report], ?_⟩
    rintro fault hfault limit hlimit
    obtain rfl := List.mem_singleton.1 hfault
    rw [CallStack.length_capture]
    exact m.calls.within limit hlimit

theorem trans (h : m.KeepsDepth m') (h' : m'.KeepsDepth m'') : m.KeepsDepth m'' where
  limit_eq := h'.limit_eq.trans h.limit_eq
  depth_le := fun limit hlimit => h'.depth_le limit (h.limit_eq.trans hlimit)
  backtraces := by
    obtain ⟨reported, hreported, hshort⟩ := h.backtraces
    obtain ⟨reported', hreported', hshort'⟩ := h'.backtraces
    refine ⟨reported ++ reported', by rw [hreported', hreported, List.append_assoc], ?_⟩
    intro fault hfault limit hlimit
    rcases List.mem_append.1 hfault with hold | hnew
    · exact hshort fault hold limit hlimit
    · exact hshort' fault hnew limit (h.limit_eq.trans hlimit)

/-- A bracket that keeps the limit and reports nothing where it opens and where it closes. -/
theorem bracket {m₁ m₂ : Machine} (h : m₁.KeepsDepth m₂)
    (hopen : m₁.calls.limit = m.calls.limit ∧ m₁.faults = m.faults)
    (hclose : m'.calls.limit = m₂.calls.limit ∧ m'.faults = m₂.faults) : m.KeepsDepth m' :=
  ((of_eq hopen.1 hopen.2).trans h).trans (of_eq hclose.1 hclose.2)

end KeepsDepth

theorem Act.keepsDepth (h : m.Act m') : m.KeepsDepth m' := by
  rcases h.parts with
    ⟨_, rfl⟩ | ⟨_, _, rfl⟩ | ⟨_, _, rfl⟩ | ⟨_, rfl⟩ | ⟨kind, location, rfl⟩ | ⟨_, rfl⟩
  · exact .of_eq rfl rfl
  · exact .of_eq rfl rfl
  · exact .of_eq rfl rfl
  · exact .of_eq rfl rfl
  · exact .report m kind location
  · exact .of_eq rfl rfl

theorem Proceeds.keepsDepth (h : m.Proceeds rooting m') : m.KeepsDepth m' := by
  induction h with
  | refl m => exact .of_eq rfl rfl
  | trans _ _ ih ih' => exact ih.trans ih'
  | act h => exact h.keepsDepth
  | root m r =>
    cases r with
    | nil => exact .of_eq rfl rfl
    | bool b => exact .of_eq rfl rfl
    | heap a => exact .of_eq rfl rfl
  | released _ ih => exact ih.trans (.of_eq rfl rfl)
  | scope h _ ih => exact ih.bracket ⟨rfl, rfl⟩ ⟨rfl, rfl⟩
  | call hpush _ ih => exact ih.bracket ⟨(CallStack.of_push_ok hpush).2, rfl⟩ ⟨rfl, rfl⟩
  | rendering _ ih => exact ih.bracket ⟨rfl, rfl⟩ ⟨rfl, rfl⟩

/-- **At every moment** of a computation the calls under way keep to the limit. -/
theorem Passes.keepsDepth (h : m.Passes m') : m.KeepsDepth m' := by
  induction h with
  | proceeds h => exact h.keepsDepth
  | trans _ _ ih ih' => exact ih.trans ih'
  | scope m h => exact .of_eq rfl rfl
  | call hpush => exact .of_eq (CallStack.of_push_ok hpush).2 rfl
  | rendering m => exact .of_eq rfl rfl
  | unwound _ ih => exact ih.trans (.of_eq rfl rfl)

end Machine

/-! ## 4. Balance -/

/-- What a run that began at `m` shows: at its end, with a value or with a fault, the stacks are as
they were; and wherever it is, the calls under way keep to their limit. -/
def Outcome.Balances {α : Type} (m : Machine) (outcome : Outcome α) : Prop :=
  m.KeepsDepth outcome.machine ∧
    match outcome with
    | .value m' _ | .fault m' _ => m.Balanced m'
    | .defect _ _ | .outOfSteps _ => True

namespace Machine

/-- The run of an orderly computation is balanced. -/
theorem run_balances {α : Type} {x : Effect α} (hx : x.Orderly false) (m : Machine) (n : Nat) :
    (m.run n x).Balances m := by
  refine ⟨(run_passes hx m n).keepsDepth, ?_⟩
  have hrun := run_follows hx m n
  generalize m.run n x = outcome at hrun
  cases outcome with
  | value m' a => exact Proceeds.balanced hrun
  | fault m' k => exact Proceeds.balanced hrun
  | defect m' d => trivial
  | outOfSteps m' => trivial

open Effect in
/-- **Evaluation is balanced.**  Evaluate a tree of any shape on any machine, call a value, a method
or a callable, or render or display a value: when that returns, with a value or with a fault, the
scopes have the same frames, with the same identities and parents, the temporary roots and the calls
under way are exactly the same, and so is the depth of rendering.  At every moment in between, the
one after `n` steps for each `n`, the calls under way are no more than their limit, and so are the
lines of the backtraces reported by then. -/
theorem evaluation_balanced (m : Machine) (n : Nat) :
    (∀ node, (m.run n (eval node)).Balances m) ∧
    (∀ callee args location, (m.run n (callValue callee args location)).Balances m) ∧
    (∀ receiver method args location,
      (m.run n (callMethod receiver method args location)).Balances m) ∧
    (∀ callable args location, (m.run n (call callable args location)).Balances m) ∧
    (∀ r, (m.run n (render r)).Balances m) ∧
    ∀ r, (m.run n (display r)).Balances m := by
  refine ⟨fun node => ?_, fun callee args location => ?_, fun receiver method args location => ?_,
    fun callable args location => ?_, fun r => ?_, fun r => ?_⟩
  · exact run_balances (.eval node) m n
  · exact run_balances (.callValue callee args location) m n
  · exact run_balances (.callMethod receiver method args location) m n
  · exact run_balances (.call callable args location) m n
  · exact run_balances (.render r) m n
  · exact run_balances (.display r) m n

end Machine

end ScriptMachine
