/-
# Evaluation meets no stale handle

A collection may run inside any allocation, so every handle that an evaluation still needs must be
held by a root by then.  Here it is shown that it is, on every machine that a host can come to: one
that was made with any choices, and then evaluated trees of any shape, defined types and collected, in
any order.

* `Machine.Intact`: every handle in a binding, in a module, among the temporary roots or in a live
  value resolves;
* `Machine.Reached.intact`: this holds between any two steps of a host;
* `Machine.Reached.evaluate_safe`: an evaluation ends with a value that resolves, and on a machine that
  is intact.  The only defect it can end with is that of a heap all of whose 2^32 slots are in use.
-/
import ScriptMachine.Proofs.Twin.Host

namespace ScriptMachine

namespace Machine

/-! ## 1. Machines without stale handles -/

/-- A reference with a value behind it. -/
def Resolves (m : Machine) (r : Ref) : Prop := ∃ v, m.resolve r = .ok v

/-- Whatever a machine holds resolves. -/
structure Intact (m : Machine) : Prop where
  bindings : ∀ frame ∈ m.scopes.frames, ∀ binding ∈ frame.entries, m.Resolves binding.2.value
  members : ∀ module ∈ m.modules.modules, ∀ member ∈ module.2.members, m.Resolves member.2
  temps : ∀ r ∈ m.temps, m.Resolves r
  records : ∀ (i : Nat) (record : Record), m.heap.slots[i]? = some (.live record) →
    ∀ items, record.value.payload.elements? = some items → ∀ r ∈ items, m.Resolves r

/-- References of a world resolve. -/
theorem resolves_of_alike {w : World True} {r s : Ref} (h : w.Alike r s) : w.left.Resolves r := by
  obtain ⟨v, _, hv, -⟩ := h.resolve
  exact ⟨v, hv⟩

/-- A sound machine is intact: all it holds is paired, with itself. -/
theorem Sound.intact {m : Machine} (h : m.Sound) : m.Intact := by
  obtain ⟨w, rfl⟩ := h
  refine ⟨fun frame hframe binding hbinding => ?_, fun module hmodule member hmember => ?_,
    fun r hr => ?_, fun i record hlive items hitems r hr => ?_⟩
  · obtain ⟨frame', -, hframes⟩ :=
      exists_mem_of_forall₂ w.scopes.frames (Array.mem_toList_iff.2 hframe)
    obtain ⟨binding', -, hbindings⟩ := exists_mem_of_forall₂ hframes.entries hbinding
    exact resolves_of_alike hbindings.2.value
  · obtain ⟨module', -, hmodules⟩ := exists_mem_of_forall₂ w.modules hmodule
    obtain ⟨member', -, hmembers⟩ := exists_mem_of_forall₂ hmodules.2 hmember
    exact resolves_of_alike hmembers.2
  · obtain ⟨r', -, htemps⟩ := exists_mem_of_forall₂ w.temps (Array.mem_toList_iff.2 hr)
    exact resolves_of_alike htemps
  · -- a live slot is the place of a live handle, and live handles are paired
    have hget : w.left.heap.get? ⟨i, record.generation⟩ = some record.value := by
      simp [Heap.get?, Heap.record?, hlive]
    obtain ⟨v, u, hv, -, hvu, -⟩ := w.values _ _ (w.total trivial _ _ hget)
    obtain rfl : record.value = v := Option.some.inj (hget.symm.trans hv)
    have hmem : r ∈ record.value.payload.items := by
      simpa [Payload.items, hitems] using hr
    obtain ⟨r', -, hrr'⟩ := exists_mem_of_forall₂ hvu.payload.items hmem
    exact resolves_of_alike hrr'

/-! ## 2. The machines that hosts come to -/

/-- The machines that a host can come to: it makes one, brings in the names of trees, evaluates trees
to their end, defines types and collects. -/
inductive Reached : Machine → Prop where
  | boot (settings : Settings) (names : NameTable) : Reached (boot settings names)
  | intern {m : Machine} (text : String) : Reached m → Reached (m.intern text).2
  | evaluate {m m' : Machine} {n : Nat} {node : Node} {r : Ref} : Reached m →
      m.evaluate n node = .value m' r → Reached m'
  | defineType {m m' : Machine} {n : Nat} {name : String} {parent : TypeId}
      {members : List (String × TypeId)} {result : Except Refusal TypeId} : Reached m →
      m.run n (Effect.defineType name parent members) = .value m' result → Reached m'
  | collectGarbage {m : Machine} : Reached m → Reached m.collectGarbage.2

/-- What an evaluation on a sound machine comes to. -/
theorem Sound.evaluate {m : Machine} (h : m.Sound) (n : Nat) (node : Node) :
    match m.evaluate n node with
    | .value m' r => m'.Sound ∧ m'.Resolves r
    | .fault _ _ => False
    | .defect m' d => d = .heapExhausted .allocFailed ∧ Heap.maxSlots ≤ m'.heap.live
    | .outOfSteps _ => True := by
  obtain ⟨w, rfl⟩ := h
  have halike := w.evaluate n node (.inl trivial)
  have hfault := w.left.evaluate_ne_fault n node
  have hsame : w.right.evaluate n node = w.left.evaluate n node := by rw [w.same trivial]
  generalize w.left.evaluate n node = outcome at halike hfault hsame
  generalize w.right.evaluate n node = outcome' at halike hsame
  cases halike with
  | value w' _ hr => exact ⟨⟨w', rfl⟩, resolves_of_alike hr⟩
  | fault w' k _ => exact hfault _ k rfl
  | outOfSteps m' _ => trivial
  | leftFull _ hfull => exact ⟨rfl, hfull⟩
  | rightFull _ hfull =>
    subst hsame
    exact ⟨rfl, hfull⟩

/-- Every machine that a host comes to is sound. -/
theorem Reached.sound {m : Machine} (h : m.Reached) : m.Sound := by
  induction h with
  | boot settings names =>
    obtain ⟨w, hl, -⟩ := World.boot True settings settings.heap names fun _ => rfl
    exact ⟨w, hl⟩
  | intern text _ ih => exact ih.intern text
  | @evaluate m m' n node r _ hvalue ih =>
    have hsafe := ih.evaluate n node
    rw [hvalue] at hsafe
    exact hsafe.1
  | @defineType m m' n name parent members result _ hvalue ih =>
    have hends := Effect.StaysSound.defineType name parent members m ih
    unfold Machine.run at hvalue
    generalize Effect.defineType name parent members m = s at hends hvalue
    cases s with
    | done m₁ a =>
      obtain ⟨rfl, -⟩ : m₁ = m' ∧ a = result := by simpa [Step.run] using hvalue
      exact hends
    | fault m₁ k => simp [Step.run] at hvalue
    | defect m₁ d => simp [Step.run] at hvalue
    | call m₁ q resume => exact hends.elim
  | collectGarbage _ ih =>
    obtain ⟨freed, m', hcollect, hsound⟩ := ih.collectGarbage
    rw [Machine.collectGarbage, hcollect]
    exact hsound

/-- Between any two steps of a host, whatever its machine holds resolves. -/
theorem Reached.intact {m : Machine} (h : m.Reached) : m.Intact := h.sound.intact

/-! ## 3. Safety -/

/-- **Evaluation is safe.**  On every machine that a host comes to, all handles resolve and a
collection finds the heap in order; and the evaluation of any tree, for any number of steps, ends with
a value that resolves on a machine all of whose handles resolve, ends because all of the 2^32 slots of
the heap are in use, or is out of steps.  In particular it meets no stale handle, no broken list, no
missing argument and no end of a call that did not begin. -/
theorem Reached.evaluate_safe {m : Machine} (h : m.Reached) (n : Nat) (node : Node) :
    m.Intact ∧ m.collectGarbage?.isSome = true ∧
      match m.evaluate n node with
      | .value m' r => m'.Resolves r ∧ m'.Intact
      | .fault _ _ => False
      | .defect m' d => d = .heapExhausted .allocFailed ∧ Heap.maxSlots ≤ m'.heap.live
      | .outOfSteps _ => True := by
  refine ⟨h.intact, ?_, ?_⟩
  · obtain ⟨freed, m', hcollect, -⟩ := h.sound.collectGarbage
    rw [hcollect]
    rfl
  · have hsafe := h.sound.evaluate n node
    generalize m.evaluate n node = outcome at hsafe
    cases outcome with
    | value m' r => exact ⟨hsafe.2, hsafe.1.intact⟩
    | fault m' k => exact hsafe
    | defect m' d => exact hsafe
    | outOfSteps m' => trivial

/-- The vector of `1`, a call without anything to call, and `2`.  No source text has a call of that
shape, and its evaluation is a fault. -/
def faultyVector : Node :=
  ⟨.vector, [⟨.literal (.int 1), [], .builtin⟩, ⟨.call, [], .builtin⟩,
    ⟨.literal (.int 2), [], .builtin⟩], .builtin⟩

/-- The elements of the value that an evaluation ended with, and how many faults were logged. -/
def elements? : Outcome Ref → Option (List Ref × Nat)
  | .value m r => (m.resolve r).toOption.map fun v => (v.payload.items, m.faults.size)
  | .fault _ _ | .defect _ _ | .outOfSteps _ => none

theorem exists_of_elements? {outcome : Outcome Ref} {found : List Ref × Nat}
    (h : elements? outcome = some found) : ∃ m r, outcome = .value m r := by
  cases outcome with
  | value m r => exact ⟨m, r, rfl⟩
  | fault m k => cases h
  | defect m d => cases h
  | outOfSteps m => cases h

/-- The vector on a machine that collects at every allocation and has no room for calls.  Its first
element is still there when the vector is made, its second one is nil for the fault, and all that the
machine holds resolves. -/
theorem evaluate_safe_faultyVector :
    ∃ m' r, (boot ⟨⟨0, true⟩, some 0, .terminal, false, .standard⟩ .initial).evaluate 10 faultyVector =
        .value m' r ∧
      elements? (.value m' r) = some ([.heap ⟨28, 0⟩, .nil, .heap ⟨29, 0⟩], 1) ∧
      m'.Resolves r ∧ m'.Intact := by
  let settings : Settings := ⟨⟨0, true⟩, some 0, .terminal, false, .standard⟩
  have helements : elements? ((boot settings .initial).evaluate 10 faultyVector) =
      some ([.heap ⟨28, 0⟩, .nil, .heap ⟨29, 0⟩], 1) := by decide +kernel
  have hsafe := (Reached.evaluate_safe (.boot settings .initial) 10 faultyVector).2.2
  obtain ⟨m', r, hrun⟩ := exists_of_elements? helements
  rw [hrun] at helements hsafe
  exact ⟨m', r, hrun, helements, hsafe⟩

end Machine

end ScriptMachine
