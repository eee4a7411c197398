/-
# Assignments

An assignment looks its name up twice: before its value is computed, to refuse what cannot be assigned,
and afterwards, to store the value.  In between any code can run.  It takes no binding away and makes
none immutable, and it gives a new name only to the frame on top, so the second look-up finds the
binding of the first one, unless the value itself declares the name in a frame in front of it.

* `ScopeStack.Keeps.resolve`: what a name resolves to after an evaluation;
* `Machine.evaluate_assign`: the value of an assignment and what it changes;
* `Machine.evaluate_assign_shadowed`: an assignment that is refused only after its value was computed.
-/
import ScriptMachine.Proofs.Bindings
import ScriptMachine.Proofs.Runs

namespace ScriptMachine

namespace ScopeStack

variable {s s' : ScopeStack} {name : Name} {p : Nat} {e : Entry}

/-! ## 1. Looking a name up again -/

/-- The binding of a name at position `p` is hidden by the binding `e` in the innermost frame. -/
def Hides (s : ScopeStack) (name : Name) (p : Nat) (e : Entry) : Prop :=
  p ≠ s.top ∧ s.findLocal name = some e

/-- The innermost frame is at the same place in two stacks with the same outline. -/
theorem top_eq_of_outline (ho : s'.outline = s.outline) : s'.top = s.top := by
  rw [top, top, ← length_outline, ← length_outline, ho]

/-- A name that is not new in the innermost frame resolves to the same place as before.  The induction
is on the way along the parents. -/
theorem Keeps.resolveFrom (hk : s.Keeps s')
    (hold : ∀ f f' : Frame, s.frames[s.top]? = some f → s'.frames[s.top]? = some f' →
      f.entries.get? name = none → f'.entries.get? name = none)
    {position : Nat} (h : position < s.frames.size) (h' : position < s'.frames.size)
    (hres : s.resolveFrom name position h = some (p, e)) :
    ∃ e', s'.resolveFrom name position h' = some (p, e') ∧ e.Kept e' := by
  fun_induction ScopeStack.resolveFrom s name position h with
  | case1 position h e₁ he₁ =>
    obtain ⟨rfl, rfl⟩ := Prod.mk.inj (Option.some.inj hres)
    obtain ⟨f', hf', -, -, hentries⟩ := hk.holds position _ (Array.getElem?_eq_getElem h)
    obtain ⟨e', he', hkept⟩ := hentries name e₁ he₁
    rw [Array.getElem?_eq_getElem h'] at hf'
    obtain rfl := Option.some.inj hf'
    refine ⟨e', ?_, hkept⟩
    rw [ScopeStack.resolveFrom, he']
  | case2 position h hnone hparent => cases hres
  | case3 position h hnone parent hparent ih =>
    obtain ⟨f', hf', -, hparent', -⟩ := hk.holds position _ (Array.getElem?_eq_getElem h)
    have hnone' : f'.entries.get? name = none := by
      by_contra hsome
      have htop := hk.fresh position _ f' name (Array.getElem?_eq_getElem h) hf' hnone hsome
      subst htop
      exact hsome (hold _ f' (Array.getElem?_eq_getElem h) hf' hnone)
    rw [Array.getElem?_eq_getElem h'] at hf'
    obtain rfl := Option.some.inj hf'
    obtain ⟨e', he', hkept⟩ := ih (Nat.lt_trans (s.below position h parent hparent) h') hres
    refine ⟨e', ?_, hkept⟩
    rw [ScopeStack.resolveFrom, hnone']
    simp only
    split
    · next hroot =>
      rw [hparent', hparent] at hroot
      cases hroot
    · next parent' hsome =>
      rw [hparent', hparent] at hsome
      obtain rfl := Option.some.inj hsome
      exact he'

/-- A name that is bound in the innermost frame resolves to that binding. -/
theorem resolve_of_findLocal (hlocal : s.findLocal name = some e) :
    s.resolve name = some (s.top, e) := by
  have hlt := s.top_lt
  rw [resolve, ScopeStack.resolveFrom, show s.frames[s.top].entries.get? name = some e from hlocal]

/-- **Looking a name up again** after frames of the same outline have kept their bindings: it resolves
to the same binding, unless that one has been hidden since. -/
theorem Keeps.resolve (hk : s.Keeps s') (ho : s'.outline = s.outline)
    (hres : s.resolve name = some (p, e)) :
    (∃ e', s'.resolve name = some (p, e') ∧ e.Kept e' ∧ ∀ f, ¬ s'.Hides name p f) ∨
    ∃ f, s'.Hides name p f ∧ s'.resolve name = some (s'.top, f) := by
  have htop := top_eq_of_outline ho
  have hlt := s.top_lt
  have hlt' := s'.top_lt
  have hagain : (∀ f f' : Frame, s.frames[s.top]? = some f → s'.frames[s.top]? = some f' →
      f.entries.get? name = none → f'.entries.get? name = none) →
      ∃ e', s'.resolve name = some (p, e') ∧ e.Kept e' := by
    intro hold
    have hfrom := hk.resolveFrom hold hlt (htop ▸ hlt') hres
    simpa only [ScopeStack.resolve, htop] using hfrom
  by_cases hp : p = s.top
  · -- the name was bound in the innermost frame before, so it is not new there
    obtain ⟨frame, hframe, he⟩ := get?_of_resolveFrom hres
    obtain ⟨e', he', hkept⟩ := hagain fun f f' hf hf' hnone => by
      rw [hp] at hframe
      obtain rfl := Option.some.inj (hframe.symm.trans hf)
      rw [he] at hnone
      cases hnone
    exact .inl ⟨e', he', hkept, fun f hf => hf.1 (hp.trans htop.symm)⟩
  · cases hlocal : s'.findLocal name with
    | some f => exact .inr ⟨f, ⟨fun h => hp (h.trans htop), hlocal⟩, resolve_of_findLocal hlocal⟩
    | none =>
      obtain ⟨e', he', hkept⟩ := hagain fun f f' _ hf' _ => by
        rw [← htop, Array.getElem?_eq_getElem hlt'] at hf'
        obtain rfl := Option.some.inj hf'
        exact hlocal
      refine .inl ⟨e', he', hkept, fun f hf => ?_⟩
      rw [hf.2] at hlocal
      cases hlocal

/-- What an assignment does, by the binding that its name resolves to. -/
theorem assign_of_mutable (hres : s.resolve name = some (p, e)) (he : e.mutability = .mutable)
    (v : Ref) :
    s.assign name v = (.ok (), s.modifyEntries p fun entries => entries.setValue name v) := by
  rw [assign, hres]
  simp [he, Mutability.isMutable]

theorem assign_of_immutable (hres : s.resolve name = some (p, e)) (he : e.mutability = .immutable)
    (v : Ref) : s.assign name v = (.error .immutable, s) := by
  rw [assign, hres]
  simp [he, Mutability.isMutable]

/-- The binding that was assigned. -/
theorem get?_of_assigned (hres : s.resolve name = some (p, e)) (v : Ref) :
    ∃ frame : Frame,
      (s.modifyEntries p fun entries => entries.setValue name v).frames[p]? = some frame ∧
      frame.entries.get? name = some { e with value := v } := by
  obtain ⟨frame, hframe, he⟩ := get?_of_resolveFrom hres
  refine ⟨{ frame with entries := frame.entries.setValue name v }, ?_, ?_⟩
  · rw [modifyEntries, Array.getElem?_modify, if_pos rfl, hframe]
    rfl
  · rw [Bindings.get?_setValue, if_pos rfl, he]
    rfl

end ScopeStack

/-! ## 2. Assignments -/

namespace Machine

variable {m : Machine} {name : Name} {node value : Node}

/-- The computation of an assignment. -/
theorem perform_assign (hkind : node.kind = .assign name) (hvalue : node.child? 0 = some value) :
    (Request.eval node).perform m =
      ((Effect.evalAssign name value m).bind fun v m => .done m (.value v)).attempt.bind
        fun outcome m =>
          match outcome with
          | .ok turn => .done m turn
          | .error kind => .done (m.report kind node.location) (.value .nil) := by
  have hnode : Effect.evalNode node m =
      (Effect.evalAssign name value m).bind fun v m => .done m (.value v) := by
    simp only [Effect.evalNode, hkind, Effect.child, hvalue]
    rfl
  change (Effect.evalNode node m).attempt.bind _ = _
  rw [hnode]
  congr 1
  funext outcome m
  cases outcome with
  | ok turn => rfl
  | error kind => rfl

/-- An assignment that is refused from the start reports its fault and does nothing else. -/
theorem evaluate_assign_refused (hkind : node.kind = .assign name)
    (hvalue : node.child? 0 = some value) {why : AssignRefusal}
    (hcheck : m.scopes.checkAssign name = .error why) (n : Nat) :
    m.evaluate (n + 1) node =
      .value (m.report (Effect.assignFault m name why) node.location) .nil := by
  have hassign : Effect.evalAssign name value m = .fault m (Effect.assignFault m name why) := by
    simp only [Effect.evalAssign, Bind.bind, Effect.bind, Effect.readOrRaise, hcheck, Step.bind]
  have hperform : (Request.eval node).perform m =
      .done (m.report (Effect.assignFault m name why) node.location) (.value .nil) := by
    rw [perform_assign hkind hvalue, hassign]
    rfl
  rw [Machine.evaluate_eq, Machine.start, hperform]
  rfl

/-- An assignment that is accepted at first asks for its value, and stores it. -/
theorem perform_assign_accepted (hkind : node.kind = .assign name)
    (hvalue : node.child? 0 = some value) (hcheck : m.scopes.checkAssign name = .ok ()) :
    ∃ resume : Continuation, (Request.eval node).perform m = .call m (.eval value) resume ∧
      (∀ m₁ v scopes, m₁.scopes.assign name v = (.ok (), scopes) →
        resume m₁ (.ok v) = .done { m₁ with scopes } (.value v)) ∧
      ∀ m₁ v why, m₁.scopes.assign name v = (.error why, m₁.scopes) →
        resume m₁ (.ok v) =
          .done (m₁.report (Effect.assignFault m₁ name why) node.location) (.value .nil) := by
  have hassign : Effect.evalAssign name value m =
      (Effect.eval value >>= fun v => Effect.assignName name v >>= fun _ => pure v) m := by
    simp only [Effect.evalAssign, Bind.bind, Effect.bind, Effect.readOrRaise, hcheck, Step.bind]
  refine ⟨_, by rw [perform_assign hkind hvalue, hassign]; rfl, fun m₁ v scopes h => ?_,
    fun m₁ v why h => ?_⟩
  · simp only [Step.bind, Bind.bind, Effect.bind, Effect.assignName, h]
    rfl
  · simp only [Step.bind, Bind.bind, Effect.bind, Effect.assignName, h]
    rfl

/-- **Assignment.**  A name that is not bound, or whose nearest binding is immutable, is a fault: the
value is not computed, and nothing changes but the fault log and the console.  Otherwise the value is
computed, whatever it does, and then that binding and no other has the value, which is also the value
of the assignment, unless the computation has hidden the binding: it has declared the same name in
the innermost frame, in front of it.  Then it is the new binding that is assigned, or reported as
immutable. -/
theorem evaluate_assign (m : Machine) {name : Name} {node value : Node}
    (hkind : node.kind = .assign name) (hvalue : node.child? 0 = some value) :
    (m.scopes.resolve name = none → ∀ n, m.evaluate (n + 1) node =
      .value (m.report (.undefinedSymbol (m.text name)) node.location) .nil) ∧
    ∀ p e, m.scopes.resolve name = some (p, e) →
      (e.mutability = .immutable → ∀ n, m.evaluate (n + 1) node =
        .value (m.report (.immutableBinding (m.text name)) node.location) .nil) ∧
      (e.mutability = .mutable → ∀ n m₁ v, m.evaluate n value = .value m₁ v →
        ((∀ f, ¬ m₁.scopes.Hides name p f) → ∃ scopes,
          (∀ extra, m.evaluate (n + 2 + extra) node = .value { m₁ with scopes } v) ∧
          scopes = m₁.scopes.modifyEntries p (fun entries => entries.setValue name v) ∧
          ∃ frame : Frame, scopes.frames[p]? = some frame ∧
            frame.entries.get? name = some { e with value := v }) ∧
        (∀ f, m₁.scopes.Hides name p f → f.mutability = .mutable → ∀ extra,
          m.evaluate (n + 2 + extra) node = .value { m₁ with
            scopes := m₁.scopes.modifyEntries m₁.scopes.top fun entries =>
              entries.setValue name v } v) ∧
        (∀ f, m₁.scopes.Hides name p f → f.mutability = .immutable → ∀ extra,
          m.evaluate (n + 2 + extra) node =
            .value (m₁.report (.immutableBinding (m₁.text name)) node.location) .nil)) := by
  refine ⟨fun hnone n => ?_, fun p e hres => ⟨fun he n => ?_, fun he n m₁ v hrun => ?_⟩⟩
  · have hcheck : m.scopes.checkAssign name = .error .undefined := by
      simp [ScopeStack.checkAssign, ScopeStack.findNearest, hnone]
    exact evaluate_assign_refused hkind hvalue hcheck n
  · have hcheck : m.scopes.checkAssign name = .error .immutable := by
      simp [ScopeStack.checkAssign, ScopeStack.findNearest, hres, he, Mutability.isMutable]
    exact evaluate_assign_refused hkind hvalue hcheck n
  · have hcheck : m.scopes.checkAssign name = .ok () := by
      simp [ScopeStack.checkAssign, ScopeStack.findNearest, hres, he, Mutability.isMutable]
    obtain ⟨resume, hperform, hstored, hrefused⟩ := perform_assign_accepted hkind hvalue hcheck
    have hkeeps : m.scopes.Keeps m₁.scopes := by
      have := (run_passes (.eval value) m n).keeps
      rwa [show m.run n (.eval value) = .value m₁ v from hrun] at this
    have hbalanced : m.Balanced m₁ := by
      have := (run_balances (.eval value) m n).2
      rwa [show m.run n (.eval value) = .value m₁ v from hrun] at this
    refine ⟨fun hseen => ?_, fun f hf hmutable => ?_, fun f hf himmutable => ?_⟩
    · rcases hkeeps.resolve hbalanced.outline_eq hres with ⟨e', hres', hkept, -⟩ | ⟨f, hf, -⟩
      swap
      · exact absurd hf (hseen f)
      have he' : e'.mutability = .mutable := hkept.mutability_eq.trans he
      have hsame : ({ e' with value := v } : Entry) = { e with value := v } := by
        simp [hkept.mutability_eq, hkept.location_eq]
      refine ⟨_, evaluate_of_answer hperform hrun
        (hstored m₁ v _ (ScopeStack.assign_of_mutable hres' he' v)), rfl, ?_⟩
      rw [← hsame]
      exact ScopeStack.get?_of_assigned hres' v
    · have hres' := ScopeStack.resolve_of_findLocal hf.2
      exact evaluate_of_answer hperform hrun
        (hstored m₁ v _ (ScopeStack.assign_of_mutable hres' hmutable v))
    · have hres' := ScopeStack.resolve_of_findLocal hf.2
      exact evaluate_of_answer hperform hrun
        (hrefused m₁ v .immutable (ScopeStack.assign_of_immutable hres' himmutable v))

/-- A machine in a block, with a mutable binding of the name number 1 to nil outside of it. -/
def blockMachine : Machine :=
  let m := ((bare ⟨⟨0, true⟩, some 5, .terminal, false, .standard⟩ .initial).bindGlobal ⟨1⟩ .nil .mutable).2
  { m with scopes := m.scopes.push }

/-- The declaration of a constant of that name, as the value to assign. -/
def shadowing : Node :=
  ⟨.declare ⟨1⟩ .immutable, [⟨.literal (.bool true), [], .builtin⟩], .builtin⟩

/-- An assignment of that value to that name. -/
def shadowedAssign : Node := ⟨.assign ⟨1⟩, [shadowing], .builtin⟩

/-- The name can be assigned when the assignment begins, and nevertheless the assignment is refused in
the end: its value has been computed, and has hidden the binding by a constant. -/
theorem evaluate_assign_shadowed :
    blockMachine.scopes.resolve ⟨1⟩ = some (0, ⟨.nil, .mutable, .builtin⟩) ∧
    ∃ m₁, blockMachine.evaluate 10 shadowing = .value m₁ (.bool true) ∧
      m₁.scopes.Hides ⟨1⟩ 0 ⟨.bool true, .immutable, .builtin⟩ ∧
      blockMachine.evaluate 12 shadowedAssign =
        .value (m₁.report (.immutableBinding (m₁.text ⟨1⟩)) .builtin) .nil := by
  have hglobal : ∀ h, blockMachine.scopes.resolveFrom ⟨1⟩ 0 h =
      some (0, ⟨.nil, .mutable, .builtin⟩) := by
    intro h
    rw [ScopeStack.resolveFrom]
    rfl
  have hres : blockMachine.scopes.resolve ⟨1⟩ = some (0, ⟨.nil, .mutable, .builtin⟩) := by
    rw [ScopeStack.resolve, ScopeStack.resolveFrom]
    exact hglobal _
  obtain ⟨m₁, hrun, hhides⟩ : ∃ m₁, blockMachine.evaluate 10 shadowing = .value m₁ (.bool true) ∧
      m₁.scopes.Hides ⟨1⟩ 0 ⟨.bool true, .immutable, .builtin⟩ := ⟨_, rfl, by decide, rfl⟩
  have hassign := (@evaluate_assign blockMachine ⟨1⟩ shadowedAssign shadowing rfl rfl).2 0 _ hres
  exact ⟨hres, m₁, hrun, hhides, (hassign.2 rfl 10 m₁ _ hrun).2.2 _ hhides rfl 0⟩

end Machine

end ScriptMachine
