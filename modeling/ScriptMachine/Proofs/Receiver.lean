/-
# What the receiver's name stands for

A method is a user function whose first parameter is the receiver.  It is a parameter like the others:
it counts among the arguments that a call has to supply, and it takes part in the division of the
arguments between the parameters and the vector of a variadic function.

In a variadic method without parameters of its own the receiver is the last parameter, so it is the one
that gathers: its name then stands for a new vector of copies of the receiver and all arguments.  In
every other method it stands for a copy of the receiver.

* `UserFunction.get?_bindings`: the first parameter is bound to the first value;
* `Machine.BindsSelf`, `Machine.Passed.bindsSelf`: what the values for the parameters say about the
  receiver's name;
* `Machine.method_binds_self`: what the name stands for when the body of a method starts.
-/
import ScriptMachine.Proofs.Copies.Arguments
import ScriptMachine.Proofs.PlainCalls

namespace ScriptMachine

open Effect

/-! ## 1. The name of the receiver -/

/-- The receiver's name is that of a text. -/
theorem MethodNames.get?_self_intern (names : NameTable) :
    (MethodNames.intern names).2.get? "self" = some (MethodNames.intern names).1.self := by
  have hall : List.Forall₂ (fun text name => (MethodNames.intern names).2.get? text = some name) texts
    (MethodNames.intern names).1.toList := (names.forall₂_internAll texts).2
  simp only [texts, toList, List.forall₂_cons] at hall
  exact hall.2.2.2.2.2.2.2.2.2.2.2.2.2.2.2.2.2.2.2.2.1

namespace Machine

variable {m m' : Machine}

/-- **The receiver has a name** on every machine that comes about. -/
theorem Arises.isEmpty_self (h : m.Arises) : m.methods.self.isEmpty = false := by
  obtain ⟨settings, texts, m₀, hleads, hpasses⟩ := h
  generalize (NameTable.initial.internAll texts).2 = names at hleads
  have hself := NameTable.get?_eq_some_iff.1 (MethodNames.get?_self_intern (TypeTable.initial names).2)
  have hmethods : m.methods = (MethodNames.intern (TypeTable.initial names).2).1 := by
    have hinstall := (kept_installMethods NativeSpec.installed (bare settings names)).2.2.1
    rw [← withMethods_eq] at hinstall
    rw [(hleads.develops.trans hpasses.develops).methods_eq,
      (Furnishes.boot settings names).methods_eq, hinstall]
    rfl
  rw [hmethods]
  exact NameTable.isEmpty_eq_false hself (by decide)

end Machine

/-! ## 2. The first parameter -/

/-- Bindings of other names do not matter. -/
theorem Bindings.get?_append {b c : Bindings} {name : Name} (h : ∀ x ∈ b, x.1 ≠ name) :
    Bindings.get? (b ++ c) name = c.get? name := by
  induction b with
  | nil => rfl
  | cons x b ih =>
    rw [List.cons_append, Bindings.get?, if_neg (h x List.mem_cons_self)]
    exact ih fun y hy => h y (List.mem_cons_of_mem _ hy)

/-- **The first parameter** of a function is bound to the first value. -/
theorem UserFunction.get?_bindings {f : UserFunction} {name : Name} {rest : List Name}
    (hparams : f.params = name :: rest) (hnew : name ∉ rest) (value : Ref) (values : List Ref) :
    (f.bindings (value :: values)).get? name =
      some ⟨value, .mutable, f.routine.body.location⟩ := by
  rw [bindings, hparams, List.zipWith_cons_cons, List.reverse_cons, Bindings.get?_append]
  · simp [Bindings.get?]
  · intro x hx
    obtain ⟨i, hi, rfl⟩ := List.getElem_of_mem (List.mem_reverse.1 hx)
    rw [List.getElem_zipWith]
    exact fun heq => hnew (heq ▸ List.getElem_mem _)

namespace Machine

variable {m m' : Machine} {routine : FunctionDef} {scope : ScopeId} {receiver : Ref}
  {args : List Ref}

/-! ## 3. Methods -/

/-- The function that the declaration of a method installs. -/
def methodOf (m : Machine) (routine : FunctionDef) (scope : ScopeId) : UserFunction :=
  ⟨routine, scope, some m.methods.self⟩

/-- **A declaration installs a method**: the type has it under its name from then on. -/
theorem evalMethod_installs {typeName : Name} {place : Location} {r : Ref}
    (h : evalMethod typeName routine place m = .done m' r) :
    ∃ t, m.types.find typeName = some t ∧ m'.types.ownMethodOf routine.name t =
      some ⟨.user (m.methodOf routine m.scopes.current), place⟩ := by
  cases hfind : m.types.find typeName with
  | none =>
    simp only [evalMethod, bind, Effect.bind, Effect.read, Step.bind, hfind] at h
    cases h
  | some t =>
    simp only [evalMethod, bind, Effect.bind, Effect.read, changeTypes, Step.bind, hfind] at h
    generalize hinsert : m.types.insertMethod t _ place = inserted at h
    obtain ⟨answer, types⟩ := inserted
    cases answer with
    | error why => cases h
    | ok _ =>
      cases h
      exact ⟨t, rfl, (TypeTable.ownMethodOf_insertMethod hinsert routine.name t).trans
        (if_pos ⟨rfl, rfl⟩)⟩

/-! ## 4. Where the receiver goes -/

/-- What the receiver's name stands for in the innermost frame of `m'`, if a method is called on `m`: a
new vector of copies of the receiver and all arguments, if the method is variadic and has no parameters
of its own, and a copy of the receiver otherwise. -/
def BindsSelf (m : Machine) (routine : FunctionDef) (receiver : Ref) (args : List Ref)
    (m' : Machine) : Prop :=
  ∃ value, m'.scopes.findLocal m.methods.self = some ⟨value, .mutable, routine.body.location⟩ ∧
    if routine.variadic = true ∧ routine.params = [] then
      ∃ a copies, value = .heap a ∧ m'.heap.get? a = some (.ofVector copies.toArray) ∧
        List.Forall₂ (fun r c => ∃ g, m.heap.Copied r m'.heap c g) (receiver :: args) copies
    else ∃ g, m.heap.Copied receiver m'.heap value g

/-- **The value of the receiver's name** is the first of the values for the parameters. -/
theorem Passed.bindsSelf {values : List Ref}
    (hpassed : Passed m.heap (m.methodOf routine scope) (receiver :: args) m'.heap values)
    (hself : m.methods.self ∉ routine.params) {frames : Array Frame} {id : ScopeId}
    {parent : Option Nat} (hframes : m'.scopes.frames =
      frames.push ⟨id, parent, (m.methodOf routine scope).bindings values⟩) :
    m.BindsSelf routine receiver args m' := by
  have hlocal : m'.scopes.findLocal m.methods.self =
      ((m.methodOf routine scope).bindings values).get? m.methods.self := by
    simp [ScopeStack.findLocal, ScopeStack.top, ScopeStack.depth, hframes]
  have hfirst : ∀ value rest, values = value :: rest →
      m'.scopes.findLocal m.methods.self = some ⟨value, .mutable, routine.body.location⟩ := by
    rintro value rest rfl
    have hparams : (m.methodOf routine scope).params = m.methods.self :: routine.params := rfl
    rw [hlocal, UserFunction.get?_bindings hparams hself]
    rfl
  obtain ⟨copies, hcopies, hvalues⟩ := hpassed.copies
  obtain ⟨c, rest, hcopy, hrest, rfl⟩ := List.forall₂_cons_left_iff.1 hcopies
  by_cases hvar : routine.variadic = true
  · have hrequired : (m.methodOf routine scope).required = routine.params.length := by
      simp [UserFunction.required, UserFunction.paramCount, UserFunction.params, methodOf, hvar]
    rw [hrequired, if_pos (show (m.methodOf routine scope).routine.variadic = true from hvar)]
      at hvalues
    obtain ⟨a, rfl, hget⟩ := hvalues
    cases hparams : routine.params with
    | nil =>
      -- the receiver is the last parameter as well
      rw [hparams] at hget
      refine ⟨.heap a, hfirst _ [] (by rw [hparams]; rfl), ?_⟩
      rw [if_pos ⟨hvar, hparams⟩]
      exact ⟨a, c :: rest, rfl, hget, hcopies⟩
    | cons name names =>
      refine ⟨c, hfirst _ _ (by rw [hparams, List.length_cons, List.take_succ_cons]; rfl), ?_⟩
      rw [if_neg (by simp [hparams])]
      exact hcopy
  · rw [if_neg (show ¬(m.methodOf routine scope).routine.variadic = true from hvar)] at hvalues
    subst hvalues
    refine ⟨c, hfirst _ _ rfl, ?_⟩
    rw [if_neg fun h => hvar h.1]
    exact hcopy

/-- **The start of a body**, whatever the scopes are: with room for the call there is a new frame that
binds the parameters, or the heap is full. -/
theorem enterUser_starts {f : UserFunction} (hw : m.heap.WellFormed) (hparams : f.params ≠ [])
    (hnodup : f.params.Nodup) (hnames : ∀ name ∈ f.params, name.isEmpty = false)
    (hkept : ∀ r ∈ args, m.Kept r) (haccepts : f.accepts args.length = true)
    (hroom : m.calls.Admits 1) (location : Location) :
    (∃ m' frames id parent values, enterUser f args location m =
        Step.leaveUser m.temps.size (evalStatements .nil f.routine.body.children m') ∧
      m'.scopes.frames = Array.push frames ⟨id, parent, f.bindings values⟩ ∧
      Passed m.heap f args m'.heap values) ∨
    Exhausts (m.heap.live + m.heap.sizeBelow args) (enterUser f args location m) := by
  obtain ⟨calls, hpush, -⟩ := hroom.exists_push ⟨f.routine.name, location⟩
  rw [enterUser_eq haccepts hpush]
  -- the call under way matters neither to the heap nor to the roots
  have hkept' : ∀ r ∈ args, ({ m with calls } : Machine).Kept r :=
    fun r hr => ⟨(hkept r hr).rooted, (hkept r hr).closed⟩
  rcases copyArgs_cases (m := { m with calls }) hw hkept' [] with
    ⟨m₁, copies, hcopies, haug₁, hlive₁, hcopied⟩ | ⟨m₁, hfull, hmax⟩
  swap
  · exact .inr ⟨m₁, by rw [hfull]; rfl, hmax⟩
  rcases arrange_cases haug₁ f hkept' hcopied hparams haccepts with
    ⟨m₂, values, harrange, -, hpassed⟩ | ⟨m₂, hfull, hmax, hbound⟩
  swap
  · refine .inr ⟨m₂, ?_, hmax, hbound.trans hlive₁⟩
    rw [hcopies, List.reverse_nil, List.nil_append, Step.bind, hfull]
    rfl
  obtain ⟨parent, hnew⟩ : ∃ parent, (m₂.scopes.pushFunction f.scope).frames =
    m₂.scopes.frames.push ⟨⟨m₂.scopes.next⟩, some parent, []⟩ := ⟨_, rfl⟩
  obtain ⟨scopes, hbound, -, hframe⟩ := bindParams_eq f.routine.body.location hpassed.length_eq hnodup
    hnames (m := { m₂ with scopes := m₂.scopes.pushFunction f.scope }) hnew fun _ _ => rfl
  refine .inl ⟨{ m₂ with scopes }, m₂.scopes.frames, ⟨m₂.scopes.next⟩, some parent, values,
    ?_, ?_, hpassed⟩
  · rw [hcopies, List.reverse_nil, List.nil_append, Step.bind, harrange, Step.bind, hbound]
    rfl
  · rw [hframe, List.append_nil]
    rfl

/-! ## 5. Methods that are called -/

/-- **What the receiver's name stands for.**  Take any machine that comes about and any routine whose
parameters have distinct names, none of them empty or the receiver's.  Declared as a method, at any
earlier time and in any scope, it is installed as a function with the receiver as first parameter, and
a call of it on a receiver asks for that function with the receiver as first argument.  If the call is
accepted and there is room for it, the body starts in a frame in which the receiver's name is bound to a
copy of the receiver, with one exception: in a variadic method without parameters it is bound to a new
vector of copies of the receiver and all arguments.  The only other end is a heap with all of its 2^32
slots in use. -/
theorem method_binds_self (hm : m.Arises) (routine : FunctionDef) (scope : ScopeId)
    (hdistinct : routine.params.Nodup)
    (hnames : ∀ name ∈ routine.params, name.isEmpty = false ∧ name ≠ m.methods.self)
    (receiver : Ref) (args : List Ref) (hkept : ∀ r ∈ receiver :: args, m.Kept r)
    (location : Location) :
    (∀ m₀ m₁ typeName place r, m₀.Develops m → evalMethod typeName routine place m₀ = .done m₁ r →
      ∃ t, m₀.types.find typeName = some t ∧ m₁.types.ownMethodOf routine.name t =
        some ⟨.user (m.methodOf routine m₀.scopes.current), place⟩) ∧
    (∀ method v found, m.resolve receiver = .ok v →
      m.types.lookupMethod (m.methodType v method) method = .ok found →
      callMethod receiver method args location m =
        call found.entry.callable (receiver :: args) location m) ∧
    ((m.methodOf routine scope).accepts (receiver :: args).length = true → m.calls.Admits 1 →
      (∃ m', enterUser (m.methodOf routine scope) (receiver :: args) location m =
          Step.leaveUser m.temps.size (evalStatements .nil routine.body.children m') ∧
        m.BindsSelf routine receiver args m') ∨
      Exhausts (m.heap.live + m.heap.sizeBelow (receiver :: args))
        (enterUser (m.methodOf routine scope) (receiver :: args) location m)) := by
  refine ⟨fun m₀ m₁ typeName place r hdevelops heval => ?_,
    fun method v found hv hfound => callMethod_eq hv hfound, fun haccepts hroom => ?_⟩
  · rw [methodOf, hdevelops.methods_eq]
    exact evalMethod_installs heval
  · have habsent : m.methods.self ∉ routine.params := fun hmem => (hnames _ hmem).2 rfl
    have hnodup : (m.methodOf routine scope).params.Nodup := List.nodup_cons.2 ⟨habsent, hdistinct⟩
    have hnamed : ∀ name ∈ (m.methodOf routine scope).params, name.isEmpty = false :=
      List.forall_mem_cons.2 ⟨hm.isEmpty_self, fun name hname => (hnames name hname).1⟩
    have hparams : (m.methodOf routine scope).params ≠ [] := List.cons_ne_nil _ _
    exact (enterUser_starts hm.regular.wellFormed hparams hnodup hnamed hkept haccepts hroom
      location).imp_left fun ⟨m', frames, id, parent, values, hstarts, hframes, hpassed⟩ =>
        ⟨m', hstarts, hpassed.bindsSelf habsent hframes⟩

/-- The machine on which the methods below are called. -/
def newMachine : Machine := boot .default (NameTable.initial.internAll []).2

/-- A variadic method with an empty body. -/
def gatherer (params : List Name) : FunctionDef := ⟨⟨40⟩, params, true, ⟨.block, [], .builtin⟩⟩

/-- Two variadic methods are called on `true`.  With a parameter of its own the receiver's name stands
for `true`, and without one for a vector that holds it. -/
theorem method_binds_self_variadic :
    (∃ m' a, enterUser (newMachine.methodOf (gatherer []) .global) [.bool true] .builtin newMachine =
        Step.leaveUser newMachine.temps.size (evalStatements .nil [] m') ∧
      m'.scopes.findLocal newMachine.methods.self = some ⟨.heap a, .mutable, .builtin⟩ ∧
      m'.heap.get? a = some (.ofVector #[.bool true])) ∧
    ∃ m', enterUser (newMachine.methodOf (gatherer [⟨41⟩]) .global) [.bool true] .builtin newMachine =
        Step.leaveUser newMachine.temps.size (evalStatements .nil [] m') ∧
      m'.scopes.findLocal newMachine.methods.self = some ⟨.bool true, .mutable, .builtin⟩ := by
  have hm : newMachine.Arises := ⟨.default, [], _, .refl, .refl _⟩
  obtain ⟨hself, hlive, hroom⟩ : newMachine.methods.self = ⟨32⟩ ∧ newMachine.heap.live = 28 ∧
      newMachine.calls.Admits 1 := by
    decide +kernel
  -- a singleton is on no heap, so nothing lies below it
  have hbelow : newMachine.heap.Below (.bool true) = ∅ :=
    Set.eq_empty_of_forall_notMem fun _ => Heap.not_below_of_singleton nofun
  have hkept : ∀ r ∈ [Ref.bool true], newMachine.Kept r := by
    simp only [List.mem_singleton, forall_eq]
    exact ⟨nofun, fun a ha => absurd ha (by simp [hbelow])⟩
  have hsmall : ¬Heap.maxSlots ≤
      newMachine.heap.live + newMachine.heap.sizeBelow [.bool true] := by
    simp [Heap.sizeBelow, hbelow, hlive, Heap.maxSlots]
  have hcopy : ∀ {h : Heap} {c : Ref} {g}, newMachine.heap.Copied (.bool true) h c g →
      c = .bool true := by
    intro h c g hcopied
    cases hcopied.whole
    rfl
  constructor
  · have hnames : ∀ name ∈ (gatherer []).params,
        name.isEmpty = false ∧ name ≠ newMachine.methods.self := List.forall_mem_nil _
    rcases (method_binds_self hm (gatherer []) .global .nil hnames (.bool true) [] hkept
      .builtin).2.2 rfl hroom with ⟨m', hstarts, value, hlocal, hvalue⟩ | ⟨_, -, -, hmax⟩
    · rw [if_pos ⟨rfl, rfl⟩] at hvalue
      obtain ⟨a, copies, rfl, hget, hcopies⟩ := hvalue
      obtain ⟨c, rest, ⟨g, hg⟩, hrest, rfl⟩ := List.forall₂_cons_left_iff.1 hcopies
      obtain rfl := List.forall₂_nil_left_iff.1 hrest
      rw [hcopy hg] at hget
      exact ⟨m', a, hstarts, hlocal, hget⟩
    · exact absurd hmax hsmall
  · have hnames : ∀ name ∈ (gatherer [⟨41⟩]).params,
        name.isEmpty = false ∧ name ≠ newMachine.methods.self := by
      rw [hself]
      decide
    rcases (method_binds_self hm (gatherer [⟨41⟩]) .global (List.nodup_singleton _) hnames (.bool true)
      [] hkept .builtin).2.2 rfl hroom with ⟨m', hstarts, value, hlocal, hvalue⟩ | ⟨_, -, -, hmax⟩
    · rw [if_neg (by simp [gatherer])] at hvalue
      obtain ⟨g, hg⟩ := hvalue
      rw [hcopy hg] at hlocal
      exact ⟨m', hstarts, hlocal⟩
    · exact absurd hmax hsmall

end Machine

end ScriptMachine
