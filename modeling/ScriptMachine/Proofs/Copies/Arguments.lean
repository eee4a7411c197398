/-
# How the body of a user function starts

A call of a user function copies its arguments one after the other, gathers what is left for a
variadic parameter in a new vector, and binds all of it in a new frame.  Each copy is made of new
values, as seen from the machine on which the call began: a later allocation leaves an earlier copy
alone (`Spares.copied`), and a later copy is new for an earlier machine too (`Augments.copied`).

* `Machine.copyArgs_cases`: copies of all arguments, in order;
* `Machine.arrange_cases`: the values for the parameters;
* `Machine.bindParams_eq`: the bindings of the new frame;
* `Machine.Arises.ordered`: the scopes of a machine that comes about are ordered, so that the frame of a
  function is found as long as it is there;
* `Machine.enterUser_passes_copies`: a call that is refused changes nothing, and one that is not
  starts its body on a machine that `Machine.Enters` describes.
-/
import ScriptMachine.Machine.Call
import ScriptMachine.Proofs.BuiltinTables
import ScriptMachine.Proofs.Copies.Isomorphism
import ScriptMachine.Proofs.Scopes

namespace ScriptMachine

open Effect

/-! ## 1. Copies one after the other -/

/-- What lies below a value is the value itself, or lies below one of its items. -/
theorem Heap.below_cases {h : Heap} {a b : Handle} {v : Value}
    (hv : h.get? a = some v) (hb : b ∈ h.Below (.heap a)) :
    b = a ∨ ∃ e ∈ v.payload.items, b ∈ h.Below e := by
  induction hb with
  | @root b w hmem _ => exact .inl (Ref.heap.inj (Ref.mem_handle?.1 hmem)).symm
  | @edge b b' w w' _ hw hmem hw' ih =>
    rcases ih with rfl | ⟨e, he, hbelow⟩
    · obtain rfl : w = v := Option.some.inj (hw.symm.trans hv)
      exact .inr ⟨_, Payload.mem_refs.1 hmem, Heap.below_heap hw'⟩
    · exact .inr ⟨e, he, Heap.below_edge hbelow hw hmem hw'⟩

/-- How many values lie below references, each of them counted on its own. -/
noncomputable def Heap.sizeBelow (h : Heap) (args : List Ref) : Nat :=
  (args.map fun r => (h.Below r).ncard).sum

namespace Machine

variable {α : Type} {m m' m'' : Machine} {r c : Ref} {f : Handle → Handle}

/-- A value that the roots reach, with all below it. -/
structure Kept (m : Machine) (r : Ref) : Prop where
  rooted : m.Rooted r
  closed : m.heap.ClosedBelow r

theorem Kept.spares (h : m.Kept r) (hs : m.Spares m') : m'.Kept r :=
  ⟨hs.rooted h.rooted, hs.closedBelow h.rooted h.closed⟩

/-- What a copy is made of resolves as the original does. -/
theorem closedBelow_of_copied (h : m.heap.Copied r m'.heap c f) (hcl : m.heap.ClosedBelow r) :
    m'.heap.ClosedBelow c := by
  intro b hb w hw b' hb'
  obtain ⟨a, ha, rfl⟩ := h.bijOn.surjOn hb
  obtain ⟨v, w', hv, hw', hvw⟩ := h.values a ha
  obtain rfl : w' = w := Option.some.inj (hw'.symm.trans hw)
  obtain ⟨e, he, hee⟩ := exists_mem_of_forall₂ hvw.payload.items.flip (Payload.mem_refs.1 hb')
  cases hee with
  | @heap a' _ heq =>
    have hmem : a' ∈ v.refs := Payload.mem_refs.2 he
    obtain ⟨x, hx⟩ := hcl a ha v hv a' hmem
    obtain ⟨y, hy⟩ := (h.bijOn.mapsTo (Heap.below_edge ha hv hmem hx)).resolves
    exact ⟨y, heq ▸ hy⟩

/-- A copy that is kept is still one on a later machine. -/
theorem Spares.copied (hs : m'.Spares m'') (h : m.heap.Copied r m'.heap c f) (hc : m'.Kept c)
    (hr : m.Kept r) (hm : m.Spares m'') : m.heap.Copied r m''.heap c f := by
  have hbelow := hs.below_eq hc.rooted hc.closed
  refine ⟨hbelow ▸ h.bijOn, h.whole, fun a ha => ?_, fun b hb => h.fresh b (hbelow ▸ hb),
    fun a ha => hm.get?_below hr.rooted ha⟩
  obtain ⟨v, w, hv, hw, hvw⟩ := h.values a ha
  exact ⟨v, w, hv, (hs.get?_below hc.rooted (h.bijOn.mapsTo ha)).trans hw, hvw⟩

/-- A copy of a value that was kept is one as seen from an earlier machine. -/
theorem Augments.copied (hm : m.Augments m') (h : m'.heap.Copied r m''.heap c f) (hr : m.Kept r)
    (hm' : m'.Augments m'') : m.heap.Copied r m''.heap c f := by
  have hbelow := hm.below_eq hr.rooted hr.closed
  have hsame : ∀ a ∈ m.heap.Below r, m'.heap.get? a = m.heap.get? a :=
    fun a ha => hm.get?_below hr.rooted ha
  refine ⟨hbelow ▸ h.bijOn, h.whole, fun a ha => ?_, fun b hb => ?_, fun a ha => ?_⟩
  · obtain ⟨v, w, hv, hw, hvw⟩ := h.values a (hbelow ▸ ha)
    exact ⟨v, w, (hsame a ha) ▸ hv, hw, hvw⟩
  · obtain ⟨w, hw⟩ := Heap.Reach.resolves hb
    exact hm.fresh hm' (h.fresh b hb) hw
  · exact (h.unchanged a (hbelow ▸ ha)).trans (hsame a ha)

/-- What is kept stays as large as it was. -/
theorem Spares.sizeBelow_eq (hs : m.Spares m') {args : List Ref} (hargs : ∀ r ∈ args, m.Kept r) :
    m'.heap.sizeBelow args = m.heap.sizeBelow args := by
  refine congrArg List.sum (List.map_congr_left fun r hr => ?_)
  rw [hs.below_eq (hargs r hr).rooted (hargs r hr).closed]

/-- One more temporary root. -/
theorem Augments.root (hw : m.heap.WellFormed) (r : Ref) : m.Augments (m.root r) := by
  have hheap := m.heap_root r
  refine ⟨⟨?_, ?_, hheap ▸ hw, fun a _ => by rw [hheap]⟩, fun a v hnone hv => ?_,
    fun a v hv hnone => ?_, fun i _ => by rw [hheap]⟩
  · cases r <;> rfl
  · cases r <;> simp [Machine.root]
  · rw [hheap, hnone] at hv
    cases hv
  · rw [hheap, hv] at hnone
    cases hnone

/-! ## 2. Arguments -/

/-- The copies of a list of arguments, all of them kept. -/
def ArgsCopied (m : Machine) (args : List Ref) (m' : Machine) (copies : List Ref) : Prop :=
  List.Forall₂ (fun r c => (∃ f, m.heap.Copied r m'.heap c f) ∧ m'.Kept c) args copies

/-- A computation that ends because all of the 2^32 slots of the heap are in use, which can only be
if there are no more of them than `n`. -/
def Exhausts (n : Nat) (s : Step α) : Prop :=
  ∃ m, s = .defect m (.heapExhausted .allocFailed) ∧ Heap.maxSlots ≤ m.heap.live ∧
    Heap.maxSlots ≤ n

/-- **Copies of all arguments, in order.**  The induction is on the arguments, with each copy seen
from the machine on which the first one began. -/
theorem copyArgs_cases (hw : m.heap.WellFormed) {args : List Ref} (hargs : ∀ r ∈ args, m.Kept r)
    (copies : List Ref) :
    (∃ m' copies', copyArgs args copies m = .done m' (copies.reverse ++ copies') ∧
      m.Augments m' ∧ m'.heap.live ≤ m.heap.live + m.heap.sizeBelow args ∧
      m.ArgsCopied args m' copies') ∨
    Exhausts (m.heap.live + m.heap.sizeBelow args) (copyArgs args copies m) := by
  induction args generalizing m copies with
  | nil => exact .inl ⟨m, [], by rw [List.append_nil]; rfl, .refl hw, Nat.le_add_right _ _, .nil⟩
  | cons arg args ih =>
    have harg := hargs arg List.mem_cons_self
    have hstep : copyArgs (arg :: args) copies m = (m.duplicate arg).bind fun copy m =>
      copyArgs args (copy :: copies) (m.root copy) := rfl
    have hsum : m.heap.sizeBelow (arg :: args) =
      (m.heap.Below arg).ncard + m.heap.sizeBelow args := List.sum_cons
    rw [hstep, hsum]
    rcases duplicate_cases hw harg.closed harg.rooted with
      ⟨m₁, c, f, hdone, haug₁, hroot, hlive₁, hcopied⟩ | ⟨m₁, hfull, hmax, hbound⟩
    swap
    · exact .inr ⟨m₁, by rw [hfull]; rfl, hmax, by omega⟩
    have hkept : m₁.Kept c := ⟨hroot, closedBelow_of_copied hcopied harg.closed⟩
    have hroots := Augments.root haug₁.wellFormed c
    have haug₂ := haug₁.trans hroots
    have hrest : ∀ r ∈ args, m.Kept r := fun r hr => hargs r (List.mem_cons_of_mem _ hr)
    have hsize := haug₂.toSpares.sizeBelow_eq hrest
    have hlive₂ : (m₁.root c).heap.live = m₁.heap.live := by rw [heap_root]
    rw [hdone, Step.bind]
    rcases ih haug₂.wellFormed (fun r hr => (hrest r hr).spares haug₂.toSpares) (c :: copies) with
      ⟨m', copies', hdone', haug', hlive', hcopies⟩ | ⟨m', hfull, hmax, hbound⟩
    · have hlate : m₁.Spares m' := hroots.toSpares.trans haug'.toSpares
      have haug := haug₂.trans haug'
      refine .inl ⟨m', c :: copies', by rw [hdone']; simp, haug, by omega,
        .cons ⟨⟨f, ?_⟩, ?_⟩ ?_⟩
      · exact hlate.copied hcopied hkept harg haug.toSpares
      · exact hkept.spares hlate
      · refine forall₂_transfer hcopies ?_
        rintro r hr d - ⟨⟨g, hg⟩, hd⟩
        exact ⟨⟨g, haug₂.copied hg (hrest r hr) haug'⟩, hd⟩
    · exact .inr ⟨m', hfull, hmax, by omega⟩

/-- The values that a call of `f` binds to its parameters: copies of the arguments, from the last
parameter on in one new vector if `f` is variadic. -/
structure Passed (h : Heap) (f : UserFunction) (args : List Ref) (h' : Heap) (values : List Ref) :
    Prop where
  length_eq : values.length = f.params.length
  copies : ∃ copies, List.Forall₂ (fun r c => ∃ g, h.Copied r h' c g) args copies ∧
    if f.routine.variadic = true then
      ∃ a, values = copies.take f.required ++ [.heap a] ∧
        h'.get? a = some (.ofVector (copies.drop f.required).toArray)
    else values = copies
  /-- Nothing below the new bindings was live when the call began. -/
  fresh : ∀ v ∈ values, ∀ b ∈ h'.Below v, h.get? b = none

/-- Nothing below a copy was live before. -/
theorem ArgsCopied.fresh {args copies : List Ref} (h : m.ArgsCopied args m' copies) {v : Ref}
    (hv : v ∈ copies) {b : Handle} (hb : b ∈ m'.heap.Below v) : m.heap.get? b = none := by
  obtain ⟨r, -, ⟨⟨g, hg⟩, -⟩⟩ := exists_mem_of_forall₂ h.flip hv
  exact hg.fresh b hb

/-- **The values for the parameters**, if the number of arguments is accepted. -/
theorem arrange_cases (hm : m.Augments m') (g : UserFunction) {args copies : List Ref}
    (hargs : ∀ r ∈ args, m.Kept r) (hcopies : m.ArgsCopied args m' copies) (hparams : g.params ≠ [])
    (haccepts : g.accepts args.length = true) :
    (∃ m'' values, arrange g copies m' = .done m'' values ∧ m'.Augments m'' ∧
      Passed m.heap g args m''.heap values) ∨ Exhausts m'.heap.live (arrange g copies m') := by
  have hlen : args.length = copies.length := hcopies.length_eq
  have hpos : 0 < g.params.length := List.length_pos_iff.2 hparams
  by_cases hvar : g.routine.variadic = true
  · have hreq : g.required ≤ copies.length := by
      simpa [UserFunction.accepts, hvar, hlen] using haccepts
    have hcount : g.required + 1 = g.params.length := by
      rw [UserFunction.required, if_pos hvar, UserFunction.paramCount]
      omega
    have hstep : arrange g copies m' =
        (allocate (.ofVector (copies.drop g.required).toArray) m').bind fun rest m =>
          .done (m.root rest) (copies.take g.required ++ [rest]) := by
      rw [arrange, if_pos hvar]
      change (demand _ _ m').bind _ = _
      rw [demand, if_pos (by simpa using hreq)]
      rfl
    rw [hstep, allocate]
    rcases tryAllocate_cases hm.wellFormed (.ofVector (copies.drop g.required).toArray) with
      ⟨a, m₁, hal⟩ | ⟨m₁, hfull, hmax, hlive⟩
    swap
    · exact .inr ⟨m₁, by rw [hfull]; rfl, hmax, hmax.trans hlive⟩
    have hget : (m₁.root (.heap a)).heap.get? a =
      some (.ofVector (copies.drop g.required).toArray) := hal.get?_eq
    have hspares : m.Spares (m₁.root (.heap a)) := (hm.trans hal.augments).toSpares
    have hcopies₁ : m.ArgsCopied args (m₁.root (.heap a)) copies := by
      refine forall₂_transfer hcopies fun r hr c _ hcopied => ?_
      obtain ⟨⟨f, hf⟩, hc⟩ := hcopied
      refine ⟨⟨f, ?_⟩, ?_⟩
      · exact hal.augments.toSpares.copied hf hc (hargs r hr) hspares
      · exact hc.spares hal.augments.toSpares
    refine .inl ⟨m₁.root (.heap a), copies.take g.required ++ [.heap a], by rw [hal.eq]; rfl,
      hal.augments, ?_, ⟨copies, hcopies₁.imp fun _ _ h => h.1, ?_⟩, fun v hv b hb => ?_⟩
    · rw [List.length_append, List.length_take, List.length_singleton, Nat.min_eq_left hreq, hcount]
    · rw [if_pos hvar]
      exact ⟨a, rfl, hget⟩
    · rcases List.mem_append.1 hv with hv | hv
      · exact hcopies₁.fresh (List.mem_of_mem_take hv) hb
      · -- the vector itself is new, and its items are copies
        obtain rfl := List.mem_singleton.1 hv
        rcases Heap.below_cases hget hb with rfl | ⟨e, he, hbelow⟩
        · exact hm.fresh hal.augments hal.fresh hget
        · refine hcopies₁.fresh (List.mem_of_mem_drop (i := g.required) ?_) hbelow
          simpa [Value.ofVector, Payload.items, Payload.elements?] using he
  · have hreq : args.length = g.params.length := by
      simpa [UserFunction.accepts, UserFunction.required, UserFunction.paramCount, hvar]
        using haccepts
    have hstep : arrange g copies m' = .done m' copies := by
      rw [arrange, if_neg hvar]
      rfl
    refine .inl ⟨m', copies, hstep, .refl hm.wellFormed, hlen.symm.trans hreq,
      ⟨copies, hcopies.imp fun _ _ h => h.1, ?_⟩, fun v hv b hb => hcopies.fresh hv hb⟩
    rw [if_neg hvar]

end Machine

/-! ## 3. The new frame -/

/-- A binding added to the innermost frame. -/
theorem ScopeStack.bind_push {s : ScopeStack} {frames : Array Frame} {id : ScopeId}
    {parent : Option Nat} {entries : Bindings} (hs : s.frames = frames.push ⟨id, parent, entries⟩)
    {name : Name} (hname : name.isEmpty = false) (hnew : entries.get? name = none) (entry : Entry) :
    ∃ s', s.bind name entry = (.ok (), s') ∧
      s'.frames = frames.push ⟨id, parent, (name, entry) :: entries⟩ ∧ s'.next = s.next := by
  have htop : s.top = frames.size := by simp [ScopeStack.top, ScopeStack.depth, hs]
  have hlt := s.top_lt
  have hlocal : s.frames[s.top].entries.get? name = none := by
    simpa [hs, htop] using hnew
  refine ⟨s.modifyEntries s.top fun entries => (name, entry) :: entries, ?_, ?_, rfl⟩
  · rw [ScopeStack.bind, ScopeStack.bindAt, hname, hlocal]
    rfl
  · apply Array.ext_getElem?
    intro i
    rw [ScopeStack.modifyEntries, Array.getElem?_modify, hs, htop, Array.getElem?_push,
      Array.getElem?_push]
    by_cases hi : i = frames.size
    · simp [hi]
    · simp [hi, Ne.symm hi]

/-- The bindings of a frame in which a user function starts: its parameters, all of them mutable. -/
def UserFunction.bindings (f : UserFunction) (values : List Ref) : Bindings :=
  (List.zipWith (fun name value => (name, ⟨value, .mutable, f.routine.body.location⟩)) f.params
    values).reverse

namespace Machine

/-- **The bindings of the new frame**: distinct names are bound in order, each to its value. -/
theorem bindParams_eq (location : Location) {names : List Name} {values : List Ref}
    (hlen : values.length = names.length) (hnodup : names.Nodup)
    (hnames : ∀ name ∈ names, name.isEmpty = false) {m : Machine} {frames : Array Frame}
    {id : ScopeId} {parent : Option Nat} {entries : Bindings}
    (hs : m.scopes.frames = frames.push ⟨id, parent, entries⟩)
    (hnew : ∀ name ∈ names, entries.get? name = none) :
    ∃ s, bindParams location names values m = .done { m with scopes := s } () ∧
      s.next = m.scopes.next ∧
      s.frames = frames.push ⟨id, parent, (List.zipWith (fun name value =>
        (name, ⟨value, .mutable, location⟩)) names values).reverse ++ entries⟩ := by
  induction names generalizing values m entries with
  | nil => exact ⟨m.scopes, rfl, rfl, by simpa using hs⟩
  | cons name names ih =>
    obtain ⟨value, values, rfl⟩ := List.exists_cons_of_length_eq_add_one hlen
    obtain ⟨hname, hnodup'⟩ := List.nodup_cons.1 hnodup
    obtain ⟨s₁, hbind, hframes, hnext⟩ := ScopeStack.bind_push hs
      (hnames name List.mem_cons_self) (hnew name List.mem_cons_self) ⟨value, .mutable, location⟩
    have hstep : bindParams location (name :: names) (value :: values) m =
        bindParams location names values { m with scopes := s₁ } := by
      change (bindName name ⟨value, .mutable, location⟩ m).bind _ = _
      rw [bindName, hbind]
      rfl
    have hrest : ∀ n ∈ names, Bindings.get? ((name, ⟨value, .mutable, location⟩) :: entries) n =
        none := by
      intro n hn
      have hne : name ≠ n := by
        rintro rfl
        exact hname hn
      rw [Bindings.get?, if_neg hne]
      exact hnew n (List.mem_cons_of_mem _ hn)
    obtain ⟨s, hdone, hnext', hframes'⟩ := ih (by simpa using hlen) hnodup'
      (fun n hn => hnames n (List.mem_cons_of_mem _ hn)) (m := { m with scopes := s₁ }) hframes hrest
    refine ⟨s, hstep.trans hdone, hnext'.trans hnext, ?_⟩
    rw [hframes']
    simp

end Machine

/-! ## 4. Calls -/

/-- The end of a call of a user function, once its body has ended: the frame is left, the temporary
roots of the call are released, and the call is over. -/
def Step.leaveUser (mark : Nat) (body : Step Ref) : Step Ref :=
  ((body.onExit fun m => { m with scopes := m.scopes.pop }).onExit fun m =>
    m.releaseTo mark).attempt.bind fun outcome =>
      endCall >>= fun _ => readOrRaise fun _ => outcome

namespace Machine

/-- The body of `f` starts on the machine `m'` when it is called on the machine `m`: there is one
more call and one more frame, which binds the parameters and nothing else and continues the frame in
which `f` was defined, or the global frame if that one is gone. -/
structure Enters (m : Machine) (f : UserFunction) (args : List Ref) (location : Location)
    (m' : Machine) : Prop where
  parts : m' = { m with
    heap := m'.heap, temps := m'.temps, calls := m'.calls, scopes := m'.scopes }
  calls_eq : m'.calls.frames = m.calls.frames.push ⟨f.routine.name, location⟩
  frame : ∃ parent values,
    m'.scopes.frames = m.scopes.frames.push ⟨⟨m.scopes.next⟩, some parent, f.bindings values⟩ ∧
    (∀ (i : Nat) frame, m.scopes.frames[i]? = some frame → frame.id = f.scope → parent = i) ∧
    ((∀ frame ∈ m.scopes.frames, frame.id ≠ f.scope) → parent = 0) ∧
    Passed m.heap f args m'.heap values

variable {m : Machine} {f : UserFunction} {args : List Ref} {location : Location}

/-- **The scopes of a machine that comes about are ordered.**  All that happened to them since the
machine was new is that frames were entered and left, and if fewer than 2^32 - 1 were entered, the
order stands. -/
theorem Arises.ordered (h : m.Arises) : (∃ n, ScopeStack.initial.Reframes n m.scopes) ∧
    ∀ n < ScopeStack.maxPushes, ScopeStack.initial.Reframes n m.scopes → m.scopes.Ordered := by
  obtain ⟨settings, texts, m₀, hleads, hpasses⟩ := h
  have hboot := (prepares_boot settings (NameTable.initial.internAll texts).2).reframes
  obtain ⟨n, hn⟩ := hleads.reframes
  obtain ⟨n', hn'⟩ := hpasses.reframes
  exact ⟨⟨0 + n + n', (hboot.trans hn).trans hn'⟩, fun n hroom hpast => (hpast.ordered hroom).1⟩

/-- A frame that continues the frame of a function, wherever that is. -/
theorem pushFunction_frames {s : ScopeStack} (hs : s.Ordered) (scope : ScopeId) :
    ∃ parent, (s.pushFunction scope).frames = s.frames.push ⟨⟨s.next⟩, some parent, []⟩ ∧
      (∀ (i : Nat) frame, s.frames[i]? = some frame → frame.id = scope → parent = i) ∧
      ((∀ frame ∈ s.frames, frame.id ≠ scope) → parent = 0) := by
  refine ⟨_, rfl, fun i frame hi hid => ?_, fun hnone => ?_⟩
  · obtain ⟨hlt, rfl⟩ := Array.getElem?_eq_some_iff.1 hi
    rw [(hs.position?_eq_some_iff scope ⟨i, hlt⟩).2 hid]
    rfl
  · cases hp : s.position? scope with
    | none => rfl
    | some p =>
      have hid := (hs.position?_eq_some_iff scope p).1 hp
      exact absurd hid (hnone _ (Array.getElem_mem p.isLt))

/-- The start of a call that is accepted and for which there is room. -/
theorem enterUser_eq {calls : CallStack} (haccepts : f.accepts args.length = true)
    (hpush : m.calls.push ⟨f.routine.name, location⟩ = (.ok (), calls)) :
    enterUser f args location m =
      ((((copyArgs args [] { m with calls }).bind fun copies m => (arrange f copies m).bind
        fun values m => ((bindParams f.routine.body.location f.params values
          { m with scopes := m.scopes.pushFunction f.scope }).bind
            fun _ => evalStatements .nil f.routine.body.children).onExit fun m =>
              { m with scopes := m.scopes.pop }).onExit fun n =>
                n.releaseTo m.temps.size).attempt).bind fun outcome =>
                  endCall >>= fun _ => readOrRaise fun _ => outcome := by
  rw [enterUser, if_pos haccepts]
  change (beginCall ⟨f.routine.name, location⟩ m).bind _ = _
  rw [beginCall, hpush]
  rfl

/-- **A call of a user function passes copies of its arguments.**  If the number of arguments is not
accepted, or there is no room for another call, the call is a fault and changes nothing.  Otherwise
its body starts in one new frame, which binds the parameters and nothing else: each to a copy of its
argument, the last one of a variadic function to a new vector of the copies that are left.  Nothing
below these bindings was live before.  The only other end is a heap with all of its 2^32 slots in
use, which are then no more than what was live and copies of what lies below the arguments.

Every machine that comes about has a well-formed heap (`Arises.regular`) and ordered scopes
(`Arises.ordered`), and one that a host comes to has a closed heap (`Sound.closed`). -/
theorem enterUser_passes_copies (m : Machine) (hw : m.heap.WellFormed) (hcl : m.heap.Closed)
    (hscopes : m.scopes.Ordered) (f : UserFunction) (hparams : f.params ≠ [])
    (hnodup : f.params.Nodup) (hnames : ∀ name ∈ f.params, name.isEmpty = false) (args : List Ref)
    (hargs : ∀ r ∈ args, m.Rooted r) (location : Location) :
    (f.accepts args.length = false → enterUser f args location m =
      .fault m (.arityMismatch (m.text f.routine.name) f.required args.length)) ∧
    (f.accepts args.length = true → ∀ limit, m.calls.limit = some limit →
      limit ≤ m.calls.depth → enterUser f args location m = .fault m (.recursionLimit limit)) ∧
    (f.accepts args.length = true → (∀ limit, m.calls.limit = some limit →
      m.calls.depth < limit) →
      (∃ m', enterUser f args location m =
          Step.leaveUser m.temps.size (evalStatements .nil f.routine.body.children m') ∧
        m.Enters f args location m') ∨
      Exhausts (m.heap.live + m.heap.sizeBelow args) (enterUser f args location m)) := by
  refine ⟨fun hrefused => ?_, fun haccepts limit hlimit hfull => ?_, fun haccepts hroom => ?_⟩
  · rw [enterUser, hrefused]
    rfl
  · rw [enterUser, if_pos haccepts]
    change (beginCall ⟨f.routine.name, location⟩ m).bind _ = _
    rcases m.calls.push_cases ⟨f.routine.name, location⟩ with
      ⟨limit', hlimit', -, hpush⟩ | ⟨calls, hpush, hframes, hcalls⟩
    · obtain rfl : limit' = limit := Option.some.inj (hlimit'.symm.trans hlimit)
      rw [beginCall, hpush]
      rfl
    · have hdepth := calls.within limit (hcalls.trans hlimit)
      rw [hframes, Array.size_push] at hdepth
      exact absurd hfull (Nat.not_le.2 hdepth)
  · rcases m.calls.push_cases ⟨f.routine.name, location⟩ with
      ⟨limit, hlimit, hfull, -⟩ | ⟨calls, hpush, hframes, -⟩
    · exact absurd (hroom limit hlimit) (Nat.not_lt.2 hfull)
    rw [enterUser_eq haccepts hpush]
    -- the call under way matters neither to the heap nor to the roots
    have hkept : ∀ r ∈ args, ({ m with calls } : Machine).Kept r :=
      fun r hr => ⟨fun a ha => hargs r hr a ha, hcl.below r⟩
    rcases copyArgs_cases (m := { m with calls }) hw hkept [] with
      ⟨m₁, copies, hcopies, haug₁, hlive₁, hcopied⟩ | ⟨m₁, hfull, hmax⟩
    swap
    · exact .inr ⟨m₁, by rw [hfull]; rfl, hmax⟩
    rcases arrange_cases haug₁ f hkept hcopied hparams haccepts with
      ⟨m₂, values, harrange, haug₂, hpassed⟩ | ⟨m₂, hfull, hmax, hbound⟩
    swap
    · refine .inr ⟨m₂, ?_, hmax, hbound.trans hlive₁⟩
      rw [hcopies, List.reverse_nil, List.nil_append, Step.bind, hfull]
      rfl
    have hparts := (haug₁.trans haug₂).parts
    have hscopes₂ : m₂.scopes = m.scopes := by rw [hparts]
    obtain ⟨parent, hnew, hlive, hgone⟩ := pushFunction_frames hscopes f.scope
    obtain ⟨scopes, hbound, -, hframe⟩ := bindParams_eq f.routine.body.location hpassed.length_eq
      hnodup hnames (m := { m₂ with scopes := m₂.scopes.pushFunction f.scope })
      (by rw [hscopes₂]; exact hnew) fun _ _ => rfl
    refine .inl ⟨{ m₂ with scopes }, ?_, ?_, ?_, parent, values, ?_, hlive, hgone, hpassed⟩
    · rw [hcopies, List.reverse_nil, List.nil_append, Step.bind, harrange, Step.bind, hbound]
      rfl
    · rw [hparts]
    · rw [hparts]
      exact hframes
    · rw [hframe, List.append_nil]
      rfl

/-- A variadic function with two parameters and an empty body, defined in a frame that is gone. -/
def gathering : UserFunction :=
  ⟨⟨⟨3⟩, [⟨1⟩, ⟨2⟩], true, ⟨.block, [], .builtin⟩⟩, ⟨7⟩, none⟩

/-- The ring is passed three times: once to the first parameter and twice to the second. -/
theorem enterUser_passes_copies_gathering :
    ∃ m', enterUser gathering [.heap ⟨1, 0⟩, .heap ⟨1, 0⟩, .heap ⟨1, 0⟩] .builtin ofRing =
        Step.leaveUser 1 (evalStatements .nil [] m') ∧
      ofRing.Enters gathering [.heap ⟨1, 0⟩, .heap ⟨1, 0⟩, .heap ⟨1, 0⟩] .builtin m' := by
  have hstarts := (enterUser_passes_copies ofRing ring_wellFormed ring_closed .initial gathering
    (by decide) (by decide) (by decide) [.heap ⟨1, 0⟩, .heap ⟨1, 0⟩, .heap ⟨1, 0⟩]
    (by simpa using ofRing_rooted) .builtin).2.2 rfl nofun
  rcases hstarts with hstarts | ⟨m', -, -, hmax⟩
  · exact hstarts
  · have hcard : (ofRing.heap.Below (.heap ⟨1, 0⟩)).ncard ≤ ofRing.heap.live :=
      (Heap.WellFormed.finite_below ring_wellFormed _).2
    have hlive : ofRing.heap.live = 2 := rfl
    simp only [Heap.maxSlots, Heap.sizeBelow, List.map_cons, List.map_nil, List.sum_cons,
      List.sum_nil] at hmax
    omega

end Machine

end ScriptMachine
