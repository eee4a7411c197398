/-
# Bindings over evaluation

While a tree is evaluated, its code runs in many frames: blocks, bodies of functions whose parents
lie far below the top, methods.  All of it can assign outer bindings that are mutable.  None of it
can take a binding away, make it mutable, or change the value of one that is not; and a binding of a
new name goes into the frame on top, so that the only frame of the beginning that gets new names is
the one that was on top then.

* `ScopeStack.Holds`: the frames of a stack and their bindings are still there;
* `ScopeStack.Keeps`: and only the top frame got new names;
* `Machine.Passes.keeps`: so it is at every moment of a computation;
* `Machine.evaluate_keeps_bindings`: for evaluation, and for all that a host does over time.
-/
import ScriptMachine.Proofs.Balance
import ScriptMachine.Proofs.Conduct.Host

namespace ScriptMachine

/-! ## 1. Bindings of a frame -/

/-- A binding that is kept: as mutable as before, from the same place, and with the same value if it
is immutable. -/
structure Entry.Kept (e e' : Entry) : Prop where
  mutability_eq : e'.mutability = e.mutability
  location_eq : e'.location = e.location
  value_eq : e.mutability = .immutable → e'.value = e.value

theorem Entry.Kept.refl (e : Entry) : e.Kept e := ⟨rfl, rfl, fun _ => rfl⟩

theorem Entry.Kept.trans {e e' e'' : Entry} (h : e.Kept e') (h' : e'.Kept e'') : e.Kept e'' where
  mutability_eq := h'.mutability_eq.trans h.mutability_eq
  location_eq := h'.location_eq.trans h.location_eq
  value_eq := fun hi => (h'.value_eq (h.mutability_eq.trans hi)).trans (h.value_eq hi)

/-- An immutable binding that is kept is the same. -/
theorem Entry.Kept.eq {e e' : Entry} (h : e.Kept e') (hi : e.mutability = .immutable) : e' = e := by
  obtain ⟨value, mutability, location⟩ := e
  obtain ⟨value', mutability', location'⟩ := e'
  obtain rfl : mutability' = mutability := h.mutability_eq
  obtain rfl : location' = location := h.location_eq
  obtain rfl : value' = value := h.value_eq hi
  rfl

/-- The bindings of a frame are kept. -/
def Bindings.Kept (b b' : Bindings) : Prop :=
  ∀ name e, b.get? name = some e → ∃ e', b'.get? name = some e' ∧ e.Kept e'

theorem Bindings.Kept.refl (b : Bindings) : b.Kept b := fun _ e h => ⟨e, h, .refl e⟩

theorem Bindings.Kept.trans {b b' b'' : Bindings} (h : b.Kept b') (h' : b'.Kept b'') :
    b.Kept b'' := by
  intro name e he
  obtain ⟨e', he', hkept⟩ := h name e he
  obtain ⟨e'', he'', hkept'⟩ := h' name e' he'
  exact ⟨e'', he'', hkept.trans hkept'⟩

/-- A binding of a new name hides none. -/
theorem Bindings.Kept.cons {b : Bindings} {name : Name} (hnew : b.get? name = none) (entry : Entry) :
    b.Kept ((name, entry) :: b) := by
  intro name' e he
  refine ⟨e, ?_, .refl e⟩
  rw [Bindings.get?, if_neg ?_, he]
  rintro rfl
  rw [hnew] at he
  cases he

theorem Bindings.get?_setValue (b : Bindings) (name : Name) (v : Ref) (name' : Name) :
    (b.setValue name v).get? name' =
      if name' = name then (b.get? name').map fun e => { e with value := v } else b.get? name' := by
  induction b with
  | nil => simp [Bindings.setValue, Bindings.get?]
  | cons x rest ih =>
    obtain ⟨n, e⟩ := x
    by_cases hn : n = name
    · subst hn
      by_cases hname : n = name'
      · simp [Bindings.setValue, Bindings.get?, hname]
      · simp [Bindings.setValue, Bindings.get?, hname, Ne.symm hname]
    · by_cases hname : n = name'
      · subst hname
        simp [Bindings.setValue, Bindings.get?, hn]
      · simp [Bindings.setValue, Bindings.get?, hn, hname, ih]

/-- Another value for a binding that is mutable. -/
theorem Bindings.Kept.setValue {b : Bindings} {name : Name} {e : Entry} (he : b.get? name = some e)
    (hmutable : e.mutability.isMutable = true) (v : Ref) : b.Kept (b.setValue name v) := by
  intro name' e' he'
  rw [Bindings.get?_setValue]
  split
  · next hname =>
    subst hname
    obtain rfl : e = e' := Option.some.inj (he.symm.trans he')
    rw [he]
    refine ⟨_, rfl, rfl, rfl, fun hi => ?_⟩
    rw [hi] at hmutable
    cases hmutable
  · exact ⟨e', he', .refl e'⟩

/-! ## 2. Stacks that hold on to their bindings -/

namespace ScopeStack

variable {s s' s'' : ScopeStack}

/-- Every frame is still in its place, and holds every binding that it held. -/
def Holds (s s' : ScopeStack) : Prop :=
  ∀ (i : Nat) (f : Frame), s.frames[i]? = some f → ∃ f' : Frame, s'.frames[i]? = some f' ∧
    f'.id = f.id ∧ f'.parent = f.parent ∧ f.entries.Kept f'.entries

/-- Every frame holds its bindings, and new names are in the frame that was on top. -/
structure Keeps (s s' : ScopeStack) : Prop where
  holds : s.Holds s'
  fresh : ∀ (i : Nat) (f f' : Frame) (name : Name), s.frames[i]? = some f →
    s'.frames[i]? = some f' → f.entries.get? name = none → f'.entries.get? name ≠ none → i = s.top

theorem Holds.refl (s : ScopeStack) : s.Holds s := fun _ f h => ⟨f, h, rfl, rfl, .refl _⟩

theorem Holds.trans (h : s.Holds s') (h' : s'.Holds s'') : s.Holds s'' := by
  intro i f hf
  obtain ⟨f', hf', hid, hparent, hentries⟩ := h i f hf
  obtain ⟨f'', hf'', hid', hparent', hentries'⟩ := h' i f' hf'
  exact ⟨f'', hf'', hid'.trans hid, hparent'.trans hparent, hentries.trans hentries'⟩

theorem Holds.depth_le (h : s.Holds s') : s.depth ≤ s'.depth := by
  obtain ⟨f', hf', -⟩ := h s.top _ (Array.getElem?_eq_getElem s.top_lt)
  have hlt : s.top < s'.depth := (Array.getElem?_eq_some_iff.1 hf').1
  have hpos : 0 < s.depth := s.nonempty
  unfold top at hlt
  omega

theorem Keeps.refl (s : ScopeStack) : s.Keeps s where
  holds := .refl s
  fresh := by
    intro i f f' name hf hf' hnone hsome
    obtain rfl : f = f' := Option.some.inj (hf.symm.trans hf')
    exact (hsome hnone).elim

/-- A name that is new after two stretches came in one of them.  In the second one it went into the
frame on top by then, which is a frame of the beginning only if it was on top then. -/
theorem Keeps.trans (h : s.Keeps s') (h' : s'.Keeps s'') : s.Keeps s'' where
  holds := h.holds.trans h'.holds
  fresh := by
    intro i f f'' name hf hf'' hnone hsome
    obtain ⟨f', hf', -⟩ := h.holds i f hf
    by_cases hnone' : f'.entries.get? name = none
    · have htop : i = s'.top := h'.fresh i f' f'' name hf' hf'' hnone' hsome
      have hi : i < s.depth := (Array.getElem?_eq_some_iff.1 hf).1
      have hdepth := h.holds.depth_le
      unfold top at htop ⊢
      omega
    · exact h.fresh i f f' name hf hf' hnone hnone'

/-! ## 3. What keeps bindings -/

theorem keeps_pushAt (s : ScopeStack) {parent : Nat} (h : parent < s.frames.size) :
    s.Keeps (s.pushAt parent h) := by
  have hsame : ∀ (i : Nat) (f : Frame), s.frames[i]? = some f →
      (s.pushAt parent h).frames[i]? = some f := by
    intro i f hf
    have hlt := (Array.getElem?_eq_some_iff.1 hf).1
    rw [pushAt, Array.getElem?_push_lt hlt, ← Array.getElem?_eq_getElem, hf]
  refine ⟨fun i f hf => ⟨f, hsame i f hf, rfl, rfl, .refl _⟩,
    fun i f f' name hf hf' hnone hsome => ?_⟩
  obtain rfl : f = f' := Option.some.inj ((hsame i f hf).symm.trans hf')
  exact (hsome hnone).elim

/-- Leaving frames that were not there at the beginning. -/
theorem Keeps.keep (h : s.Keeps s') {depth : Nat} (hpos : 0 < depth) (hdepth : s.depth ≤ depth) :
    s.Keeps (s'.keep depth hpos) := by
  have hsame : ∀ (i : Nat) (f : Frame), s.frames[i]? = some f →
      (s'.keep depth hpos).frames[i]? = s'.frames[i]? := by
    intro i f hf
    have hlt : i < s.depth := (Array.getElem?_eq_some_iff.1 hf).1
    simp only [ScopeStack.keep, ← Array.getElem?_toList, Array.toList_shrink]
    rw [List.getElem?_take, if_pos (by omega)]
  refine ⟨fun i f hf => ?_, fun i f f' name hf hf' => ?_⟩
  · rw [hsame i f hf]
    exact h.holds i f hf
  · rw [hsame i f hf] at hf'
    exact h.fresh i f f' name hf hf'

theorem Keeps.unwindTo (h : s.Keeps s') : s.Keeps (s'.unwindTo s.depth) :=
  h.keep _ (Nat.le_max_right 1 s.depth)

theorem Keeps.pop (h : s.Keeps s') (hdepth : s.depth < s'.depth) : s.Keeps s'.pop := by
  have hpos : 0 < s.depth := s.nonempty
  unfold ScopeStack.pop
  rw [dif_pos (by omega)]
  exact h.keep _ (by omega)

/-- A change of the bindings of one frame that keeps them. -/
theorem holds_modifyEntries (s : ScopeStack) {position : Nat} {f : Bindings → Bindings}
    (hf : ∀ frame : Frame, s.frames[position]? = some frame →
      frame.entries.Kept (f frame.entries)) :
    s.Holds (s.modifyEntries position f) := by
  intro i frame hframe
  rw [modifyEntries, Array.getElem?_modify]
  split
  · next hi =>
    subst hi
    rw [hframe]
    exact ⟨_, rfl, rfl, rfl, hf frame hframe⟩
  · exact ⟨frame, hframe, rfl, rfl, .refl _⟩

/-- Names are new only in the frame whose bindings changed. -/
theorem fresh_modifyEntries (s : ScopeStack) {position : Nat} {f : Bindings → Bindings} {i : Nat}
    {frame frame' : Frame} {name : Name} (hframe : s.frames[i]? = some frame)
    (hframe' : (s.modifyEntries position f).frames[i]? = some frame')
    (hnone : frame.entries.get? name = none) (hsome : frame'.entries.get? name ≠ none) :
    i = position ∧ (f frame.entries).get? name ≠ none := by
  rw [modifyEntries, Array.getElem?_modify, hframe] at hframe'
  split at hframe'
  · next hi =>
    obtain rfl := Option.some.inj hframe'
    exact ⟨hi.symm, hsome⟩
  · obtain rfl := Option.some.inj hframe'
    exact (hsome hnone).elim

theorem holds_bindAt (s : ScopeStack) (position : Nat) (h : position < s.frames.size) (name : Name)
    (entry : Entry) : s.Holds (s.bindAt position h name entry).2 := by
  unfold bindAt
  split
  · exact .refl s
  · split
    · exact .refl s
    · next hnew =>
      refine s.holds_modifyEntries fun frame hframe => .cons ?_ entry
      rw [Array.getElem?_eq_getElem h] at hframe
      rw [← Option.some.inj hframe, hnew]

theorem keeps_bind (s : ScopeStack) (name : Name) (entry : Entry) :
    s.Keeps (s.bind name entry).2 := by
  refine ⟨s.holds_bindAt _ _ name entry, ?_⟩
  unfold bind bindAt
  split
  · exact (Keeps.refl s).fresh
  · split
    · exact (Keeps.refl s).fresh
    · exact fun i f f' name hf hf' hnone hsome => (s.fresh_modifyEntries hf hf' hnone hsome).1

/-- A binding that a name resolves to is in the frame that is told. -/
theorem get?_of_resolveFrom {name : Name} {position : Nat} {h : position < s.frames.size} {p : Nat}
    {e : Entry} (hres : s.resolveFrom name position h = some (p, e)) :
    ∃ frame : Frame, s.frames[p]? = some frame ∧ frame.entries.get? name = some e := by
  fun_induction ScopeStack.resolveFrom s name position h with
  | case1 position h e' he' =>
    obtain ⟨rfl, rfl⟩ := Prod.mk.inj (Option.some.inj hres)
    exact ⟨_, Array.getElem?_eq_getElem h, he'⟩
  | case2 position h hnone hparent => cases hres
  | case3 position h hnone parent hparent ih => exact ih hres

/-- An assignment changes the value of one binding, and that binding is mutable. -/
theorem keeps_assign (s : ScopeStack) (name : Name) (v : Ref) : s.Keeps (s.assign name v).2 := by
  unfold assign
  split
  · exact .refl s
  · next position e hres =>
    obtain ⟨frame, hframe, he⟩ := get?_of_resolveFrom hres
    split
    · next hmutable =>
      refine ⟨s.holds_modifyEntries fun frame' hframe' => ?_,
        fun i f f' name' hf hf' hnone hsome => ?_⟩
      · obtain rfl : frame = frame' := Option.some.inj (hframe.symm.trans hframe')
        exact .setValue he hmutable v
      · -- an assignment gives no new name
        have hnew := (s.fresh_modifyEntries hf hf' hnone hsome).2
        rw [Bindings.get?_setValue, hnone] at hnew
        simp at hnew
    · exact .refl s

end ScopeStack

/-! ## 4. Evaluation -/

namespace Machine

variable {m m' : Machine} {rooting : Bool}

theorem Act.keeps (h : m.Act m') : m.scopes.Keeps m'.scopes := by
  rcases h.parts with
    ⟨_, rfl⟩ | ⟨name, entry, rfl⟩ | ⟨name, v, rfl⟩ | ⟨_, rfl⟩ | ⟨_, _, rfl⟩ | ⟨_, rfl⟩
  · exact .refl _
  · exact m.scopes.keeps_bind name entry
  · exact m.scopes.keeps_assign name v
  · exact .refl _
  · exact .refl _
  · exact .refl _

/-- From the start of a computation to its end. -/
theorem Proceeds.keeps (h : m.Proceeds rooting m') : m.scopes.Keeps m'.scopes := by
  induction h with
  | refl m => exact .refl _
  | trans _ _ ih ih' => exact ih.trans ih'
  | act h => exact h.keeps
  | root m r =>
    cases r with
    | nil => exact .refl _
    | bool b => exact .refl _
    | heap a => exact .refl _
  | released _ ih => exact ih
  | @scope _ m m' parent h hinner ih =>
    -- the frame that was pushed is on top again, and goes
    have hdepth : m.scopes.depth < m'.scopes.depth := by
      rw [← ScopeStack.length_outline m'.scopes, hinner.settled.outline_eq,
        ScopeStack.length_outline]
      simp [ScopeStack.pushAt, ScopeStack.depth]
    exact ((m.scopes.keeps_pushAt h).trans ih).pop hdepth
  | call _ _ ih => exact ih
  | rendering _ ih => exact ih

/-- **At every moment** of a computation the frames of its beginning hold their bindings. -/
theorem Passes.keeps (h : m.Passes m') : m.scopes.Keeps m'.scopes := by
  induction h with
  | proceeds h => exact h.keeps
  | trans _ _ ih ih' => exact ih.trans ih'
  | scope m h => exact m.scopes.keeps_pushAt h
  | call _ => exact .refl _
  | rendering m => exact .refl _
  | unwound _ ih => exact ih.unwindTo

/-! ## 5. Hosts -/

theorem HostAct.holds (h : m.HostAct m') : m.scopes.Holds m'.scopes := by
  cases h with
  | names _ => exact .refl _
  | types _ => exact .refl _
  | @allocate v _ =>
    obtain ⟨heap, hheap⟩ := m.exists_heap_tryAllocate v
    rw [hheap]
    exact .refl _
  | bindGlobal name value mutability => exact m.scopes.holds_bindAt 0 _ name _
  | modules _ => exact .refl _

theorem Prepares.holds (h : m.Prepares m') : m.scopes.Holds m'.scopes := by
  induction h with
  | refl => exact .refl _
  | tail _ hact ih => exact ih.trans hact.holds

/-- What a host does over time takes no binding away. -/
theorem Leads.holds (h : m.Leads m') : m.scopes.Holds m'.scopes := by
  induction h with
  | refl => exact .refl _
  | tail _ hstep ih =>
    rcases hstep.passes_or_prepares with hpasses | hprepares
    · exact ih.trans hpasses.keeps.holds
    · exact ih.trans hprepares.holds

/-- **Evaluation keeps bindings.**  After the evaluation of any tree on any machine, and at every
moment of it, each frame that was there before holds every binding that it held, as mutable as it
was, from the same place, and with the same value if it is immutable; and a name that is new in such
a frame is in the frame that was on top.  Hence an immutable binding (a constant, a function, an
import, a builtin or a type) is the same for as long as its frame is there, whatever trees are
evaluated and whatever the host defines in between. -/
theorem evaluate_keeps_bindings (m : Machine) (n : Nat) (node : Node) :
    m.scopes.Keeps (m.evaluate n node).machine.scopes ∧
    ∀ m', m.Leads m' → ∀ (i : Nat) (f : Frame) (name : Name) (e : Entry),
      m.scopes.frames[i]? = some f → f.entries.get? name = some e → e.mutability = .immutable →
      ∃ f' : Frame, m'.scopes.frames[i]? = some f' ∧ f'.id = f.id ∧
        f'.entries.get? name = some e := by
  refine ⟨(run_passes (.eval node) m n).keeps, fun m' hleads i f name e hf he himmutable => ?_⟩
  obtain ⟨f', hf', hid, -, hentries⟩ := hleads.holds i f hf
  obtain ⟨e', he', hkept⟩ := hentries name e he
  rw [hkept.eq himmutable] at he'
  exact ⟨f', hf', hid, he'⟩

/-- A machine on which the name number 1 is bound to nil for good. -/
def constantMachine : Machine :=
  ((bare ⟨⟨0, true⟩, some 5, .terminal, false, .standard⟩ .initial).bindGlobal ⟨1⟩ .nil .immutable).2

/-- A program that assigns to that name, and then declares it again. -/
def overwriting : Node :=
  ⟨.program, [⟨.assign ⟨1⟩, [⟨.literal (.bool true), [], .builtin⟩], .builtin⟩,
    ⟨.declare ⟨1⟩ .mutable, [⟨.literal (.bool true), [], .builtin⟩], .builtin⟩], .builtin⟩

/-- The program leaves the binding as it was. -/
theorem evaluate_keeps_bindings_overwriting :
    ∃ f' : Frame, (constantMachine.evaluate 20 overwriting).machine.scopes.frames[0]? = some f' ∧
      f'.id = .global ∧ f'.entries.get? ⟨1⟩ = some ⟨.nil, .immutable, .builtin⟩ :=
  (evaluate_keeps_bindings constantMachine 20 overwriting).2 _
    (.single (.evaluate constantMachine 20 overwriting)) 0
    ⟨.global, none, [(⟨1⟩, ⟨.nil, .immutable, .builtin⟩)]⟩ ⟨1⟩ _ rfl rfl rfl

end Machine

end ScriptMachine
