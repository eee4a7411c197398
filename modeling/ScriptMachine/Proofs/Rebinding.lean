/-
# An assignment changes one value

The frames of a stack can bind one name many times over: in the frames that a look-up passes, in
those below the one where it stops, and in the frames of callers that it never sees.  An assignment
changes the value of the nearest binding and nothing else.  All look-ups go along the same parents
before and after it, so it is enough to follow one of them, from an arbitrary frame and for an
arbitrary name, and to see that it stops at the same frame (`ScopeStack.resolveFrom_setValueAt`).

* `ScopeStack.revalued`: a binding after the value of one binding was set;
* `ScopeStack.entryAt_setValueAt`, `ScopeStack.resolveFrom_setValueAt`: each binding of each frame,
  and each look-up from each frame;
* `ScopeStack.Rebound`: two stacks that differ in the value of one binding;
* `ScopeStack.assign_cases`: what an assignment can come to;
* `ScopeStack.assign_exact`: all of it, for every stack.
-/
import ScriptMachine.Proofs.Assignment
import ScriptMachine.Proofs.Scopes

namespace ScriptMachine

namespace ScopeStack

variable {s s' : ScopeStack} {name : Name} {p : Nat} {e : Entry} {v : Ref}

/-! ## 1. Setting one value -/

/-- The binding `e` of the name `n` in the frame at `q`, after the binding of `name` in the frame at
`p` got the value `v`. -/
def revalued (name : Name) (p : Nat) (v : Ref) (n : Name) (q : Nat) (e : Entry) : Entry :=
  if n = name ∧ q = p then { e with value := v } else e

theorem revalued_self : revalued name p v name p = fun e => { e with value := v } := by
  funext e
  exact if_pos ⟨rfl, rfl⟩

theorem revalued_of_ne {n : Name} {q : Nat} (h : n ≠ name ∨ q ≠ p) :
    revalued name p v n q = id := by
  funext e
  refine if_neg ?_
  rintro ⟨rfl, rfl⟩
  exact h.elim (· rfl) (· rfl)

/-- The stack in which the binding of `name` in the frame at `p` has the value `v`. -/
def setValueAt (s : ScopeStack) (name : Name) (p : Nat) (v : Ref) : ScopeStack :=
  s.modifyEntries p fun entries => entries.setValue name v

theorem getElem?_setValueAt (s : ScopeStack) (name : Name) (p : Nat) (v : Ref) (q : Nat) :
    (s.setValueAt name p v).frames[q]? = s.frames[q]?.map fun f =>
      { f with entries := if q = p then f.entries.setValue name v else f.entries } := by
  rw [setValueAt, modifyEntries, Array.getElem?_modify]
  by_cases hq : p = q
  · simp [hq]
  · cases s.frames[q]? with
    | none => simp [hq]
    | some f => simp [hq, Ne.symm hq]

/-- **Every binding of every frame** after one value was set. -/
theorem entryAt_setValueAt (s : ScopeStack) (name : Name) (p : Nat) (v : Ref) (n : Name) (q : Nat) :
    (s.setValueAt name p v).entryAt n q = (s.entryAt n q).map (revalued name p v n q) := by
  rw [entryAt, entryAt, getElem?_setValueAt]
  cases s.frames[q]? with
  | none => rfl
  | some f =>
    simp only [Option.map_some, Option.bind_some]
    by_cases hq : q = p
    · rw [if_pos hq, Bindings.get?_setValue]
      by_cases hn : n = name
      · rw [if_pos hn, hn, hq, revalued_self]
      · rw [if_neg hn, revalued_of_ne (.inl hn), Option.map_id_apply]
    · rw [if_neg hq, revalued_of_ne (.inr hq), Option.map_id_apply]

/-- **Every look-up from every frame** after one value was set: it stops where it stopped before.
The induction is on the way along the parents, which are the same. -/
theorem resolveFrom_setValueAt (s : ScopeStack) (name : Name) (p : Nat) (v : Ref) (n : Name)
    {q : Nat} (h : q < s.frames.size) (h' : q < (s.setValueAt name p v).frames.size) :
    (s.setValueAt name p v).resolveFrom n q h' =
      (s.resolveFrom n q h).map fun x => (x.1, revalued name p v n x.1 x.2) := by
  have hentries : ∀ (q : Nat) (h : q < s.frames.size)
      (h' : q < (s.setValueAt name p v).frames.size),
      (s.setValueAt name p v).frames[q].entries.get? n =
        (s.frames[q].entries.get? n).map (revalued name p v n q) := by
    intro q h h'
    have hentry := s.entryAt_setValueAt name p v n q
    rwa [entryAt, entryAt, Array.getElem?_eq_getElem h, Array.getElem?_eq_getElem h'] at hentry
  have hparents : ∀ (q : Nat) (h : q < s.frames.size)
      (h' : q < (s.setValueAt name p v).frames.size),
      (s.setValueAt name p v).frames[q].parent = s.frames[q].parent := by
    intro q h h'
    have hframe := s.getElem?_setValueAt name p v q
    rw [Array.getElem?_eq_getElem h, Array.getElem?_eq_getElem h'] at hframe
    rw [Option.some.inj hframe]
  fun_induction ScopeStack.resolveFrom s n q h with
  | case1 q h e he =>
    rw [resolveFrom, hentries q h h', he]
    rfl
  | case2 q h hnone hroot =>
    rw [resolveFrom, hentries q h h', hnone]
    simp only [Option.map_none]
    split
    · rfl
    · next parent hparent => simp [hparents q h h', hroot] at hparent
  | case3 q h hnone parent hparent ih =>
    rw [resolveFrom, hentries q h h', hnone]
    simp only [Option.map_none]
    split
    · next hroot => simp [hparents q h h', hparent] at hroot
    · next parent' hparent' =>
      obtain rfl : parent' = parent := by simpa [hparents q h h', hparent, eq_comm] using hparent'
      exact ih _

/-! ## 2. Stacks that differ in one value -/

/-- Two stacks that are the same but for the value of one binding: the binding `e` of `name` in the
frame at `p`, which has the value `v` in the second one. -/
structure Rebound (s s' : ScopeStack) (name : Name) (p : Nat) (e : Entry) (v : Ref) : Prop where
  /-- The frames are in the same order, with the same identities and parents. -/
  outline_eq : s'.outline = s.outline
  next_eq : s'.next = s.next
  /-- The binding has its mutability and its place, and the new value. -/
  entry : s.entryAt name p = some e ∧ s'.entryAt name p = some { e with value := v }
  /-- All other bindings of all frames are the same, those of the same name included. -/
  others : ∀ n q, n ≠ name ∨ q ≠ p → s'.entryAt n q = s.entryAt n q
  nearest : s'.findNearest name = some { e with value := v }
  /-- Other names resolve to the same bindings from every frame. -/
  elsewhere : ∀ n q (h : q < s.frames.size) (h' : q < s'.frames.size), n ≠ name →
    s'.resolveFrom n q h' = s.resolveFrom n q h
  /-- The name itself resolves to the same bindings from every frame, but one has the new value. -/
  everywhere : ∀ q (h : q < s.frames.size) (h' : q < s'.frames.size),
    s'.resolveFrom name q h' = (s.resolveFrom name q h).map fun x =>
      if x.1 = p then (p, { x.2 with value := v }) else x

theorem rebound_setValueAt (hres : s.resolve name = some (p, e)) (v : Ref) :
    s.Rebound (s.setValueAt name p v) name p e v := by
  have hentry : s.entryAt name p = some e := by
    obtain ⟨f, hf, he⟩ := get?_of_resolveFrom hres
    rw [entryAt, hf, Option.bind_some, he]
  have houtline : (s.setValueAt name p v).outline = s.outline := s.outline_modifyEntries p _
  have hnearest : (s.setValueAt name p v).resolve name = some (p, { e with value := v }) := by
    have hlt := (s.setValueAt name p v).top_lt
    have htop := top_eq_of_outline houtline
    simp only [resolve, htop] at hres hlt ⊢
    rw [s.resolveFrom_setValueAt name p v name s.top_lt, hres, Option.map_some, revalued_self]
  exact {
    outline_eq := houtline
    next_eq := rfl
    entry := ⟨hentry, by rw [entryAt_setValueAt, hentry, Option.map_some, revalued_self]⟩
    others := by
      intro n q hne
      rw [entryAt_setValueAt, revalued_of_ne hne, Option.map_id_apply]
    nearest := by rw [findNearest, hnearest, Option.map_some]
    elsewhere := by
      intro n q h h' hne
      rw [s.resolveFrom_setValueAt name p v n h h']
      simp [revalued_of_ne (.inl hne)]
    everywhere := by
      intro q h h'
      rw [s.resolveFrom_setValueAt name p v name h h']
      congr 1
      funext x
      by_cases hx : x.1 = p
      · rw [if_pos hx, hx, revalued_self]
      · rw [if_neg hx, revalued_of_ne (.inr hx)]
        rfl }

/-! ## 3. Assignments -/

/-- **What an assignment can come to**: the nearest binding is assigned if it is mutable, and else
the stack stays as it is. -/
theorem assign_cases (s : ScopeStack) (name : Name) (v : Ref) :
    (s.resolve name = none ∧ s.assign name v = (.error .undefined, s) ∧
      s.checkAssign name = .error .undefined) ∨
    (∃ p e, s.resolve name = some (p, e) ∧ e.mutability = .immutable ∧
      s.assign name v = (.error .immutable, s) ∧ s.checkAssign name = .error .immutable) ∨
    (∃ p e, s.resolve name = some (p, e) ∧ e.mutability = .mutable ∧
      s.assign name v = (.ok (), s.setValueAt name p v) ∧ s.checkAssign name = .ok ()) := by
  cases hres : s.resolve name with
  | none =>
    refine .inl ⟨rfl, ?_, ?_⟩
    · rw [assign, hres]
    · rw [checkAssign, findNearest, hres]
      rfl
  | some x =>
    obtain ⟨p, e⟩ := x
    cases he : e.mutability with
    | immutable =>
      refine .inr (.inl ⟨p, e, rfl, he, assign_of_immutable hres he v, ?_⟩)
      simp [checkAssign, findNearest, hres, he, Mutability.isMutable]
    | mutable =>
      refine .inr (.inr ⟨p, e, rfl, he, assign_of_mutable hres he v, ?_⟩)
      simp [checkAssign, findNearest, hres, he, Mutability.isMutable]

/-- **Assignment is exact**, on every stack.  An assignment and the check before it come to the same:
the name is undefined if it resolves to nothing, and immutable if it resolves to an immutable
binding.  If the assignment is refused, the stack is the same as before.  If it is accepted, the
binding that the name resolves to has the new value, and that is all that changed, in any frame and
for any look-up. -/
theorem assign_exact (s : ScopeStack) (name : Name) (v : Ref) :
    (s.assign name v).1 = s.checkAssign name ∧
    ((s.assign name v).1 = .error .undefined ↔ s.findNearest name = none) ∧
    ((s.assign name v).1 = .error .immutable ↔
      ∃ e, s.findNearest name = some e ∧ e.mutability = .immutable) ∧
    ((s.assign name v).1 = .ok () ↔ ∃ e, s.findNearest name = some e ∧ e.mutability = .mutable) ∧
    ((s.assign name v).1 ≠ .ok () → (s.assign name v).2 = s) ∧
    ((s.assign name v).1 = .ok () → ∃ p e, s.resolve name = some (p, e) ∧
      s.Rebound (s.assign name v).2 name p e v) := by
  rcases s.assign_cases name v with ⟨hres, hassign, hcheck⟩ | ⟨p, e, hres, he, hassign, hcheck⟩ |
    ⟨p, e, hres, he, hassign, hcheck⟩
  · simp [hassign, hcheck, findNearest, hres]
  · simp [hassign, hcheck, findNearest, hres, he]
  · have hrebound := rebound_setValueAt hres v
    simp [hassign, hcheck, findNearest, hres, he, hrebound]

end ScopeStack

end ScriptMachine
