/-
# Scopes and their lexical parents

A stack of scopes is changed in six ways: a block or a function body is entered, the innermost frame
is left, a name is bound there or in the global frame, a binding is assigned.  Nothing checks the
order of the frames, and yet a frame is found by bisection.  Here it is shown that every sequence of
such actions keeps the order, as long as the identities do not run out, and that a machine does
nothing else to its scopes.

* `ScopeStack.Reframes`: frames were entered, each with the next identity, and left from the top;
* `ScopeStack.Ordered`: identities ascend, the global frame is at the bottom, and every other frame
  has a parent;
* `ScopeStack.Ordered.reframes`: the order is kept;
* `ScopeStack.Ordered.position?_eq_some_iff`: bisection finds a frame if and only if it is there;
* `ScopeStack.live_or_gone`: a frame is found as long as it was not left, and never again after;
* `ScopeStack.Ordered.exists_chain`: a name is looked up along the parents, up to the global frame;
* `ScopeStack.actAll_lexical`: all of it, for every sequence of actions;
* `Machine.Passes.reframes`, `Machine.Prepares.reframes`: what evaluation and a host do to the scopes
  of a machine.
-/
import Mathlib.Data.List.Induction
import ScriptMachine.Proofs.Balance
import ScriptMachine.Proofs.Conduct.Host

namespace ScriptMachine

namespace ScopeStack

/-! ## 1. Actions -/

/-- What can be done to a stack of scopes. -/
inductive Action where
  | push
  | pushFunction (parent : ScopeId)
  | pop
  | bind (name : Name) (entry : Entry)
  | bindGlobal (name : Name) (entry : Entry)
  | assign (name : Name) (value : Ref)

/-- Whether an action enters a new frame. -/
def Action.pushes : Action → Bool
  | push | pushFunction _ => true
  | pop | bind _ _ | bindGlobal _ _ | assign _ _ => false

/-- The stack after an action.  A stack that refuses a binding or an assignment stays as it is. -/
def act (s : ScopeStack) : Action → ScopeStack
  | .push => s.push
  | .pushFunction parent => s.pushFunction parent
  | .pop => s.pop
  | .bind name entry => (s.bind name entry).2
  | .bindGlobal name entry => (s.bindGlobal name entry).2
  | .assign name value => (s.assign name value).2

/-- The stack after actions, first to last. -/
def actAll (s : ScopeStack) (actions : List Action) : ScopeStack := actions.foldl act s

/-- How many frames actions enter. -/
def pushCount (actions : List Action) : Nat := actions.countP Action.pushes

/-- How many frames can be entered before identities repeat: 2^32 - 1. -/
def maxPushes : Nat := 0xFFFFFFFF

theorem actAll_append (s : ScopeStack) (actions actions' : List Action) :
    s.actAll (actions ++ actions') = (s.actAll actions).actAll actions' :=
  List.foldl_append

/-! ## 2. What an action does to the frames

Bindings do not matter for the order of the frames, so all is said about their outline. -/

theorem outline_pushAt (s : ScopeStack) (parent : Nat) (h : parent < s.frames.size) :
    (s.pushAt parent h).outline = s.outline ++ [(⟨s.next⟩, some parent)] := by
  simp [outline, pushAt]

theorem outline_bindAt (s : ScopeStack) (position : Nat) (h : position < s.frames.size)
    (name : Name) (entry : Entry) :
    (s.bindAt position h name entry).2.outline = s.outline := by
  unfold bindAt
  split
  · rfl
  · split
    · rfl
    · exact s.outline_modifyEntries _ _

theorem next_bindAt (s : ScopeStack) (position : Nat) (h : position < s.frames.size)
    (name : Name) (entry : Entry) : (s.bindAt position h name entry).2.next = s.next := by
  unfold bindAt
  split
  · rfl
  · split
    · rfl
    · rfl

theorem next_assign (s : ScopeStack) (name : Name) (v : Ref) :
    (s.assign name v).2.next = s.next := by
  unfold assign
  split
  · rfl
  · split
    · rfl
    · rfl

theorem next_pop (s : ScopeStack) : s.pop.next = s.next := by
  unfold pop
  split
  · rfl
  · rfl

theorem take_outline (s : ScopeStack) : s.outline.take s.depth = s.outline := by
  rw [← length_outline, List.take_length]

theorem outline_keep (s : ScopeStack) (depth : Nat) (h : 0 < depth) :
    (s.keep depth h).outline = s.outline.take depth := by
  simp [outline, keep, List.map_take]

theorem outline_pop_eq (s : ScopeStack) : ∃ n, 0 < n ∧ s.pop.outline = s.outline.take n := by
  unfold pop
  split
  · next h => exact ⟨s.depth - 1, by omega, s.outline_keep _ (by omega)⟩
  · exact ⟨s.depth, s.nonempty, s.take_outline.symm⟩

/-- **What one action can do to the frames**: add one on top with the next identity, or take some
away from the top, but never the global one. -/
theorem act_cases (s : ScopeStack) (action : Action) :
    (action.pushes = true ∧ (s.act action).next = s.next + 1 ∧
      ∃ parent, (s.act action).outline = s.outline ++ [(⟨s.next⟩, some parent)]) ∨
    (action.pushes = false ∧ (s.act action).next = s.next ∧
      ∃ n, 0 < n ∧ (s.act action).outline = s.outline.take n) := by
  have hsame : ∀ s' : ScopeStack, s'.outline = s.outline →
      ∃ n, 0 < n ∧ s'.outline = s.outline.take n :=
    fun s' hs' => ⟨s.depth, s.nonempty, hs'.trans s.take_outline.symm⟩
  cases action with
  | push => exact .inl ⟨rfl, rfl, _, s.outline_pushAt s.top s.top_lt⟩
  | pushFunction parent => exact .inl ⟨rfl, rfl, _, s.outline_pushAt _ (Fin.isLt _)⟩
  | pop => exact .inr ⟨rfl, s.next_pop, s.outline_pop_eq⟩
  | bind name entry =>
    exact .inr ⟨rfl, s.next_bindAt _ _ name entry, hsame _ (s.outline_bindAt _ _ name entry)⟩
  | bindGlobal name entry =>
    exact .inr ⟨rfl, s.next_bindAt _ _ name entry, hsame _ (s.outline_bindAt _ _ name entry)⟩
  | assign name value =>
    exact .inr ⟨rfl, s.next_assign name value, hsame _ (s.outline_assign name value)⟩

/-- The frames of a later stack: `n` of them were entered on the way, each with the next identity, and
any number of them left from the top. -/
inductive Reframes : ScopeStack → Nat → ScopeStack → Prop where
  | enter {s s' : ScopeStack} {parent : Nat} :
      s'.outline = s.outline ++ [(⟨s.next⟩, some parent)] → s'.next = s.next + 1 → Reframes s 1 s'
  | leave {s s' : ScopeStack} {kept : Nat} :
      0 < kept → s'.outline = s.outline.take kept → s'.next = s.next → Reframes s 0 s'
  | trans {s s' s'' : ScopeStack} {n n' : Nat} :
      Reframes s n s' → Reframes s' n' s'' → Reframes s (n + n') s''

namespace Reframes

variable {s s' : ScopeStack}

/-- The same frames, whatever they bind. -/
theorem same (houtline : s'.outline = s.outline) (hnext : s'.next = s.next) : s.Reframes 0 s' :=
  .leave s.nonempty (houtline.trans s.take_outline.symm) hnext

theorem refl (s : ScopeStack) : s.Reframes 0 s := .same rfl rfl

theorem pushAt (s : ScopeStack) {parent : Nat} (h : parent < s.frames.size) :
    s.Reframes 1 (s.pushAt parent h) :=
  .enter (s.outline_pushAt parent h) rfl

theorem pop (s : ScopeStack) : s.Reframes 0 s.pop := by
  obtain ⟨kept, hkept, houtline⟩ := s.outline_pop_eq
  exact .leave hkept houtline s.next_pop

theorem unwindTo (s : ScopeStack) (depth : Nat) : s.Reframes 0 (s.unwindTo depth) :=
  .leave (by omega : 0 < max 1 depth) (s.outline_keep _ _) rfl

end Reframes

theorem pushCount_append (actions actions' : List Action) :
    pushCount (actions ++ actions') = pushCount actions + pushCount actions' :=
  List.countP_append

theorem reframes_act (s : ScopeStack) (action : Action) :
    s.Reframes (pushCount [action]) (s.act action) := by
  rcases s.act_cases action with
    ⟨hpush, hnext, parent, houtline⟩ | ⟨hpush, hnext, kept, hkept, houtline⟩
  · have hone : pushCount [action] = 1 := by simp [pushCount, hpush]
    exact hone ▸ .enter houtline hnext
  · have hnone : pushCount [action] = 0 := by simp [pushCount, hpush]
    exact hnone ▸ .leave hkept houtline hnext

theorem reframes_actAll (s : ScopeStack) (actions : List Action) :
    s.Reframes (pushCount actions) (s.actAll actions) := by
  induction actions generalizing s with
  | nil => exact .refl s
  | cons action actions ih =>
    have hcount := pushCount_append [action] actions
    exact hcount ▸ (s.reframes_act action).trans (ih (s.act action))

/-! ## 3. The order of the frames -/

/-- The order of a stack: identities ascend and were all handed out before the next one, the global
frame is at the bottom, and every other frame has a parent. -/
structure Ordered (s : ScopeStack) : Prop where
  issued : ∀ x ∈ s.outline, x.1.number < s.next
  ascending : s.outline.Pairwise fun x y => x.1.number < y.1.number
  global : s.outline.head? = some (.global, none)
  parents : ∀ x ∈ s.outline.tail, x.2.isSome = true

namespace Ordered

variable {s : ScopeStack}

theorem initial : Ordered ScopeStack.initial where
  issued := by simp [outline, ScopeStack.initial, ScopeId.global]
  ascending := by simp [outline, ScopeStack.initial]
  global := rfl
  parents := by simp [outline, ScopeStack.initial]

/-- A new frame on top with the next identity. -/
theorem push (h : s.Ordered) {s' : ScopeStack} {parent : Nat} (hroom : s.next < s.next + 1)
    (houtline : s'.outline = s.outline ++ [(⟨s.next⟩, some parent)])
    (hnext : s'.next = s.next + 1) : s'.Ordered := by
  obtain ⟨bottom, rest, hsplit⟩ : ∃ bottom rest, s.outline = bottom :: rest :=
    List.exists_cons_of_ne_nil (fun hnil => by simpa [hnil] using h.global)
  constructor
  · rw [houtline, hnext]
    intro x hx
    rcases List.mem_append.1 hx with hold | hnew
    · exact UInt32.lt_trans (h.issued x hold) hroom
    · obtain rfl := List.mem_singleton.1 hnew
      exact hroom
  · rw [houtline, List.pairwise_append]
    refine ⟨h.ascending, List.pairwise_singleton _ _, ?_⟩
    rintro x hx y hy
    obtain rfl := List.mem_singleton.1 hy
    exact h.issued x hx
  · rw [houtline, hsplit, List.cons_append, ← h.global, hsplit]
    rfl
  · rw [houtline, hsplit, List.cons_append, List.tail_cons]
    intro x hx
    rcases List.mem_append.1 hx with hold | hnew
    · exact h.parents x (by rwa [hsplit])
    · obtain rfl := List.mem_singleton.1 hnew
      rfl

/-- The lower frames of a stack, the global one among them. -/
theorem take (h : s.Ordered) {s' : ScopeStack} {n : Nat} (hn : 0 < n)
    (houtline : s'.outline = s.outline.take n) (hnext : s'.next = s.next) : s'.Ordered := by
  constructor
  · rw [houtline, hnext]
    intro x hx
    exact h.issued x (List.mem_of_mem_take hx)
  · rw [houtline]
    exact h.ascending.sublist (List.take_sublist _ _)
  · rw [houtline, List.head?_take, if_neg (by omega), h.global]
  · rw [houtline, ← List.drop_one, List.drop_take, List.drop_one]
    intro x hx
    exact h.parents x (List.mem_of_mem_take hx)

/-- **The order is kept**, as long as there is an identity for each frame that is entered.  The
identities are counted along with it. -/
theorem reframes (h : s.Ordered) {n : Nat} {s' : ScopeStack} (hs : s.Reframes n s')
    (hroom : s.next.toNat + n ≤ maxPushes) : s'.Ordered ∧ s'.next.toNat = s.next.toNat + n := by
  induction hs with
  | @enter s s' parent houtline hnext =>
    have hone : (s.next + 1).toNat = s.next.toNat + 1 := by
      simp only [maxPushes] at hroom
      rw [UInt32.toNat_add, UInt32.toNat_one]
      omega
    have hlt : s.next < s.next + 1 := by
      rw [UInt32.lt_iff_toNat_lt]
      omega
    exact ⟨h.push hlt houtline hnext, by rw [hnext, hone]⟩
  | leave hkept houtline hnext => exact ⟨h.take hkept houtline hnext, by rw [hnext, Nat.add_zero]⟩
  | trans _ _ ih ih' =>
    obtain ⟨hordered, hcount⟩ := ih h (by omega)
    obtain ⟨hordered', hcount'⟩ := ih' hordered (by omega)
    exact ⟨hordered', by omega⟩

end Ordered

/-- A stack that came from the one with only the global frame. -/
theorem Reframes.ordered {n : Nat} {s : ScopeStack} (h : initial.Reframes n s)
    (hroom : n < maxPushes) : s.Ordered ∧ s.next.toNat = n + 1 := by
  have hone : initial.next.toNat = 1 := rfl
  obtain ⟨hordered, hcount⟩ := Ordered.initial.reframes h (by omega)
  exact ⟨hordered, by omega⟩

/-- **Any number of actions** keep the order. -/
theorem Ordered.actAll (actions : List Action) (hroom : pushCount actions < maxPushes) :
    (ScopeStack.initial.actAll actions).Ordered :=
  ((ScopeStack.initial.reframes_actAll actions).ordered hroom).1

/-- Every frame that was entered took an identity, as long as they do not run out. -/
theorem toNat_next_actAll (actions : List Action) (hroom : pushCount actions < maxPushes) :
    (initial.actAll actions).next.toNat = pushCount actions + 1 :=
  ((initial.reframes_actAll actions).ordered hroom).2

/-- There is an identity left for a frame that is entered next. -/
theorem next_lt_of_room {actions : List Action} {action : Action}
    (hroom : pushCount (actions ++ [action]) < maxPushes) (hpush : action.pushes = true) :
    (initial.actAll actions).next < (initial.actAll actions).next + 1 := by
  rw [pushCount_append] at hroom
  have hnext := toNat_next_actAll actions (by omega)
  have hone : pushCount [action] = 1 := by simp [pushCount, hpush]
  simp only [maxPushes] at hroom
  rw [UInt32.lt_iff_toNat_lt, UInt32.toNat_add, UInt32.toNat_one]
  omega

/-! ## 4. Bisection -/

namespace Ordered

variable {s : ScopeStack}

theorem id_lt (h : s.Ordered) {i j : Nat} (hi : i < s.frames.size) (hj : j < s.frames.size)
    (hij : i < j) : s.frames[i].id.number < s.frames[j].id.number := by
  have hlen : s.outline.length = s.frames.size := s.length_outline
  have hlt := List.pairwise_iff_getElem.1 h.ascending i j (by omega) (by omega) hij
  simpa [outline] using hlt

/-- Positions go by identities. -/
theorem position_lt (h : s.Ordered) {i j : Nat} (hi : i < s.frames.size) (hj : j < s.frames.size)
    (hlt : s.frames[i].id.number < s.frames[j].id.number) : i < j := by
  rcases Nat.lt_trichotomy i j with hij | rfl | hji
  · exact hij
  · exact (UInt32.lt_irrefl _ hlt).elim
  · exact (UInt32.lt_asymm hlt (h.id_lt hj hi hji)).elim

/-- No two frames have one identity. -/
theorem position_eq (h : s.Ordered) {i j : Nat} (hi : i < s.frames.size) (hj : j < s.frames.size)
    (heq : s.frames[i].id = s.frames[j].id) : i = j := by
  rcases Nat.lt_trichotomy i j with hij | rfl | hji
  · have hlt := h.id_lt hi hj hij
    rw [heq] at hlt
    exact (UInt32.lt_irrefl _ hlt).elim
  · rfl
  · have hlt := h.id_lt hj hi hji
    rw [heq] at hlt
    exact (UInt32.lt_irrefl _ hlt).elim

/-- Bisection among some positions finds a frame if and only if it is at one of them. -/
theorem bisect_eq_some_iff (h : s.Ordered) (id : ScopeId) (lo hi : Nat) (hhi : hi ≤ s.frames.size)
    (p : Fin s.frames.size) :
    bisect s.frames id lo hi hhi = some p ↔ lo ≤ p.val ∧ p.val < hi ∧ s.frames[p.val].id = id := by
  fun_induction bisect s.frames id lo hi hhi with
  | case1 lo hi hhi hlt mid hmid f hid =>
    constructor
    · intro hp
      obtain rfl := Option.some.inj hp
      exact ⟨by simp only [mid]; omega, by simp only [mid]; omega, hid⟩
    · rintro ⟨-, -, hpid⟩
      exact congrArg some (Fin.ext (h.position_eq hmid p.isLt (hid.trans hpid.symm)))
  | case2 lo hi hhi hlt mid hmid f hid hless ih =>
    rw [ih]
    -- the frame in the middle comes before the one that is looked for
    have hafter : s.frames[p.val].id = id → mid < p.val := by
      rintro rfl
      exact h.position_lt hmid p.isLt hless
    constructor
    · rintro ⟨hlo, hp, hpid⟩
      exact ⟨by simp only [mid] at hlo; omega, hp, hpid⟩
    · rintro ⟨-, hp, hpid⟩
      exact ⟨hafter hpid, hp, hpid⟩
  | case3 lo hi hhi hlt mid hmid f hid hless ih =>
    rw [ih]
    have hbefore : s.frames[p.val].id = id → p.val < mid := by
      rintro rfl
      rcases Nat.lt_trichotomy p.val mid with hp | hp | hp
      · exact hp
      · exact (hid (by simp only [f, hp])).elim
      · exact (hless (h.id_lt hmid p.isLt hp)).elim
    constructor
    · rintro ⟨hlo, hp, hpid⟩
      exact ⟨hlo, by simp only [mid] at hp; omega, hpid⟩
    · rintro ⟨hlo, -, hpid⟩
      exact ⟨hlo, hbefore hpid, hpid⟩
  | case4 lo hi hhi hlt =>
    constructor
    · nofun
    · rintro ⟨hlo, hp, -⟩
      omega

/-- **Bisection finds a frame if and only if it is there.** -/
theorem position?_eq_some_iff (h : s.Ordered) (id : ScopeId) (p : Fin s.frames.size) :
    s.position? id = some p ↔ s.frames[p.val].id = id := by
  refine (h.bisect_eq_some_iff id 0 s.depth (Nat.le_refl _) p).trans ?_
  constructor
  · rintro ⟨-, -, hid⟩
    exact hid
  · intro hid
    exact ⟨Nat.zero_le _, p.isLt, hid⟩

end Ordered

/-! ## 5. Frames over time -/

/-- The frame with an identity is at a position. -/
def Live (id : ScopeId) (position : Nat) (s : ScopeStack) : Prop :=
  ∃ parent, s.outline[position]? = some (id, parent)

/-- No frame has the identity, and none will get it. -/
def Gone (id : ScopeId) (s : ScopeStack) : Prop :=
  id.number < s.next ∧ ∀ x ∈ s.outline, x.1 ≠ id

variable {s : ScopeStack} {id : ScopeId} {position : Nat}

theorem Live.lt_depth (h : s.Live id position) : position < s.depth := by
  obtain ⟨parent, hparent⟩ := h
  rw [← length_outline]
  exact (List.getElem?_eq_some_iff.1 hparent).1

/-- The innermost frame is there. -/
theorem live_current (s : ScopeStack) : s.Live s.current s.top := by
  have htop := s.top_lt
  exact ⟨s.frames[s.top].parent, by simp [outline, current, htop]⟩

/-- **One action** on a stack without the frame: no other frame gets its identity. -/
theorem Gone.act (h : s.Gone id) (action : Action)
    (hroom : action.pushes = true → s.next < s.next + 1) : (s.act action).Gone id := by
  obtain ⟨hissued, hgone⟩ := h
  rcases s.act_cases action with ⟨hpush, hnext, parent, houtline⟩ | ⟨-, hnext, n, -, htake⟩
  · refine ⟨by rw [hnext]; exact UInt32.lt_trans hissued (hroom hpush), ?_⟩
    rw [houtline]
    intro x hx
    rcases List.mem_append.1 hx with hold | hnew
    · exact hgone x hold
    · obtain rfl := List.mem_singleton.1 hnew
      rintro rfl
      exact UInt32.lt_irrefl _ hissued
  · refine ⟨by rwa [hnext], ?_⟩
    rw [htake]
    intro x hx
    exact hgone x (List.mem_of_mem_take hx)

/-- **One action** on a stack with the frame: it stays in its place, or is left. -/
theorem Live.act (h : s.Live id position) (hs : s.Ordered) (action : Action) :
    (position < (s.act action).depth ∧ (s.act action).Live id position) ∨
      ((s.act action).depth ≤ position ∧ (s.act action).Gone id) := by
  obtain ⟨parent, hparent⟩ := h
  obtain ⟨hlt, hat⟩ := List.getElem?_eq_some_iff.1 hparent
  rw [← length_outline (s.act action)]
  rcases s.act_cases action with ⟨-, -, parent', houtline⟩ | ⟨-, hnext, n, -, htake⟩
  · rw [Live, houtline]
    refine .inl ⟨by rw [List.length_append]; omega, parent, ?_⟩
    rw [List.getElem?_append_left hlt, hparent]
  · rw [Live, Gone, htake, hnext, List.length_take]
    by_cases hn : position < n
    · exact .inl ⟨by omega, parent, by rw [List.getElem?_take_of_lt hn, hparent]⟩
    · refine .inr ⟨by omega, hs.issued (id, parent) (List.mem_of_getElem? hparent), ?_⟩
      -- what is below the frame has smaller identities
      rintro x hx rfl
      obtain ⟨j, hj, rfl⟩ := List.mem_take_iff_getElem.1 hx
      have hbelow := List.pairwise_iff_getElem.1 hs.ascending j position (by omega) hlt (by omega)
      rw [hat] at hbelow
      exact UInt32.lt_irrefl _ hbelow

/-- No action leaves the innermost frame of a stack. -/
def Stays (s : ScopeStack) (actions : List Action) : Prop :=
  ∀ done, done <+: actions → s.top < (s.actAll done).depth

/-- **Any number of actions** on a stack with the frame: it is there until it is left, and gone from
then on. -/
theorem live_or_gone (earlier later : List Action)
    (hroom : pushCount (earlier ++ later) < maxPushes) :
    let s := initial.actAll earlier
    (s.Stays later ∧ (s.actAll later).Live s.current s.top) ∨
      (¬ s.Stays later ∧ (s.actAll later).Gone s.current) := by
  intro s
  induction later using List.reverseRecOn with
  | nil =>
    refine .inl ⟨?_, s.live_current⟩
    intro done hdone
    obtain rfl := List.prefix_nil.1 hdone
    exact s.live_current.lt_depth
  | append_singleton later action ih =>
    rw [← List.append_assoc] at hroom
    have hbefore : pushCount (earlier ++ later) < maxPushes := by
      rw [pushCount_append] at hroom
      omega
    have hordered := Ordered.actAll _ hbefore
    have hnext := next_lt_of_room hroom
    rw [actAll_append] at hordered hnext
    have hact : s.actAll (later ++ [action]) = (s.actAll later).act action := actAll_append _ _ _
    rcases ih hbefore with ⟨hstays, hlive⟩ | ⟨hleft, hgone⟩
    · rcases hlive.act hordered action with ⟨hlt, hlive'⟩ | ⟨hle, hgone'⟩
      · refine .inl ⟨?_, hact ▸ hlive'⟩
        intro done hdone
        rcases List.prefix_concat_iff.1 hdone with rfl | hdone
        · rwa [hact]
        · exact hstays done hdone
      · refine .inr ⟨?_, hact ▸ hgone'⟩
        intro hstays'
        have hlt := hstays' _ List.prefix_rfl
        rw [hact] at hlt
        omega
    · refine .inr ⟨?_, hact ▸ hgone.act action hnext⟩
      intro hstays'
      exact hleft fun done hdone => hstays' done (hdone.trans (List.prefix_append _ _))

/-- A frame that is entered is the innermost one, and has the next identity. -/
theorem current_act_of_pushes {action : Action} (hpush : action.pushes = true) :
    (s.act action).current = ⟨s.next⟩ := by
  cases action with
  | push => simp [act, push, pushAt, current, top, depth]
  | pushFunction parent => simp [act, pushFunction, pushAt, current, top, depth]
  | pop => cases hpush
  | bind name entry => cases hpush
  | bindGlobal name entry => cases hpush
  | assign name value => cases hpush

/-- An identity that was ever in use is not handed out again. -/
theorem id_ne_next {seen later : List Action} (hroom : pushCount (seen ++ later) < maxPushes)
    {f : Frame} (hf : f ∈ (initial.actAll seen).frames) :
    f.id ≠ ⟨(initial.actAll (seen ++ later)).next⟩ := by
  have hlater := toNat_next_actAll _ hroom
  rw [pushCount_append] at hroom hlater
  have hseen := toNat_next_actAll seen (by omega)
  have hissued := (Ordered.actAll seen (by omega)).issued (f.id, f.parent)
    (List.mem_map.2 ⟨f, Array.mem_toList_iff.2 hf, rfl⟩)
  rw [UInt32.lt_iff_toNat_lt] at hissued
  intro heq
  have hnumber : f.id.number.toNat = (initial.actAll (seen ++ later)).next.toNat := by rw [heq]
  simp only at hissued
  omega

/-! ## 6. Looking up a name -/

/-- The frame at `q` is the lexical parent of the frame at `p`. -/
def Parent (s : ScopeStack) (p q : Nat) : Prop :=
  ∃ f : Frame, s.frames[p]? = some f ∧ f.parent = some q

/-- The binding of a name in the frame at a position. -/
def entryAt (s : ScopeStack) (name : Name) (p : Nat) : Option Entry :=
  s.frames[p]?.bind fun f => f.entries.get? name

/-- Only the global frame has no parent. -/
theorem Ordered.eq_zero_of_parent (h : s.Ordered) {p : Nat} {f : Frame} (hf : s.frames[p]? = some f)
    (hparent : f.parent = none) : p = 0 := by
  cases p with
  | zero => rfl
  | succ p =>
    have hmem : (f.id, f.parent) ∈ s.outline.tail := by
      refine List.mem_of_getElem? (i := p) ?_
      rw [List.getElem?_tail]
      simp [outline, hf]
    have hsome := h.parents _ hmem
    simp [hparent] at hsome

/-- A frame without a parent is the last one to look at. -/
theorem map_resolveFrom_of_none {name : Name} {p : Nat} (hp : p < s.frames.size)
    (hparent : s.frames[p].parent = none) :
    (s.resolveFrom name p hp).map Prod.snd = s.frames[p].entries.get? name := by
  rw [resolveFrom]
  split
  · next e he => rw [he, Option.map_some]
  · next he =>
    rw [he]
    split
    · rfl
    · next q hq => simp [hparent] at hq

/-- After a frame comes its parent. -/
theorem map_resolveFrom_of_some {name : Name} {p q : Nat} (hp : p < s.frames.size)
    (hq : q < s.frames.size) (hparent : s.frames[p].parent = some q) :
    (s.resolveFrom name p hp).map Prod.snd =
      (s.frames[p].entries.get? name).or ((s.resolveFrom name q hq).map Prod.snd) := by
  rw [resolveFrom]
  split
  · next e he => rw [he, Option.map_some, Option.some_or]
  · next he =>
    rw [he, Option.none_or]
    split
    · next hnone => simp [hparent] at hnone
    · next q' hq' =>
      obtain rfl : q = q' := Option.some.inj (hparent.symm.trans hq')
      rfl

/-- **Looking up a name** goes along the parents, from any frame to the global one, and stops at the
first frame that binds it.  The induction is on the position: parents lie below. -/
theorem Ordered.exists_chain (h : s.Ordered) (p : Nat) (hp : p < s.frames.size) :
    ∃ chain : List Nat, chain.head? = some p ∧ chain.getLast? = some 0 ∧ chain.IsChain s.Parent ∧
      ∀ name, (s.resolveFrom name p hp).map Prod.snd = chain.findSome? (s.entryAt name) := by
  induction p using Nat.strongRecOn with
  | ind p ih =>
    have hframe : s.frames[p]? = some s.frames[p] := Array.getElem?_eq_getElem hp
    have hentry : ∀ name, s.entryAt name p = s.frames[p].entries.get? name := by
      intro name
      rw [entryAt, hframe, Option.bind_some]
    cases hparent : s.frames[p].parent with
    | none =>
      obtain rfl := h.eq_zero_of_parent hframe hparent
      refine ⟨[0], rfl, rfl, .singleton _, fun name => ?_⟩
      rw [map_resolveFrom_of_none hp hparent, List.findSome?_singleton, hentry name]
    | some q =>
      have hlt := s.below p hp q hparent
      have hq : q < s.frames.size := Nat.lt_trans hlt hp
      obtain ⟨chain, hhead, hlast, hchain, hfind⟩ := ih q hlt hq
      obtain ⟨rest, rfl⟩ : ∃ rest, chain = q :: rest := List.head?_eq_some_iff.1 hhead
      refine ⟨p :: q :: rest, rfl, ?_, .cons_cons ⟨_, hframe, hparent⟩ hchain, fun name => ?_⟩
      · rw [List.getLast?_cons_cons, hlast]
      · rw [map_resolveFrom_of_some hp hq hparent, hfind name, List.findSome?_cons (a := p),
          hentry name]
        cases s.frames[p].entries.get? name with
        | none => rfl
        | some e => rfl

/-! ## 7. All sequences of actions -/

/-- The order of a stack, and what follows from it. -/
structure Lexical (s : ScopeStack) : Prop where
  ascending : ∀ i j (hi : i < s.frames.size) (hj : j < s.frames.size), i < j →
    s.frames[i].id.number < s.frames[j].id.number
  global : ∃ f : Frame, s.frames[0]? = some f ∧ f.id = .global ∧ f.parent = none
  parents : ∀ (i : Nat) (f : Frame), 0 < i → s.frames[i]? = some f → ∃ p < i, f.parent = some p
  /-- Bisection finds the frame with an identity if and only if there is one. -/
  found : ∀ (id : ScopeId) (p : Fin s.frames.size),
    s.position? id = some p ↔ s.frames[p.val].id = id
  /-- A name is looked up along the parents of the innermost frame, up to the global one. -/
  nearest : ∃ chain : List Nat, chain.head? = some s.top ∧ chain.getLast? = some 0 ∧
    chain.IsChain s.Parent ∧ ∀ name, s.findNearest name = chain.findSome? (s.entryAt name)

/-- A function body that continues the frame `parent` has the frame at `p` as its parent. -/
def Continues (s : ScopeStack) (parent : ScopeId) (p : Nat) : Prop :=
  (s.pushFunction parent).frames = s.frames.push ⟨⟨s.next⟩, some p, []⟩

theorem Ordered.lexical (h : s.Ordered) : s.Lexical where
  ascending := fun i j hi hj => h.id_lt hi hj
  global := by
    have hglobal := h.global
    rw [List.head?_eq_getElem?] at hglobal
    simpa [outline, and_assoc] using hglobal
  parents := by
    intro i f hi hf
    cases hparent : f.parent with
    | none =>
      have := h.eq_zero_of_parent hf hparent
      omega
    | some p =>
      obtain ⟨hlt, rfl⟩ := Array.getElem?_eq_some_iff.1 hf
      exact ⟨p, s.below i hlt p hparent, rfl⟩
  found := h.position?_eq_some_iff
  nearest := h.exists_chain s.top s.top_lt

/-- A frame that is there is continued. -/
theorem Live.continues (h : s.Live id position) (hs : s.Ordered) : s.Continues id position := by
  obtain ⟨parent, hparent⟩ := h
  obtain ⟨f, hf, hid⟩ : ∃ f : Frame, s.frames[position]? = some f ∧ f.id = id := by
    simp only [outline, List.getElem?_map, Array.getElem?_toList, Option.map_eq_some_iff,
      Prod.mk.injEq] at hparent
    obtain ⟨f, hf, hid, -⟩ := hparent
    exact ⟨f, hf, hid⟩
  obtain ⟨hlt, rfl⟩ := Array.getElem?_eq_some_iff.1 hf
  have hfound : s.position? id = some ⟨position, hlt⟩ := (hs.position?_eq_some_iff id _).2 hid
  simp only [Continues, pushFunction, hfound, pushAt, Option.getD_some]

/-- In place of a frame that is gone the global one is continued. -/
theorem Gone.continues (h : s.Gone id) (hs : s.Ordered) : s.Continues id 0 := by
  have hnone : s.position? id = none := by
    refine Option.eq_none_iff_forall_ne_some.2 fun p hp => ?_
    have hid := (hs.position?_eq_some_iff id p).1 hp
    exact h.2 _ (List.mem_map.2 ⟨s.frames[p.val], by simp, rfl⟩) hid
  simp only [Continues, pushFunction, hnone, pushAt, Option.getD_none]

/-- **Scopes keep their lexical order** over every sequence of actions that enters fewer than
2^32 - 1 frames.  The identities on the stack ascend, the global frame stays at the bottom, and
every other frame has its parent below it; so bisection finds the frame with an identity whenever
there is one, and a name is looked up along the parents of the innermost frame.  A frame that is
entered has an identity that no frame had before it.  Hence a function that was defined in some
frame continues that very frame as long as it has not been left, and the global frame from then on,
whatever frames were entered in between. -/
theorem actAll_lexical (actions : List Action) (hroom : pushCount actions < maxPushes) :
    (initial.actAll actions).Lexical ∧
    (∀ seen between action later, actions = seen ++ between ++ action :: later →
      action.pushes = true → ∀ f ∈ (initial.actAll seen).frames,
        f.id ≠ (initial.actAll (seen ++ between ++ [action])).current) ∧
    ∀ earlier later, actions = earlier ++ later →
      ((initial.actAll earlier).Stays later →
        (initial.actAll actions).Continues (initial.actAll earlier).current
          (initial.actAll earlier).top) ∧
      (¬ (initial.actAll earlier).Stays later →
        (initial.actAll actions).Continues (initial.actAll earlier).current 0) := by
  have hordered := Ordered.actAll _ hroom
  refine ⟨hordered.lexical, ?_, ?_⟩
  · rintro seen between action later rfl hpush f hf
    have hbefore : pushCount (seen ++ between) < maxPushes := by
      rw [pushCount_append] at hroom
      omega
    rw [actAll_append initial (seen ++ between) [action]]
    show f.id ≠ ((initial.actAll (seen ++ between)).act action).current
    rw [current_act_of_pushes hpush]
    exact id_ne_next hbefore hf
  · rintro earlier later rfl
    rw [actAll_append] at hordered ⊢
    rcases live_or_gone earlier later hroom with ⟨hstays, hlive⟩ | ⟨hleft, hgone⟩
    · exact ⟨fun _ => hlive.continues hordered, fun hleft => (hleft hstays).elim⟩
    · exact ⟨fun hstays => (hleft hstays).elim, fun _ => hgone.continues hordered⟩

/-- A function defined in a block that was left, and whose place on the stack another block took:
its body continues the global frame, at the bottom. -/
theorem actAll_lexical_leftBlock :
    pushCount [.push, .pop, .push] < maxPushes ∧ (initial.actAll [.push]).current = ⟨1⟩ ∧
      (initial.actAll [.push, .pop, .push]).depth = 2 ∧
      (initial.actAll [.push, .pop, .push]).Continues ⟨1⟩ 0 := by
  have hroom : pushCount [.push, .pop, .push] < maxPushes := by decide
  have hleft : ¬ (initial.actAll [.push]).Stays [.pop, .push] := by
    intro hstays
    exact absurd (hstays [.pop] ⟨[.push], rfl⟩) (by decide)
  exact ⟨hroom, rfl, rfl, ((actAll_lexical _ hroom).2.2 [.push] [.pop, .push] rfl).2 hleft⟩

end ScopeStack

/-! ## 8. Machines -/

namespace Machine

variable {m m' : Machine} {rooting : Bool}

/-- No act enters or leaves a frame. -/
theorem Act.reframes (h : m.Act m') : m.scopes.Reframes 0 m'.scopes := by
  rcases h.parts with
    ⟨_, rfl⟩ | ⟨name, entry, rfl⟩ | ⟨name, v, rfl⟩ | ⟨_, rfl⟩ | ⟨_, _, rfl⟩ | ⟨_, rfl⟩
  · exact .refl _
  · exact .same (m.scopes.outline_bind name entry) (m.scopes.next_bindAt _ _ name entry)
  · exact .same (m.scopes.outline_assign name v) (m.scopes.next_assign name v)
  · exact .refl _
  · exact .refl _
  · exact .refl _

/-- **From the start of a computation to its end** frames are entered and left. -/
theorem Proceeds.reframes (h : m.Proceeds rooting m') : ∃ n, m.scopes.Reframes n m'.scopes := by
  induction h with
  | refl m => exact ⟨0, .refl _⟩
  | trans _ _ ih ih' =>
    obtain ⟨n, hn⟩ := ih
    obtain ⟨n', hn'⟩ := ih'
    exact ⟨n + n', hn.trans hn'⟩
  | act h => exact ⟨0, h.reframes⟩
  | root m r =>
    cases r with
    | nil => exact ⟨0, .refl _⟩
    | bool b => exact ⟨0, .refl _⟩
    | heap a => exact ⟨0, .refl _⟩
  | released _ ih => exact ih
  | @scope _ m m' parent h _ ih =>
    obtain ⟨n, hn⟩ := ih
    exact ⟨1 + n + 0, ((ScopeStack.Reframes.pushAt m.scopes h).trans hn).trans (.pop _)⟩
  | call _ _ ih => exact ih
  | rendering _ ih => exact ih

/-- **At every moment** of a computation no more was done than that. -/
theorem Passes.reframes (h : m.Passes m') : ∃ n, m.scopes.Reframes n m'.scopes := by
  induction h with
  | proceeds h => exact h.reframes
  | trans _ _ ih ih' =>
    obtain ⟨n, hn⟩ := ih
    obtain ⟨n', hn'⟩ := ih'
    exact ⟨n + n', hn.trans hn'⟩
  | scope m h => exact ⟨1, .pushAt m.scopes h⟩
  | call _ => exact ⟨0, .refl _⟩
  | rendering m => exact ⟨0, .refl _⟩
  | unwound _ ih =>
    obtain ⟨n, hn⟩ := ih
    exact ⟨n + 0, hn.trans (.unwindTo _ _)⟩

/-- A host binds names in the global frame, and enters no other. -/
theorem HostAct.reframes (h : m.HostAct m') : m.scopes.Reframes 0 m'.scopes := by
  cases h with
  | names _ => exact .refl _
  | types _ => exact .refl _
  | @allocate v _ =>
    obtain ⟨heap, hheap⟩ := m.exists_heap_tryAllocate v
    rw [hheap]
    exact .refl _
  | bindGlobal name value mutability =>
    exact .same (m.scopes.outline_bindAt _ _ name _) (m.scopes.next_bindAt _ _ name _)
  | modules _ => exact .refl _

theorem Prepares.reframes (h : m.Prepares m') : m.scopes.Reframes 0 m'.scopes := by
  induction h with
  | refl => exact .refl _
  | tail _ hact ih => exact ih.trans hact.reframes

/-- **Whatever a host does over time**, nothing else happens to the scopes. -/
theorem Leads.reframes (h : m.Leads m') : ∃ n, m.scopes.Reframes n m'.scopes := by
  induction h with
  | refl => exact ⟨0, .refl _⟩
  | tail _ hstep ih =>
    obtain ⟨n, hn⟩ := ih
    rcases hstep.passes_or_prepares with hpasses | hprepares
    · obtain ⟨n', hn'⟩ := hpasses.reframes
      exact ⟨n + n', hn.trans hn'⟩
    · exact ⟨n + 0, hn.trans hprepares.reframes⟩

end Machine

end ScriptMachine
