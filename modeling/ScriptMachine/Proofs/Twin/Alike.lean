/-
# Data alike up to the choice of handles

Two machines that run the same program under different collectors hold the same data in different
slots.  A `Pairing` says which handle of the one stands for which handle of the other, and `Alike`
says of references, values, scopes and modules that they are the same when read through it.

* data that are alike under one pairing are alike under another that agrees on their handles
  (`Value.Alike.transfer`, `ScopeStack.Alike.transfer`, `ModuleTable.Alike.transfer`);
* reading alike data gives alike results, and changing them in the same way keeps them alike.
-/
import Mathlib.Data.List.Forall2
import ScriptMachine.Machine.State

namespace ScriptMachine

/-- Which handle of one heap stands for which handle of another. -/
abbrev Pairing := Handle → Handle → Prop

/-! ## 1. Lists side by side -/

/-- Two options side by side: both without a value, or both with one. -/
theorem optionRel_cases {α β : Type} {R : α → β → Prop} {x : Option α} {y : Option β}
    (h : Option.Rel R x y) : (x = none ∧ y = none) ∨ ∃ a b, x = some a ∧ y = some b ∧ R a b := by
  cases h with
  | none => exact .inl ⟨rfl, rfl⟩
  | some hab => exact .inr ⟨_, _, rfl, rfl, hab⟩

section Forall₂

variable {α β : Type} {R : α → β → Prop} {xs : List α} {ys : List β}

/-- Another relation that holds of the same elements. -/
theorem forall₂_transfer {R' : α → β → Prop} (h : List.Forall₂ R xs ys)
    (himp : ∀ x ∈ xs, ∀ y ∈ ys, R x y → R' x y) : List.Forall₂ R' xs ys := by
  induction h with
  | nil => exact .nil
  | cons hxy _ ih =>
    refine .cons (himp _ (by simp) _ (by simp) hxy) (ih fun x hx y hy => ?_)
    exact himp x (List.mem_cons_of_mem _ hx) y (List.mem_cons_of_mem _ hy)

/-- The elements at one position. -/
theorem forall₂_getElem? (h : List.Forall₂ R xs ys) (i : Nat) : Option.Rel R xs[i]? ys[i]? := by
  induction h generalizing i with
  | nil => exact .none
  | cons hxy _ ih =>
    cases i with
    | zero => exact .some hxy
    | succ i => exact ih i

/-- Lists with the same elements side by side at each position. -/
theorem forall₂_of_getElem? (h : ∀ i : Nat, Option.Rel R xs[i]? ys[i]?) : List.Forall₂ R xs ys := by
  induction xs generalizing ys with
  | nil =>
    cases ys with
    | nil => exact .nil
    | cons y ys => exact absurd (h 0) (by rintro ⟨⟩)
  | cons x xs ih =>
    cases ys with
    | nil => exact absurd (h 0) (by rintro ⟨⟩)
    | cons y ys =>
      have h0 : Option.Rel R (some x) (some y) := h 0
      cases h0 with
      | some hxy => exact .cons hxy (ih fun i => h (i + 1))

/-- What is on the left is related to something on the right. -/
theorem exists_mem_of_forall₂ (h : List.Forall₂ R xs ys) {x : α} (hx : x ∈ xs) :
    ∃ y ∈ ys, R x y := by
  obtain ⟨i, hi⟩ := List.mem_iff_getElem?.1 hx
  rcases optionRel_cases (forall₂_getElem? h i) with ⟨hnone, -⟩ | ⟨x', y, hx', hy, hxy⟩
  · rw [hi] at hnone
    cases hnone
  · obtain rfl : x = x' := Option.some.inj (hi.symm.trans hx')
    exact ⟨y, List.mem_of_getElem? hy, hxy⟩

/-- The first elements that pass tests which agree. -/
theorem forall₂_find? {p : α → Bool} {q : β → Bool} (h : List.Forall₂ R xs ys)
    (hpq : ∀ x y, R x y → p x = q y) : Option.Rel R (xs.find? p) (ys.find? q) := by
  induction h with
  | nil => exact .none
  | @cons x y xs ys hxy _ ih =>
    rw [List.find?_cons, List.find?_cons, ← hpq x y hxy]
    cases p x with
    | true => exact .some hxy
    | false => exact ih

end Forall₂

/-! ## 2. References and values -/

/-- The same singleton, or two handles that stand for each other. -/
inductive Ref.Alike (pairs : Pairing) : Ref → Ref → Prop where
  | nil : Ref.Alike pairs .nil .nil
  | bool (b : Bool) : Ref.Alike pairs (.bool b) (.bool b)
  | heap {a b : Handle} : pairs a b → Ref.Alike pairs (.heap a) (.heap b)

/-- The elements of a vector or the fields of an instance, as a list; of anything else none. -/
def Payload.items (p : Payload) : List Ref := (p.elements?.getD #[]).toList

/-- Two payloads that are the same when read through a pairing. -/
inductive Payload.Alike (pairs : Pairing) : Payload → Payload → Prop where
  | vector {xs ys : Array Ref} : List.Forall₂ (Ref.Alike pairs) xs.toList ys.toList →
      Payload.Alike pairs (.vector xs) (.vector ys)
  | fields {xs ys : Array Ref} : List.Forall₂ (Ref.Alike pairs) xs.toList ys.toList →
      Payload.Alike pairs (.fields xs) (.fields ys)
  | plain {p : Payload} : p.elements? = none → Payload.Alike pairs p p

/-- Two values that are the same when read through a pairing. -/
structure Value.Alike (pairs : Pairing) (v w : Value) : Prop where
  type_eq : v.type = w.type
  payload : v.payload.Alike pairs w.payload

section Values

variable {pairs pairs' : Pairing} {r s : Ref} {p q : Payload} {v w : Value}

/-- References alike under another pairing. -/
theorem Ref.Alike.transfer (h : r.Alike pairs s)
    (himp : ∀ a b, r = .heap a → s = .heap b → pairs a b → pairs' a b) : r.Alike pairs' s := by
  cases h with
  | nil => exact .nil
  | bool b => exact .bool b
  | heap hab => exact .heap (himp _ _ rfl rfl hab)

/-- The handles of a payload are those among its items. -/
theorem Payload.mem_refs {h : Handle} : h ∈ p.refs ↔ Ref.heap h ∈ p.items := by
  have hmem : ∀ xs : List Ref, h ∈ xs.filterMap Ref.handle? ↔ Ref.heap h ∈ xs := by
    intro xs
    rw [List.mem_filterMap]
    constructor
    · rintro ⟨r, hr, hh⟩
      cases r with
      | heap a =>
        obtain rfl : a = h := by simpa [Ref.handle?] using hh
        exact hr
      | nil => simp [Ref.handle?] at hh
      | bool b => simp [Ref.handle?] at hh
    · intro hr
      exact ⟨_, hr, rfl⟩
  unfold Payload.refs Payload.items
  cases p.elements? with
  | none => simp
  | some xs => exact hmem xs.toList

/-- Items of payloads that are alike are alike. -/
theorem Payload.Alike.items (h : p.Alike pairs q) :
    List.Forall₂ (Ref.Alike pairs) p.items q.items := by
  cases h with
  | vector hxy => exact hxy
  | fields hxy => exact hxy
  | plain hp =>
    rw [Payload.items, hp]
    exact .nil

/-- Payloads alike under another pairing. -/
theorem Payload.Alike.transfer (h : p.Alike pairs q)
    (himp : ∀ a b, a ∈ p.refs → b ∈ q.refs → pairs a b → pairs' a b) : p.Alike pairs' q := by
  have hitems : List.Forall₂ (Ref.Alike pairs') p.items q.items := by
    refine forall₂_transfer h.items fun r hr s hs hrs => hrs.transfer fun a b ha hb hab => ?_
    exact himp a b (Payload.mem_refs.2 (ha ▸ hr)) (Payload.mem_refs.2 (hb ▸ hs)) hab
  cases h with
  | vector _ => exact .vector hitems
  | fields _ => exact .fields hitems
  | plain hp => exact .plain hp

/-- Values alike under another pairing. -/
theorem Value.Alike.transfer (h : v.Alike pairs w)
    (himp : ∀ a b, a ∈ v.refs → b ∈ w.refs → pairs a b → pairs' a b) : v.Alike pairs' w :=
  ⟨h.type_eq, h.payload.transfer himp⟩

/-- A value without items is alike to itself. -/
theorem Value.Alike.plain (hv : v.payload.elements? = none) : v.Alike pairs v :=
  ⟨rfl, .plain hv⟩

/-- References that are alike under a pairing of equals are equal. -/
theorem Ref.Alike.eq (h : r.Alike pairs s) (heq : ∀ a b, pairs a b → a = b) : r = s := by
  cases h with
  | nil => rfl
  | bool b => rfl
  | heap hab => rw [heq _ _ hab]

/-- Values that are alike under a pairing of equals are equal. -/
theorem Value.Alike.eq (h : v.Alike pairs w) (heq : ∀ a b, pairs a b → a = b) : v = w := by
  have hlist : ∀ {xs ys : Array Ref},
      List.Forall₂ (Ref.Alike pairs) xs.toList ys.toList → xs = ys := fun hxy => by
    have heqs := hxy.imp fun _ _ hrs => hrs.eq heq
    rw [List.forall₂_eq_eq_eq] at heqs
    exact Array.toList_inj.1 heqs
  obtain ⟨ht, hp⟩ := h
  cases v with
  | mk t p =>
    cases w with
    | mk t' p' =>
      obtain rfl : t = t' := ht
      cases hp with
      | vector hxy => rw [hlist hxy]
      | fields hxy => rw [hlist hxy]
      | plain _ => rfl

/-- A pairing that is one-to-one respects the identity of references. -/
theorem Ref.Alike.beq_eq {r' s' : Ref} (h : r.Alike pairs s) (h' : r'.Alike pairs s')
    (hfun : ∀ a b b', pairs a b → pairs a b' → b = b')
    (hinj : ∀ a a' b, pairs a b → pairs a' b → a = a') : (r == r') = (s == s') := by
  rw [Bool.eq_iff_iff, beq_iff_eq, beq_iff_eq]
  cases h with
  | nil => cases h' <;> simp
  | bool b => cases h' <;> simp
  | @heap a b hab =>
    cases h' with
    | nil => simp
    | bool _ => simp
    | @heap a' b' hab' =>
      simp only [Ref.heap.injEq]
      constructor
      · rintro rfl
        exact hfun _ _ _ hab hab'
      · rintro rfl
        exact hinj _ _ _ hab hab'

/-- Alike references are true in a condition together. -/
theorem Ref.Alike.isTruthy_eq (h : r.Alike pairs s) : r.isTruthy = s.isTruthy := by
  cases h <;> rfl

/-- Alike references are the same boolean. -/
theorem Ref.Alike.bool?_eq (h : r.Alike pairs s) : r.bool? = s.bool? := by
  cases h <;> rfl

/-- What a payload is, as far as no handle is involved. -/
theorem Payload.Alike.number?_eq (h : p.Alike pairs q) : p.number? = q.number? := by
  cases h <;> rfl

theorem Payload.Alike.str?_eq (h : p.Alike pairs q) : p.str? = q.str? := by
  cases h <;> rfl

theorem Payload.Alike.int?_eq (h : p.Alike pairs q) : p.int? = q.int? := by
  cases h <;> rfl

theorem Payload.Alike.type?_eq (h : p.Alike pairs q) : p.type? = q.type? := by
  cases h <;> rfl

end Values

/-! ## 3. Scopes -/

/-- Two bindings that are the same when read through a pairing. -/
structure Entry.Alike (pairs : Pairing) (e f : Entry) : Prop where
  value : e.value.Alike pairs f.value
  mutability_eq : e.mutability = f.mutability
  location_eq : e.location = f.location

/-- Bindings that are alike under a pairing of equals are equal. -/
theorem Entry.Alike.eq {pairs : Pairing} {e f : Entry} (h : e.Alike pairs f)
    (heq : ∀ a b, pairs a b → a = b) : e = f := by
  obtain ⟨hv, hm, hl⟩ := h
  cases e with
  | mk v m l =>
    obtain rfl : v = f.value := hv.eq heq
    obtain rfl : m = f.mutability := hm
    obtain rfl : l = f.location := hl
    rfl

/-- Two lists of bindings that are the same when read through a pairing. -/
abbrev Bindings.Alike (pairs : Pairing) (b c : Bindings) : Prop :=
  List.Forall₂ (fun x y => x.1 = y.1 ∧ x.2.Alike pairs y.2) b c

/-- Two frames that are the same when read through a pairing. -/
structure Frame.Alike (pairs : Pairing) (f g : Frame) : Prop where
  id_eq : f.id = g.id
  parent_eq : f.parent = g.parent
  entries : Bindings.Alike pairs f.entries g.entries

/-- Two stacks of scopes that are the same when read through a pairing. -/
structure ScopeStack.Alike (pairs : Pairing) (s t : ScopeStack) : Prop where
  frames : List.Forall₂ (Frame.Alike pairs) s.frames.toList t.frames.toList
  next_eq : s.next = t.next

section Scopes

variable {pairs pairs' : Pairing} {s t : ScopeStack}

/-- The handles bound in a frame are gathered in front of those gathered before. -/
theorem Bindings.foldl_refs (b : Bindings) (acc : List Handle) :
    b.foldl (fun acc (_, e) =>
      match e.value with | .heap h => h :: acc | .nil | .bool _ => acc) acc =
      (b.filterMap fun x => x.2.value.handle?).reverse ++ acc := by
  induction b generalizing acc with
  | nil => rfl
  | cons x b ih =>
    rw [List.foldl_cons, ih]
    cases hx : x.2.value <;> simp [hx, Ref.handle?]

/-- The handles of a stack of scopes, frame by frame. -/
theorem ScopeStack.mem_refs_iff (s : ScopeStack) (h : Handle) :
    h ∈ s.refs ↔ ∃ f ∈ s.frames.toList, h ∈ f.entries.filterMap fun x => x.2.value.handle? := by
  have hfold : ∀ {gather : List Handle → Frame → List Handle},
      (∀ acc f, gather acc f = (f.entries.filterMap fun x => x.2.value.handle?).reverse ++ acc) →
      ∀ (fs : List Frame) (acc : List Handle), h ∈ fs.foldl gather acc ↔
        h ∈ acc ∨ ∃ f ∈ fs, h ∈ f.entries.filterMap fun x => x.2.value.handle? := by
    intro gather hgather fs
    induction fs with
    | nil => simp
    | cons f fs ih =>
      intro acc
      rw [List.foldl_cons, ih, hgather, List.exists_mem_cons_iff, List.mem_append, List.mem_reverse]
      tauto
  rw [refs, ← Array.foldl_toList]
  exact (hfold (fun acc f => Bindings.foldl_refs f.entries acc) _ []).trans (by simp)

/-- What a binding of a frame refers to is among the handles of the stack. -/
theorem ScopeStack.mem_refs {h : Handle} {f : Frame} {n : Name} {e : Entry}
    (hf : f ∈ s.frames) (he : (n, e) ∈ f.entries) (hv : e.value = .heap h) : h ∈ s.refs := by
  refine (s.mem_refs_iff h).2 ⟨f, Array.mem_toList_iff.2 hf, List.mem_filterMap.2 ⟨_, he, ?_⟩⟩
  rw [hv]
  rfl

/-- Stacks alike under another pairing. -/
theorem ScopeStack.Alike.transfer (h : s.Alike pairs t)
    (himp : ∀ a b, a ∈ s.refs → b ∈ t.refs → pairs a b → pairs' a b) : s.Alike pairs' t := by
  refine ⟨forall₂_transfer h.frames fun f hf g hg hfg => ?_, h.next_eq⟩
  refine ⟨hfg.id_eq, hfg.parent_eq, forall₂_transfer hfg.entries fun x hx y hy hxy => ?_⟩
  refine ⟨hxy.1, ?_, hxy.2.mutability_eq, hxy.2.location_eq⟩
  refine hxy.2.value.transfer fun a b ha hb hab => himp a b ?_ ?_ hab
  · exact mem_refs (Array.mem_toList_iff.1 hf) hx ha
  · exact mem_refs (Array.mem_toList_iff.1 hg) hy hb

/-! ### Looking names up -/

/-- The bindings of a name in lists that are alike. -/
theorem Bindings.Alike.get? {b c : Bindings} (h : Bindings.Alike pairs b c) (name : Name) :
    Option.Rel (Entry.Alike pairs) (b.get? name) (c.get? name) := by
  induction h with
  | nil => exact .none
  | @cons x y b c hxy _ ih =>
    obtain ⟨n, e⟩ := x
    obtain ⟨n', e'⟩ := y
    obtain ⟨rfl, he⟩ : n = n' ∧ e.Alike pairs e' := hxy
    unfold Bindings.get?
    by_cases hn : n = name
    · rw [if_pos hn, if_pos hn]
      exact .some he
    · rw [if_neg hn, if_neg hn]
      exact ih

/-- Another value for one name in lists that are alike. -/
theorem Bindings.Alike.setValue {b c : Bindings} (h : Bindings.Alike pairs b c) (name : Name)
    {r r' : Ref} (hr : r.Alike pairs r') :
    Bindings.Alike pairs (b.setValue name r) (c.setValue name r') := by
  induction h with
  | nil => exact .nil
  | @cons x y b c hxy hbc ih =>
    obtain ⟨n, e⟩ := x
    obtain ⟨n', e'⟩ := y
    obtain ⟨rfl, he⟩ : n = n' ∧ e.Alike pairs e' := hxy
    unfold Bindings.setValue
    by_cases hn : n = name
    · rw [if_pos hn, if_pos hn]
      exact .cons ⟨rfl, hr, he.mutability_eq, he.location_eq⟩ hbc
    · rw [if_neg hn, if_neg hn]
      exact .cons ⟨rfl, he⟩ ih

namespace ScopeStack.Alike

/-- Alike stacks are equally deep. -/
theorem size_eq (h : s.Alike pairs t) : s.frames.size = t.frames.size := by
  simpa using h.frames.length_eq

theorem depth_eq (h : s.Alike pairs t) : s.depth = t.depth := h.size_eq

theorem top_eq (h : s.Alike pairs t) : s.top = t.top := by
  rw [top, top, h.depth_eq]

/-- The frames at one position. -/
theorem frame (h : s.Alike pairs t) {i : Nat} (hi : i < s.frames.size) (hj : i < t.frames.size) :
    s.frames[i].Alike pairs t.frames[i] := by
  exact h.frames.get (by simpa using hi) (by simpa using hj)

/-- The innermost frames have the same identity. -/
theorem current_eq (h : s.Alike pairs t) : s.current = t.current := by
  have htop := h.top_eq
  have hs := s.top_lt
  have ht := t.top_lt
  have hid := (h.frame hs (htop ▸ ht)).id_eq
  simp only [current]
  rw [hid]
  simp only [htop]

/-- Bisection sees identities only. -/
theorem bisect_eq {frames frames' : Array Frame} (id : ScopeId)
    (hid : ∀ (i : Nat) (h : i < frames.size) (h' : i < frames'.size), frames[i].id = frames'[i].id)
    (lo hi : Nat) (h : hi ≤ frames.size) (h' : hi ≤ frames'.size) :
    (bisect frames id lo hi h).map Fin.val = (bisect frames' id lo hi h').map Fin.val := by
  fun_induction bisect frames id lo hi h with
  | case1 lo hi h hlt mid hmid f heq =>
    have hm := hid mid hmid (by omega)
    rw [bisect, dif_pos hlt]
    simp only
    rw [if_pos (hm.symm.trans heq)]
    rfl
  | case2 lo hi h hlt mid hmid f hne hless ih =>
    have hm := hid mid hmid (by omega)
    conv => rhs; rw [bisect, dif_pos hlt]
    simp only
    rw [if_neg fun he => hne (hm.trans he), if_pos (hm ▸ hless)]
    exact ih h'
  | case3 lo hi h hlt mid hmid f hne hless ih =>
    have hm := hid mid hmid (by omega)
    conv => rhs; rw [bisect, dif_pos hlt]
    simp only
    rw [if_neg fun he => hne (hm.trans he), if_neg fun hl => hless (hm ▸ hl)]
    exact ih (by omega)
  | case4 lo hi h hlt =>
    rw [bisect, dif_neg hlt]
    rfl

/-- A name resolves at the same position in alike stacks, to alike bindings. -/
theorem resolveFrom (h : s.Alike pairs t) (name : Name) (i : Nat) (hi : i < s.frames.size)
    (hj : i < t.frames.size) :
    Option.Rel (fun x y => x.1 = y.1 ∧ x.2.Alike pairs y.2)
      (s.resolveFrom name i hi) (t.resolveFrom name i hj) := by
  induction i using Nat.strongRecOn with
  | ind i ih =>
    have hf := h.frame hi hj
    rw [ScopeStack.resolveFrom, ScopeStack.resolveFrom]
    rcases optionRel_cases (hf.entries.get? name) with ⟨hs, ht⟩ | ⟨e, e', hs, ht, he⟩
    · rw [hs, ht]
      have hp := hf.parent_eq
      simp only
      split
      · next hnone =>
        split
        · exact .none
        · next p hsome =>
          rw [hp, hsome] at hnone
          cases hnone
      · next p hsome =>
        split
        · next hnone =>
          rw [hp, hnone] at hsome
          cases hsome
        · next p' hsome' =>
          obtain rfl : p' = p := by
            rw [hp, hsome'] at hsome
            exact Option.some.inj hsome
          exact ih p' (s.below i hi p' hsome) _ _
    · rw [hs, ht]
      exact .some ⟨rfl, he⟩

/-- The nearest bindings of a name. -/
theorem resolve (h : s.Alike pairs t) (name : Name) :
    Option.Rel (fun x y => x.1 = y.1 ∧ x.2.Alike pairs y.2) (s.resolve name) (t.resolve name) := by
  have hres := h.resolveFrom name s.top s.top_lt (h.top_eq ▸ t.top_lt)
  simp only [ScopeStack.resolve]
  simp only [h.top_eq] at hres ⊢
  exact hres

theorem findNearest (h : s.Alike pairs t) (name : Name) :
    Option.Rel (Entry.Alike pairs) (s.findNearest name) (t.findNearest name) := by
  unfold ScopeStack.findNearest
  rcases optionRel_cases (h.resolve name) with ⟨hs, ht⟩ | ⟨x, y, hs, ht, hxy⟩
  · rw [hs, ht]
    exact .none
  · rw [hs, ht]
    exact .some hxy.2

/-- Alike stacks accept and refuse the same assignments. -/
theorem checkAssign_eq (h : s.Alike pairs t) (name : Name) :
    s.checkAssign name = t.checkAssign name := by
  unfold ScopeStack.checkAssign
  rcases optionRel_cases (h.findNearest name) with ⟨hs, ht⟩ | ⟨e, e', hs, ht, he⟩
  · rw [hs, ht]
  · simp only [hs, ht, he.mutability_eq]

/-! ### Changing stacks -/

/-- A new frame on alike stacks. -/
theorem pushAt (h : s.Alike pairs t) {i j : Nat} (hij : i = j) (hi : i < s.frames.size)
    (hj : j < t.frames.size) : (s.pushAt i hi).Alike pairs (t.pushAt j hj) := by
  refine ⟨?_, by simp [ScopeStack.pushAt, h.next_eq]⟩
  simp only [ScopeStack.pushAt, Array.toList_push]
  refine List.rel_append h.frames (.cons ⟨?_, ?_, .nil⟩ .nil)
  · rw [h.next_eq]
  · rw [hij]

theorem push (h : s.Alike pairs t) : s.push.Alike pairs t.push := h.pushAt h.top_eq _ _

/-- A function body on alike stacks: both find the same parent. -/
theorem pushFunction (h : s.Alike pairs t) (parent : ScopeId) :
    (s.pushFunction parent).Alike pairs (t.pushFunction parent) := by
  refine h.pushAt ?_ (Fin.isLt _) (Fin.isLt _)
  have hpos : (s.position? parent).map Fin.val = (t.position? parent).map Fin.val := by
    unfold position?
    simp only [h.depth_eq]
    exact bisect_eq parent (fun i hi hj => (h.frame hi hj).id_eq) 0 t.depth _ _
  cases hs : s.position? parent with
  | none =>
    cases ht : t.position? parent with
    | none => rfl
    | some j => simp [hs, ht] at hpos
  | some i =>
    cases ht : t.position? parent with
    | none => simp [hs, ht] at hpos
    | some j => simpa [hs, ht] using hpos

/-- The first frames of alike stacks. -/
theorem keep (h : s.Alike pairs t) {n m : Nat} (hnm : n = m) (hn : 0 < n) (hm : 0 < m) :
    (s.keep n hn).Alike pairs (t.keep m hm) := by
  refine ⟨?_, h.next_eq⟩
  subst hnm
  simp only [ScopeStack.keep, Array.toList_shrink]
  exact List.forall₂_take n h.frames

theorem pop (h : s.Alike pairs t) : s.pop.Alike pairs t.pop := by
  unfold ScopeStack.pop
  have hd := h.depth_eq
  by_cases hlt : 1 < s.depth
  · rw [dif_pos hlt, dif_pos (hd ▸ hlt)]
    exact h.keep (by rw [hd]) _ _
  · rw [dif_neg hlt, dif_neg (hd ▸ hlt)]
    exact h

/-- The same change of the bindings at one position. -/
theorem modifyEntries (h : s.Alike pairs t) (i : Nat) {f g : Bindings → Bindings}
    (hfg : ∀ b c, Bindings.Alike pairs b c → Bindings.Alike pairs (f b) (g c)) :
    (s.modifyEntries i f).Alike pairs (t.modifyEntries i g) := by
  refine ⟨forall₂_of_getElem? fun j => ?_, h.next_eq⟩
  have hj := forall₂_getElem? h.frames j
  simp only [ScopeStack.modifyEntries, Array.getElem?_toList, Array.getElem?_modify] at hj ⊢
  by_cases hij : i = j
  · rw [if_pos hij, if_pos hij]
    rcases optionRel_cases hj with ⟨hs, ht⟩ | ⟨f, f', hs, ht, hf⟩
    · rw [hs, ht]
      exact .none
    · rw [hs, ht]
      exact .some ⟨hf.id_eq, hf.parent_eq, hfg _ _ hf.entries⟩
  · rw [if_neg hij, if_neg hij]
    exact hj

/-- A binding added at one position is accepted or refused by both stacks. -/
theorem bindAt (h : s.Alike pairs t) {i j : Nat} (hij : i = j) (hi : i < s.frames.size)
    (hj : j < t.frames.size) (name : Name) {e e' : Entry} (he : e.Alike pairs e') :
    (s.bindAt i hi name e).1 = (t.bindAt j hj name e').1 ∧
      (s.bindAt i hi name e).2.Alike pairs (t.bindAt j hj name e').2 := by
  subst hij
  unfold ScopeStack.bindAt
  by_cases hn : name.isEmpty = true
  · rw [if_pos hn, if_pos hn]
    exact ⟨rfl, h⟩
  · rw [if_neg hn, if_neg hn]
    rcases optionRel_cases ((h.frame hi hj).entries.get? name) with ⟨hs, ht⟩ | ⟨_, _, hs, ht, -⟩
    · rw [hs, ht]
      exact ⟨rfl, h.modifyEntries i fun b c hbc => .cons ⟨rfl, he⟩ hbc⟩
    · rw [hs, ht]
      exact ⟨rfl, h⟩

theorem bind (h : s.Alike pairs t) (name : Name) {e e' : Entry} (he : e.Alike pairs e') :
    (s.bind name e).1 = (t.bind name e').1 ∧
      (s.bind name e).2.Alike pairs (t.bind name e').2 :=
  h.bindAt h.top_eq _ _ name he

theorem bindGlobal (h : s.Alike pairs t) (name : Name) {e e' : Entry} (he : e.Alike pairs e') :
    (s.bindGlobal name e).1 = (t.bindGlobal name e').1 ∧
      (s.bindGlobal name e).2.Alike pairs (t.bindGlobal name e').2 :=
  h.bindAt rfl _ _ name he

/-- An assignment is accepted or refused by both stacks. -/
theorem assign (h : s.Alike pairs t) (name : Name) {r r' : Ref} (hr : r.Alike pairs r') :
    (s.assign name r).1 = (t.assign name r').1 ∧
      (s.assign name r).2.Alike pairs (t.assign name r').2 := by
  unfold ScopeStack.assign
  rcases optionRel_cases (h.resolve name) with ⟨hs, ht⟩ | ⟨⟨i, e⟩, ⟨j, e'⟩, hs, ht, hij, he⟩
  · rw [hs, ht]
    exact ⟨rfl, h⟩
  · obtain rfl : i = j := hij
    have hmut : e.mutability = e'.mutability := he.mutability_eq
    simp only [hs, ht, hmut]
    by_cases hm : e'.mutability.isMutable = true
    · rw [if_pos hm, if_pos hm]
      exact ⟨rfl, h.modifyEntries i fun b c hbc => hbc.setValue name hr⟩
    · rw [if_neg hm, if_neg hm]
      exact ⟨rfl, h⟩

end ScopeStack.Alike

end Scopes

/-! ## 4. Modules -/

/-- Two modules that are the same when read through a pairing. -/
abbrev ModuleInfo.Alike (pairs : Pairing) (m n : ModuleInfo) : Prop :=
  List.Forall₂ (fun x y => x.1 = y.1 ∧ x.2.Alike pairs y.2) m.members n.members

/-- Two tables of modules that are the same when read through a pairing. -/
abbrev ModuleTable.Alike (pairs : Pairing) (t u : ModuleTable) : Prop :=
  List.Forall₂ (fun x y => x.1 = y.1 ∧ x.2.Alike pairs y.2) t.modules u.modules

/-- The values of all members of all modules. -/
def ModuleTable.values (t : ModuleTable) : List Ref :=
  t.modules.flatMap fun x => x.2.members.map Prod.snd

section Modules

variable {pairs pairs' : Pairing} {t u : ModuleTable}

/-- The handles of a table are those among its values. -/
theorem ModuleTable.refs_eq : t.refs = t.values.filterMap Ref.handle? := by
  simp only [refs, values, List.filterMap_flatMap, List.filterMap_map]
  rfl

namespace ModuleTable.Alike

/-- The values of alike tables, one by one. -/
theorem values (h : t.Alike pairs u) : List.Forall₂ (Ref.Alike pairs) t.values u.values := by
  refine List.rel_flatMap h ?_
  intro x y hxy
  exact List.rel_map (fun _ _ hab => hab.2) hxy.2

/-- Tables alike under another pairing. -/
theorem transfer (h : t.Alike pairs u)
    (himp : ∀ a b, a ∈ t.refs → b ∈ u.refs → pairs a b → pairs' a b) : t.Alike pairs' u := by
  refine forall₂_transfer h fun x hx y hy hxy => ⟨hxy.1, ?_⟩
  refine forall₂_transfer hxy.2 fun z hz w hw hzw => ⟨hzw.1, hzw.2.transfer fun a b ha hb => ?_⟩
  refine himp a b (List.mem_flatMap.2 ⟨x, hx, ?_⟩) (List.mem_flatMap.2 ⟨y, hy, ?_⟩)
  · exact List.mem_filterMap.2 ⟨z, hz, congrArg Ref.handle? ha⟩
  · exact List.mem_filterMap.2 ⟨w, hw, congrArg Ref.handle? hb⟩

/-- The modules of one name. -/
theorem get? (h : t.Alike pairs u) (name : Name) :
    Option.Rel (ModuleInfo.Alike pairs) (t.get? name) (u.get? name) := by
  have hfind := forall₂_find? (p := fun x => decide (x.1 = name))
    (q := fun x => decide (x.1 = name)) h fun x y hxy => by rw [hxy.1]
  unfold ModuleTable.get?
  rcases optionRel_cases hfind with ⟨hs, ht⟩ | ⟨x, y, hs, ht, hxy⟩
  · rw [hs, ht]
    exact .none
  · rw [hs, ht]
    exact .some hxy.2

theorem contains_eq (h : t.Alike pairs u) (name : Name) : t.contains name = u.contains name := by
  unfold ModuleTable.contains
  rcases optionRel_cases (h.get? name) with ⟨hl, hr⟩ | ⟨_, _, hl, hr, -⟩
  · rw [hl, hr]
  · rw [hl, hr]
    rfl

end ModuleTable.Alike

/-- The members of one name. -/
theorem ModuleInfo.Alike.get? {m n : ModuleInfo} (h : m.Alike pairs n) (name : Name) :
    Option.Rel (Ref.Alike pairs) (m.get? name) (n.get? name) := by
  have hfind := forall₂_find? (p := fun x => decide (x.1 = name))
    (q := fun x => decide (x.1 = name)) h fun x y hxy => by rw [hxy.1]
  unfold ModuleInfo.get?
  rcases optionRel_cases hfind with ⟨hs, ht⟩ | ⟨x, y, hs, ht, hxy⟩
  · rw [hs, ht]
    exact .none
  · rw [hs, ht]
    exact .some hxy.2

end Modules

end ScriptMachine
