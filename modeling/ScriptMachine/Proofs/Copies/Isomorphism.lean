/-
# A copy is isomorphic to its original

`Machine.duplicate` builds a copy in shells that hold original elements until the copies of those are
stored.  `Machine.Underway m₀ r m copies pending` is the invariant of that loop, for a copy of `r`
that began on the machine `m₀`:

* the table of copies is one-to-one, and leads from handles below `r` to handles that were not live
  on `m₀`;
* a shell has the type and the kind of its original, and as many items; each of them is the copy of
  the original item, or that item itself if one of the containers under way still owes its copy.

At the end nothing is owed, so the table is an isomorphism.  A visit takes an original that has no
copy yet, and there are no more of them than live values, so the end is reached within the budget.

* `Underway.write`, `Underway.visit`: one store and one visit;
* `Underway.store`, `Underway.copyFrom`: all of them;
* `Machine.duplicate_isomorphic`: the copy and its original.
-/
import Mathlib.Data.Set.Function
import ScriptMachine.Proofs.Copies.Additions
import ScriptMachine.Proofs.Safety

namespace ScriptMachine

/-! ## 1. Payloads with other items -/

/-- The same kind of payload with other items; a payload without items stays as it is. -/
def Payload.withItems (p : Payload) (items : List Ref) : Payload :=
  match p with
  | .vector _ => .vector items.toArray
  | .fields _ => .fields items.toArray
  | p => p

section WithItems

variable {pairs : Pairing} (p : Payload) (items : List Ref)

theorem Payload.withItems_items : p.withItems p.items = p := by
  cases p <;> simp [Payload.withItems, Payload.items, Payload.elements?]

theorem Payload.items_withItems {items : List Ref} (hlen : items.length = p.items.length) :
    (p.withItems items).items = items := by
  cases p with
  | vector xs => simp [Payload.withItems, Payload.items, Payload.elements?]
  | fields xs => simp [Payload.withItems, Payload.items, Payload.elements?]
  | _ =>
    simp only [Payload.items, Payload.elements?, Option.getD_none, List.length_nil,
      List.length_eq_zero_iff] at hlen
    simp [Payload.withItems, Payload.items, Payload.elements?, hlen]

theorem Payload.setElement_withItems (i : Nat) (r : Ref) :
    (p.withItems items).setElement i r = p.withItems (items.set i r) := by
  cases p <;> simp [Payload.withItems, Payload.setElement]

/-- A payload whose items were replaced by items that are alike. -/
theorem Payload.alike_withItems {p : Payload} {items : List Ref}
    (h : List.Forall₂ (Ref.Alike pairs) p.items items) : p.Alike pairs (p.withItems items) := by
  cases p with
  | vector xs => exact .vector (by simpa [Payload.items, Payload.elements?] using h)
  | fields xs => exact .fields (by simpa [Payload.items, Payload.elements?] using h)
  | _ => exact .plain rfl

end WithItems

/-! ## 2. The invariant -/

/-- Whether a container under way will still store the copy of the item at `i` of its shell `b`. -/
def Pending.Owe (pending : List Pending) (b : Handle) (i : Nat) : Prop :=
  ∃ p ∈ pending, p.shell = .heap b ∧ p.position ≤ i

/-- The containers under way, innermost first, lead from the whole to the element `e` whose copy is
stored next. -/
inductive Pending.Lead (m₀ : Machine) (r : Ref) (copies : Copies) : Ref → List Pending → Prop where
  | whole : Lead m₀ r copies r []
  | element {a b : Handle} {v : Value} {position : Nat} {e : Ref} {rest : List Ref}
      {outer : List Pending} : copies[a]? = some (.heap b) → m₀.heap.get? a = some v →
      v.payload.items.drop position = e :: rest → Lead m₀ r copies (.heap a) outer →
      Lead m₀ r copies e (⟨.heap b, position, e :: rest⟩ :: outer)

namespace Machine

/-- The shell `b` of the original `a`. -/
structure Shell (m₀ m : Machine) (copies : Copies) (pending : List Pending) (a b : Handle) :
    Prop where
  temp : Ref.heap b ∈ m.temps.toList
  fresh : m₀.heap.get? b = none
  content : ∃ v items, m₀.heap.get? a = some v ∧
    m.heap.get? b = some ⟨v.type, v.payload.withItems items⟩ ∧
    items.length = v.payload.items.length ∧
    ∀ (i : Nat) e c, v.payload.items[i]? = some e → items[i]? = some c →
      copies.known? e = some c ∨ (c = e ∧ Pending.Owe pending b i)

theorem Shell.resolves {m₀ m : Machine} {copies : Copies} {pending : List Pending} {a b : Handle}
    (hs : Shell m₀ m copies pending a b) : ∃ w, m.heap.get? b = some w := by
  obtain ⟨v, items, -, hget, -⟩ := hs.content
  exact ⟨_, hget⟩

/-- Where a copy of `r` stands that began on the machine `m₀`. -/
structure Underway (m₀ : Machine) (r : Ref) (m : Machine) (copies : Copies)
    (pending : List Pending) : Prop where
  augments : m₀.Augments m
  below : ∀ (a : Handle) c, copies[a]? = some c → a ∈ m₀.heap.Below r
  shell : ∀ (a : Handle) c, copies[a]? = some c →
    ∃ b, c = .heap b ∧ Shell m₀ m copies pending a b
  injective : ∀ (a a' : Handle) c, copies[a]? = some c → copies[a']? = some c → a = a'
  live_le : m.heap.live ≤ m₀.heap.live + copies.size

end Machine

/-- The copy is finished, or about to visit an original that has no copy yet. -/
inductive CopyState.Fits (m₀ : Machine) (r : Ref) (m : Machine) (copies : Copies) :
    CopyState → Prop where
  | finished {c : Ref} : m₀.Underway r m copies [] → copies.known? r = some c →
      Fits m₀ r m copies (.finished c)
  | visit {a : Handle} {pending : List Pending} : m₀.Underway r m copies pending →
      copies[a]? = none → Pending.Lead m₀ r copies (.heap a) pending →
      Fits m₀ r m copies (.visit (.heap a) pending)

section Table

variable {copies : Copies} {a : Handle} {c d : Ref} {e : Ref}

/-- A copy that is known stays so when another one is added. -/
theorem Copies.known?_insert (ha : copies[a]? = none) (he : copies.known? e = some d) :
    Copies.known? (copies.insert a c) e = some d := by
  cases e with
  | nil => exact he
  | bool b => exact he
  | heap x =>
    have hne : a ≠ x := by
      rintro rfl
      exact absurd (ha.symm.trans he) (by simp)
    change (copies.insert a c)[x]? = some d
    rw [Std.HashMap.getElem?_insert, if_neg (by simpa using hne)]
    exact he

/-- A copy after another one was added is the new one or an old one. -/
theorem Copies.getElem?_insert_cases {x : Handle} (hx : (copies.insert a c)[x]? = some d) :
    (x = a ∧ d = c) ∨ (x ≠ a ∧ copies[x]? = some d) := by
  rw [Std.HashMap.getElem?_insert] at hx
  by_cases hax : a = x
  · rw [if_pos (by simpa using hax)] at hx
    exact .inl ⟨hax.symm, (Option.some.inj hx).symm⟩
  · rw [if_neg (by simpa using hax)] at hx
    exact .inr ⟨fun h => hax h.symm, hx⟩

/-- Only values on the heap may have no copy. -/
theorem Copies.exists_of_known?_eq_none (he : copies.known? e = none) :
    ∃ x, e = .heap x ∧ copies[x]? = none := by
  cases e with
  | nil => cases he
  | bool b => cases he
  | heap x => exact ⟨x, rfl, he⟩

theorem Copies.getElem?_insert_self : (copies.insert a c)[a]? = some c := by
  simp

theorem Copies.size_insert_of_none (ha : copies[a]? = none) :
    (copies.insert a c).size = copies.size + 1 := by
  rw [Std.HashMap.size_insert, if_neg]
  rw [Std.HashMap.mem_iff_isSome_getElem?, ha]
  simp

end Table

namespace Pending

variable {m₀ : Machine} {r e : Ref} {copies : Copies} {pending : List Pending}

/-- The containers under way lead to the same element when another copy is added. -/
theorem Lead.insert {a : Handle} {c : Ref} (hl : Lead m₀ r copies e pending)
    (ha : copies[a]? = none) : Lead m₀ r (copies.insert a c) e pending := by
  induction hl with
  | whole => exact .whole
  | @element x b v position e rest outer hx hv hdrop _ ih =>
    exact .element (Copies.known?_insert (e := .heap x) ha hx) hv hdrop ih

end Pending

namespace Machine.Underway

variable {m₀ m m' : Machine} {r e c : Ref} {copies : Copies} {pending outer after : List Pending}
  {a b : Handle} {v : Value} {position : Nat} {rest : List Ref}

/-- The element whose copy is stored next lies below the whole. -/
theorem below_of_lead (hu : m₀.Underway r m copies pending) (hcl : m₀.heap.ClosedBelow r)
    (hr : m₀.Rooted r) (hl : Pending.Lead m₀ r copies (.heap a) pending) :
    a ∈ m₀.heap.Below r := by
  cases hl with
  | whole =>
    obtain ⟨v, hv⟩ := (hr a rfl).resolves
    exact Heap.below_heap hv
  | @element x b v position e rest outer hx hv hdrop _ =>
    have hmem : Ref.heap a ∈ v.payload.items :=
      List.mem_of_mem_drop (hdrop ▸ List.mem_cons_self)
    have hbelow := hu.below x _ hx
    obtain ⟨w, hw⟩ := hcl x hbelow v hv a (Payload.mem_refs.2 hmem)
    exact Heap.below_edge hbelow hv (Payload.mem_refs.2 hmem) hw

/-- An original resolves as when the copy began. -/
theorem get?_original (hu : m₀.Underway r m copies pending) (hr : m₀.Rooted r)
    (ha : a ∈ m₀.heap.Below r) : m.heap.get? a = m₀.heap.get? a :=
  hu.augments.get?_below hr ha

/-! ## 3. Stores -/

/-- A shell is not stale. -/
theorem stale?_shell (hu : m₀.Underway r m copies pending) (ha : copies[a]? = some (.heap b)) :
    m.stale? (.heap b) = none := by
  obtain ⟨b', hb', hs⟩ := hu.shell a _ ha
  obtain rfl := Ref.heap.inj hb'
  obtain ⟨w, hw⟩ := hs.resolves
  simp [Machine.stale?, Heap.contains_eq, hw]

/-- **One store** pays what the container owed at its position. -/
theorem write (hu : m₀.Underway r m copies pending) (ha : copies[a]? = some (.heap b))
    (hv : m₀.heap.get? a = some v) (he : v.payload.items[position]? = some e)
    (hc : copies.known? e = some c)
    (hafter : ∀ x i, Pending.Owe pending x i → Pending.Owe after x i ∨
      (x = b ∧ (i = position ∨ v.payload.items.length ≤ i))) :
    m₀.Underway r (m.modifyPayload (.heap b) (·.setElement position c)) copies after := by
  obtain ⟨b', hb', hsb⟩ := hu.shell a _ ha
  obtain rfl := Ref.heap.inj hb'
  refine ⟨hu.augments.write hsb.fresh _, hu.below, fun x d hx => ?_, hu.injective, hu.live_le⟩
  obtain ⟨y, rfl, hs⟩ := hu.shell x d hx
  obtain ⟨u, items, hu₀, hget, hlen, hitems⟩ := hs.content
  refine ⟨y, rfl, hs.temp, hs.fresh, ?_⟩
  by_cases hy : y = b
  · -- the shell that is written to
    subst hy
    obtain rfl : x = a := hu.injective x a _ hx ha
    obtain rfl : u = v := Option.some.inj (hu₀.symm.trans hv)
    refine ⟨u, items.set position c, hu₀, ?_, by simpa using hlen, fun i e' c' he' hc' => ?_⟩
    · simp only [Machine.modifyPayload, Heap.modifyPayload, Heap.get?_modifyValue, if_true, hget,
        Option.map_some, Payload.setElement_withItems]
    · rw [List.getElem?_set] at hc'
      by_cases hi : position = i
      · subst hi
        obtain rfl : e = e' := Option.some.inj (he.symm.trans he')
        rw [if_pos rfl] at hc'
        split at hc'
        · exact .inl (by rw [hc, hc'])
        · cases hc'
      · rw [if_neg hi] at hc'
        refine (hitems i e' c' he' hc').imp_right fun ⟨heq, howe⟩ => ⟨heq, ?_⟩
        rcases hafter _ _ howe with howe | ⟨-, hpos | hout⟩
        · exact howe
        · exact absurd hpos.symm hi
        · have := (List.getElem?_eq_some_iff.1 he').1
          omega
  · refine ⟨u, items, hu₀, ?_, hlen, fun i e' c' he' hc' => ?_⟩
    · simp only [Machine.modifyPayload, Heap.modifyPayload, Heap.get?_modifyValue, if_neg hy, hget]
    · refine (hitems i e' c' he' hc').imp_right fun ⟨heq, howe⟩ => ⟨heq, ?_⟩
      exact (hafter _ _ howe).resolve_right fun h => hy h.1

/-- **Stores along the containers under way** end with the whole copy, or before an original that
has none yet.  The induction is on the stores that are left. -/
theorem store (hu : m₀.Underway r m copies pending) (hl : Pending.Lead m₀ r copies e pending)
    (hc : copies.known? e = some c) :
    ∃ state m', m.store copies c pending = (state, m') ∧ state.Fits m₀ r m' copies := by
  induction hn : Pending.work pending using Nat.strongRecOn generalizing m e c pending with
  | ind n ih =>
    subst hn
    cases hl with
    | whole => exact ⟨_, m, by rw [Machine.store], .finished hu hc⟩
    | @element a b v position _ rest outer ha hv hdrop houter =>
      have hitem : v.payload.items[position]? = some e := by
        rw [← List.head?_drop, hdrop, List.head?_cons]
      have hlen : (v.payload.items.drop position).length = rest.length + 1 := by
        rw [hdrop, List.length_cons]
      rw [List.length_drop] at hlen
      rw [Machine.store, hu.stale?_shell ha]
      cases rest with
      | nil =>
        -- the last item: the container itself is the next copy to store
        refine ih _ (by simp [Pending.work]) (hu.write ha hv hitem hc fun x i howe => ?_) houter
          (show copies.known? (.heap a) = some (.heap b) from ha) rfl
        obtain ⟨p, hp, hshell, hpos⟩ := howe
        rcases List.mem_cons.1 hp with rfl | hp
        · obtain rfl := Ref.heap.inj hshell
          simp only [List.length_nil] at hlen hpos
          exact .inr ⟨rfl, by omega⟩
        · exact .inl ⟨p, hp, hshell, hpos⟩
      | cons next rest =>
        have hnext : v.payload.items.drop (position + 1) = next :: rest := by
          rw [← List.tail_drop, hdrop, List.tail_cons]
        have hlead : Pending.Lead m₀ r copies next
            (⟨.heap b, position + 1, next :: rest⟩ :: outer) := .element ha hv hnext houter
        have hwritten : m₀.Underway r (m.modifyPayload (.heap b) (·.setElement position c)) copies
            (⟨.heap b, position + 1, next :: rest⟩ :: outer) := by
          refine hu.write ha hv hitem hc fun x i howe => ?_
          obtain ⟨p, hp, hshell, hpos⟩ := howe
          rcases List.mem_cons.1 hp with rfl | hp
          · obtain rfl := Ref.heap.inj hshell
            by_cases hi : i = position
            · exact .inr ⟨rfl, .inl hi⟩
            · refine .inl ⟨_, List.mem_cons_self, rfl, ?_⟩
              simp only at hpos ⊢
              omega
          · exact .inl ⟨p, List.mem_cons_of_mem _ hp, hshell, hpos⟩
        simp only
        cases hknown : copies.known? next with
        | some d => exact ih _ (by simp [Pending.work]) hwritten hlead hknown rfl
        | none =>
          obtain ⟨x, rfl, hx⟩ := Copies.exists_of_known?_eq_none hknown
          exact ⟨_, _, rfl, .visit hwritten hx hlead⟩

/-! ## 4. Visits -/

/-- **One visit**: the new value is the shell of an original that had none. -/
theorem visit (hu : m₀.Underway r m copies pending) (ha : copies[a]? = none)
    (hbelow : a ∈ m₀.heap.Below r) (hv : m₀.heap.get? a = some v) (hal : m.Allocates v b m')
    (hold : ∀ x i, Pending.Owe pending x i → Pending.Owe after x i)
    (hnew : ∀ i < v.payload.items.length, Pending.Owe after b i) :
    m₀.Underway r (m'.root (.heap b)) (copies.insert a (.heap b)) after := by
  have hget : (m'.root (.heap b)).heap.get? b = some v := hal.get?_eq
  have hfresh : m₀.heap.get? b = none := hu.augments.fresh hal.augments hal.fresh hget
  have hne : ∀ x : Handle, copies[x]? ≠ some (.heap b) := by
    intro x hx
    obtain ⟨y, hy, hs⟩ := hu.shell x _ hx
    obtain rfl := Ref.heap.inj hy
    obtain ⟨w, hw⟩ := hs.resolves
    exact absurd (hal.fresh.symm.trans hw) (by simp)
  refine ⟨hu.augments.trans hal.augments, fun x d hx => ?_, fun x d hx => ?_,
    fun x y d hx hy => ?_, ?_⟩
  · rcases Copies.getElem?_insert_cases hx with ⟨rfl, -⟩ | ⟨-, hx⟩
    · exact hbelow
    · exact hu.below x d hx
  · rcases Copies.getElem?_insert_cases hx with ⟨rfl, rfl⟩ | ⟨-, hx⟩
    · refine ⟨b, rfl, by simp [Machine.root], hfresh, v, v.payload.items, hv, ?_, rfl,
        fun i e c he hc => .inr ⟨?_, hnew i (List.getElem?_eq_some_iff.1 he).1⟩⟩
      · rw [Payload.withItems_items]
        exact hget
      · exact Option.some.inj (hc.symm.trans he)
    · obtain ⟨y, rfl, hs⟩ := hu.shell x d hx
      obtain ⟨u, items, hu₀, hlive, hlen, hitems⟩ := hs.content
      refine ⟨y, rfl, hal.augments.temps.subset hs.temp, hs.fresh, u, items, hu₀,
        hal.augments.get?_temp hs.temp hlive, hlen, fun i e c he hc => ?_⟩
      exact (hitems i e c he hc).imp (Copies.known?_insert ha) fun ⟨heq, howe⟩ =>
        ⟨heq, hold _ _ howe⟩
  · rcases Copies.getElem?_insert_cases hx with ⟨hxa, rfl⟩ | ⟨-, hx'⟩ <;>
      rcases Copies.getElem?_insert_cases hy with ⟨hya, hd⟩ | ⟨-, hy'⟩
    · exact hxa.trans hya.symm
    · exact absurd hy' (hne y)
    · exact absurd (hd ▸ hx') (hne x)
    · exact hu.injective x y d hx' hy'
  · have hlive := hu.live_le
    have hgrown := hal.live_le
    rw [Copies.size_insert_of_none ha]
    change m'.heap.live ≤ _
    omega

/-- The originals that have a copy lie below the whole. -/
theorem mem_below (hu : m₀.Underway r m copies pending) {x : Handle} (hx : x ∈ copies) :
    x ∈ m₀.heap.Below r := by
  obtain ⟨d, hd⟩ := Option.isSome_iff_exists.1 (Std.HashMap.mem_iff_isSome_getElem?.1 hx)
  exact hu.below x d hd

/-- **The loop ends** with a copy, within a budget of as many visits as there are live values without
one, unless there is no room for as many new values as there are originals.  The induction is on the
budget. -/
theorem copyFrom (hw : m₀.heap.WellFormed) (hcl : m₀.heap.ClosedBelow r) (hr : m₀.Rooted r)
    {state : CopyState} (hs : state.Fits m₀ r m copies) {budget : Nat}
    (hb : copies.size + budget = m₀.heap.live) :
    (∃ m' c copies', m.copyFrom copies budget state = .done m' c ∧ m₀.Underway r m' copies' [] ∧
      Copies.known? copies' r = some c) ∨
    (∃ m', m.copyFrom copies budget state = .defect m' (.heapExhausted .allocFailed) ∧
      Heap.maxSlots ≤ m'.heap.live ∧
      Heap.maxSlots < m₀.heap.live + (m₀.heap.Below r).ncard) := by
  obtain ⟨hfin, hcard⟩ := hw.finite_below r
  induction budget generalizing m copies state with
  | zero =>
    cases hs with
    | finished hu hc => exact .inl ⟨m, _, copies, by rw [Machine.copyFrom], hu, hc⟩
    | @visit a pending hu ha hl =>
      have hlt := Copies.size_lt_ncard hfin (fun _ => hu.mem_below) (hu.below_of_lead hcl hr hl) ha
      omega
  | succ budget ih =>
    cases hs with
    | finished hu hc => exact .inl ⟨m, _, copies, by rw [Machine.copyFrom], hu, hc⟩
    | @visit a pending hu ha hl =>
      have hbelow := hu.below_of_lead hcl hr hl
      obtain ⟨v, hv⟩ := hbelow.resolves
      have hres : m.resolve (.heap a) = .ok v :=
        Machine.resolve_heap.2 ((hu.get?_original hr hbelow).trans hv)
      rw [Machine.copyFrom, hres]
      simp only
      rcases Machine.tryAllocate_cases hu.augments.wellFormed v with ⟨b, m₁, hal⟩ |
        ⟨m₁, hfull, hmax, hlive⟩
      swap
      · refine .inr ⟨m₁, by rw [hfull]; rfl, hmax, ?_⟩
        have hlt := Copies.size_lt_ncard hfin (fun _ => hu.mem_below) hbelow ha
        have hsize := hu.live_le
        omega
      rw [hal.eq]
      simp only
      have hsize : (copies.insert a (.heap b)).size + budget = m₀.heap.live := by
        rw [Copies.size_insert_of_none ha]
        omega
      have hself : Copies.known? (copies.insert a (.heap b)) (.heap a) = some (.heap b) :=
        Copies.getElem?_insert_self
      have hlead := hl.insert (c := .heap b) ha
      generalize hitems : (v.payload.elements?.getD #[]).toList = items
      cases items with
      | nil =>
        have hu₁ := hu.visit ha hbelow hv hal (fun _ _ howe => howe) (by
          intro i hi
          simp [Payload.items, hitems] at hi)
        obtain ⟨state, m₂, hst, hfits⟩ := hu₁.store hlead hself
        simp only [hst]
        exact ih hfits hsize
      | cons first rest =>
        have hu₁ : m₀.Underway r (m₁.root (.heap b)) (copies.insert a (.heap b))
            (⟨.heap b, 0, first :: rest⟩ :: pending) := by
          refine hu.visit ha hbelow hv hal ?_ ?_
          · rintro x i ⟨p, hp, howe⟩
            exact ⟨p, List.mem_cons_of_mem _ hp, howe⟩
          · exact fun i _ => ⟨_, List.mem_cons_self, rfl, Nat.zero_le i⟩
        have hlead₁ : Pending.Lead m₀ r (copies.insert a (.heap b)) first
            (⟨.heap b, 0, first :: rest⟩ :: pending) :=
          .element hself hv (by rw [List.drop_zero]; exact hitems) hlead
        simp only
        cases hknown : Copies.known? (copies.insert a (.heap b)) first with
        | some d =>
          obtain ⟨state, m₂, hst, hfits⟩ := hu₁.store hlead₁ hknown
          simp only [hst]
          exact ih hfits hsize
        | none =>
          obtain ⟨x, rfl, hx⟩ := Copies.exists_of_known?_eq_none hknown
          exact ih (.visit hu₁ hx hlead₁) hsize

end Machine.Underway

/-! ## 5. The isomorphism -/

/-- `f` is an isomorphism from what lies below `r` on the heap `h` to what lies below `c` on the later
heap `h'`, where `c` is made of new values only and nothing below `r` has changed. -/
structure Heap.Copied (h : Heap) (r : Ref) (h' : Heap) (c : Ref) (f : Handle → Handle) : Prop where
  bijOn : Set.BijOn f (h.Below r) (h'.Below c)
  /-- A singleton is its own copy; the copy of a value is its image. -/
  whole : r.Alike (fun a b => f a = b) c
  /-- Types, scalars, callables, lengths and the order of items are those of the original. -/
  values : ∀ a ∈ h.Below r, ∃ v w, h.get? a = some v ∧ h'.get? (f a) = some w ∧
    v.Alike (fun a b => f a = b) w
  fresh : ∀ b ∈ h'.Below c, h.get? b = none
  unchanged : ∀ a ∈ h.Below r, h'.get? a = h.get? a

namespace Machine

variable {m₀ m : Machine} {r c : Ref} {copies : Copies}

/-- The handle of a copy. -/
def imageOf (copies : Copies) (a : Handle) : Handle :=
  ((copies[a]?).bind Ref.handle?).getD a

theorem imageOf_eq {a b : Handle} (ha : copies[a]? = some (.heap b)) : imageOf copies a = b := by
  simp [imageOf, ha, Ref.handle?]

/-- A known copy is the image of its original. -/
theorem alike_of_known? (hu : m₀.Underway r m copies []) {e d : Ref}
    (hd : copies.known? e = some d) : e.Alike (fun a b => imageOf copies a = b) d := by
  cases e with
  | nil =>
    obtain rfl := Option.some.inj hd
    exact .nil
  | bool b =>
    obtain rfl := Option.some.inj hd
    exact .bool b
  | heap a =>
    obtain ⟨b, rfl, -⟩ := hu.shell a d hd
    exact .heap (imageOf_eq hd)

/-- When nothing is owed any more, a shell is alike to its original. -/
theorem Underway.alike (hu : m₀.Underway r m copies []) {a : Handle} {d : Ref}
    (ha : copies[a]? = some d) : ∃ v w, m₀.heap.get? a = some v ∧
      m.heap.get? (imageOf copies a) = some w ∧ v.Alike (fun a b => imageOf copies a = b) w ∧
      List.Forall₂ (fun e d => copies.known? e = some d) v.payload.items w.payload.items := by
  obtain ⟨b, rfl, hs⟩ := hu.shell a d ha
  obtain ⟨v, items, hv, hget, hlen, hitems⟩ := hs.content
  have hknown : List.Forall₂ (fun e d => copies.known? e = some d) v.payload.items items := by
    refine List.forall₂_iff_get.2 ⟨hlen.symm, fun i hi hi' => ?_⟩
    rcases hitems i _ _ (List.getElem?_eq_getElem hi) (List.getElem?_eq_getElem hi') with
      hknown | ⟨-, p, hp, -⟩
    · exact hknown
    · simp at hp
  refine ⟨v, ⟨v.type, v.payload.withItems items⟩, hv, by rw [imageOf_eq ha, hget],
    ⟨rfl, Payload.alike_withItems ?_⟩, ?_⟩
  · exact hknown.imp fun e d he => alike_of_known? hu he
  · rw [Payload.items_withItems _ hlen]
    exact hknown

/-- Everything below the original has a copy, and that copy lies below the whole copy. -/
theorem Underway.exists_copy (hu : m₀.Underway r m copies []) (hc : copies.known? r = some c)
    {a : Handle} (ha : a ∈ m₀.heap.Below r) :
    ∃ b, copies[a]? = some (Ref.heap b) ∧ b ∈ m.heap.Below c := by
  induction ha with
  | @root a v hmem hv =>
    obtain rfl := Ref.mem_handle?.1 hmem
    obtain ⟨b, rfl, hs⟩ := hu.shell a c hc
    obtain ⟨w, hw⟩ := hs.resolves
    exact ⟨b, hc, Heap.below_heap hw⟩
  | @edge a a' v v' _ hv hmem _ ih =>
    obtain ⟨b, hb, hbelow⟩ := ih
    obtain ⟨u, w, hu₀, hw, -, hknown⟩ := hu.alike hb
    obtain rfl : u = v := Option.some.inj (hu₀.symm.trans hv)
    rw [imageOf_eq hb] at hw
    obtain ⟨d, hd, hkd⟩ := exists_mem_of_forall₂ hknown (Payload.mem_refs.1 hmem)
    obtain ⟨b', rfl, hs⟩ := hu.shell a' d hkd
    obtain ⟨w', hw'⟩ := hs.resolves
    exact ⟨b', hkd, Heap.below_edge hbelow hw (Payload.mem_refs.2 hd) hw'⟩

/-- A copy on the heap is that of a value on the heap. -/
theorem exists_of_known?_heap {e : Ref} {b : Handle} (h : copies.known? e = some (.heap b)) :
    ∃ a : Handle, copies[a]? = some (.heap b) := by
  cases e with
  | nil => cases h
  | bool x => cases h
  | heap a => exact ⟨a, h⟩

/-- Everything below the whole copy is the copy of something. -/
theorem Underway.exists_original (hu : m₀.Underway r m copies []) (hc : copies.known? r = some c)
    {b : Handle} (hb : b ∈ m.heap.Below c) : ∃ a : Handle, copies[a]? = some (.heap b) := by
  induction hb with
  | @root b w hmem _ =>
    obtain rfl := Ref.mem_handle?.1 hmem
    exact exists_of_known?_heap hc
  | @edge b b' w w' _ hw hmem _ ih =>
    obtain ⟨a, ha⟩ := ih
    obtain ⟨v, u, -, hu₁, -, hknown⟩ := hu.alike ha
    rw [imageOf_eq ha] at hu₁
    obtain rfl : u = w := Option.some.inj (hu₁.symm.trans hw)
    obtain ⟨e, he, hke⟩ := exists_mem_of_forall₂ hknown.flip (Payload.mem_refs.1 hmem)
    exact exists_of_known?_heap hke

/-- **At the end of the loop the table of copies is an isomorphism.** -/
theorem Underway.copied (hu : m₀.Underway r m copies []) (hr : m₀.Rooted r)
    (hc : copies.known? r = some c) : m₀.heap.Copied r m.heap c (imageOf copies) := by
  refine ⟨⟨fun a ha => ?_, fun a ha a' ha' heq => ?_, fun b hb => ?_⟩, alike_of_known? hu hc,
    fun a ha => ?_, fun b hb => ?_, fun a ha => hu.get?_original hr ha⟩
  · obtain ⟨b, hb, hbelow⟩ := hu.exists_copy hc ha
    rwa [imageOf_eq hb]
  · obtain ⟨b, hb, -⟩ := hu.exists_copy hc ha
    obtain ⟨b', hb', -⟩ := hu.exists_copy hc ha'
    rw [imageOf_eq hb, imageOf_eq hb'] at heq
    exact hu.injective a a' _ hb (heq ▸ hb')
  · obtain ⟨a, ha⟩ := hu.exists_original hc hb
    exact ⟨a, hu.below a _ ha, imageOf_eq ha⟩
  · obtain ⟨b, hb, -⟩ := hu.exists_copy hc ha
    obtain ⟨v, w, hv, hw, hvw, -⟩ := hu.alike hb
    exact ⟨v, w, hv, hw, hvw⟩
  · obtain ⟨a, ha⟩ := hu.exists_original hc hb
    obtain ⟨b', hb', hs⟩ := hu.shell a _ ha
    obtain rfl := Ref.heap.inj hb'
    exact hs.fresh

/-- A singleton is its own copy. -/
theorem copied_singleton (hr : ∀ a, r ≠ .heap a) : m.heap.Copied r m.heap r id := by
  have hnone : ∀ a, a ∉ m.heap.Below r := fun a => Heap.not_below_of_singleton hr
  refine ⟨⟨fun a ha => absurd ha (hnone a), fun a ha => absurd ha (hnone a),
    fun a ha => absurd ha (hnone a)⟩, ?_, fun a ha => absurd ha (hnone a),
    fun a ha => absurd ha (hnone a), fun a _ => rfl⟩
  cases r with
  | nil => exact .nil
  | bool b => exact .bool b
  | heap a => exact absurd rfl (hr a)

/-- The copy of a value that the roots reach, if all below it resolves.  The machine has made new
values only, and the copy is a root. -/
theorem duplicate_cases (hw : m.heap.WellFormed) (hcl : m.heap.ClosedBelow r) (hr : m.Rooted r) :
    (∃ m' c f, m.duplicate r = .done m' c ∧ m.Augments m' ∧ m'.Rooted c ∧
      m'.heap.live ≤ m.heap.live + (m.heap.Below r).ncard ∧ m.heap.Copied r m'.heap c f) ∨
    (∃ m', m.duplicate r = .defect m' (.heapExhausted .allocFailed) ∧
      Heap.maxSlots ≤ m'.heap.live ∧
      Heap.maxSlots < m.heap.live + (m.heap.Below r).ncard) := by
  cases r with
  | nil =>
    exact .inl ⟨m, .nil, id, rfl, .refl hw, nofun, Nat.le_add_right _ _, copied_singleton nofun⟩
  | bool b =>
    exact .inl ⟨m, .bool b, id, rfl, .refl hw, nofun, Nat.le_add_right _ _, copied_singleton nofun⟩
  | heap a =>
    have hu : m.Underway (.heap a) m ∅ [] :=
      ⟨.refl hw, by simp, by simp, by simp, Nat.le_add_right _ _⟩
    have hbudget : (∅ : Copies).size + m.heap.live = m.heap.live := by simp
    rcases Underway.copyFrom hw hcl hr (.visit hu (by simp) .whole) hbudget with
      ⟨m', c, copies, hdone, hu', hc⟩ | hfull
    · refine .inl ⟨m', c, imageOf copies, hdone, hu'.augments, fun b hb => ?_, ?_,
        hu'.copied hr hc⟩
      · obtain ⟨b', rfl, hs⟩ := hu'.shell a c hc
        obtain rfl := Ref.heap.inj hb
        obtain ⟨w, hw⟩ := hs.resolves
        exact reach_of_temp hs.temp hw
      · have hsize := Copies.size_le_ncard (hw.finite_below (.heap a)).1 fun _ => hu'.mem_below
        have hlive := hu'.live_le
        omega
    · exact .inr hfull

/-- **A copy is independent of its original and isomorphic to it.**  On a machine with a closed heap,
the copy of any value that the roots reach comes to its end, whatever is shared or cyclic and however
many collections there are.  It is made of new values, is mapped onto from the original one to one
with types, scalars, callables, singletons, lengths and the order of items, and leaves the original
as it was.  The only other end is a heap with all of its 2^32 slots in use, which are then too few
for what was live before and a copy of what lies below the value. -/
theorem duplicate_isomorphic (m : Machine) (hw : m.heap.WellFormed) (hcl : m.heap.Closed) (r : Ref)
    (hr : m.Rooted r) :
    (∃ m' c f, m.duplicate r = .done m' c ∧ m.heap.Copied r m'.heap c f) ∨
    (∃ m', m.duplicate r = .defect m' (.heapExhausted .allocFailed) ∧
      Heap.maxSlots ≤ m'.heap.live ∧
      Heap.maxSlots < m.heap.live + (m.heap.Below r).ncard) := by
  rcases duplicate_cases hw (hcl.below r) hr with ⟨m', c, f, hdone, -, -, -, hcopied⟩ | hfull
  · exact .inl ⟨m', c, f, hdone, hcopied⟩
  · exact .inr hfull

/-- Two vectors that hold each other, one of them twice. -/
def ring : Heap :=
  let h := ((Heap.initial ⟨0, true⟩).insert (.ofVector #[])).2
  let h := (h.insert (.ofVector #[.bool true, .heap ⟨0, 0⟩, .heap ⟨0, 0⟩])).2
  h.modifyValue ⟨0, 0⟩ fun _ => .ofVector #[.heap ⟨1, 0⟩]

/-- A machine whose only root is the second vector of the ring, and which collects at every
allocation. -/
def ofRing : Machine :=
  { bare ⟨⟨0, true⟩, none, .terminal, false, .standard⟩ .initial with
    heap := ring, temps := #[.heap ⟨1, 0⟩] }

theorem ring_wellFormed : ring.WellFormed := by
  have hempty : (Heap.initial ⟨0, true⟩).WellFormed := ⟨[], [], .initial ⟨0, true⟩⟩
  obtain ⟨used, free, hl⟩ := (hempty.insert_snd (.ofVector #[])).insert_snd
    (.ofVector #[.bool true, .heap ⟨0, 0⟩, .heap ⟨0, 0⟩])
  exact ⟨used, free, hl.write ⟨0, 0⟩ fun _ => .ofVector #[.heap ⟨1, 0⟩]⟩

theorem ring_cases {a : Handle} {v : Value} (hv : ring.get? a = some v) :
    (a = ⟨0, 0⟩ ∧ v = .ofVector #[.heap ⟨1, 0⟩]) ∨
    (a = ⟨1, 0⟩ ∧ v = .ofVector #[.bool true, .heap ⟨0, 0⟩, .heap ⟨0, 0⟩]) := by
  obtain ⟨used, free, hl⟩ := ring_wellFormed
  have hlist : ring.listing = [(⟨0, 0⟩, .ofVector #[.heap ⟨1, 0⟩]),
    (⟨1, 0⟩, .ofVector #[.bool true, .heap ⟨0, 0⟩, .heap ⟨0, 0⟩])] := rfl
  have hmem := (hl.mem_listing_iff a v).2 hv
  rw [hlist, List.mem_cons, List.mem_singleton] at hmem
  exact hmem.imp Prod.mk.inj Prod.mk.inj

theorem ring_closed : ring.Closed := by
  intro a v hv b hb
  rcases ring_cases hv with ⟨rfl, rfl⟩ | ⟨rfl, rfl⟩
  · obtain rfl : b = ⟨1, 0⟩ := by
      simpa [Value.refs, Value.ofVector, Payload.refs, Payload.elements?, Ref.handle?] using hb
    exact ⟨_, rfl⟩
  · obtain rfl : ⟨0, 0⟩ = b := by
      simpa [Value.refs, Value.ofVector, Payload.refs, Payload.elements?, Ref.handle?] using hb
    exact ⟨_, rfl⟩

theorem ofRing_rooted : ofRing.Rooted (.heap ⟨1, 0⟩) := by
  intro a ha
  obtain rfl := Ref.heap.inj ha
  exact .root (v := .ofVector #[.bool true, .heap ⟨0, 0⟩, .heap ⟨0, 0⟩])
    (by simp [ofRing, Machine.roots, Ref.handle?]) rfl

/-- The ring has a copy. -/
theorem duplicate_isomorphic_ring :
    ∃ m' c f, ofRing.duplicate (.heap ⟨1, 0⟩) = .done m' c ∧
      ofRing.heap.Copied (.heap ⟨1, 0⟩) m'.heap c f := by
  rcases duplicate_isomorphic ofRing ring_wellFormed ring_closed (.heap ⟨1, 0⟩) ofRing_rooted with
    hdone | ⟨m', -, -, hmax⟩
  · exact hdone
  · have hcard : (ofRing.heap.Below (.heap ⟨1, 0⟩)).ncard ≤ ofRing.heap.live :=
      (Heap.WellFormed.finite_below ring_wellFormed _).2
    have hlive : ofRing.heap.live = 2 := rfl
    simp only [Heap.maxSlots] at hmax
    omega

/-! ## 6. The machines that hosts come to -/

/-- The heap of a sound machine is in order. -/
theorem Sound.wellFormed (h : m.Sound) : m.heap.WellFormed := by
  obtain ⟨w, rfl⟩ := h
  exact w.leftHeap

/-- The heap of a sound machine is closed. -/
theorem Sound.closed (h : m.Sound) : m.heap.Closed := by
  obtain ⟨w, rfl⟩ := h
  intro a v hv b hb
  obtain ⟨x, y, hx, -, hxy, -⟩ := w.values a a (w.total trivial a v hv)
  obtain rfl : x = v := Option.some.inj (hx.symm.trans hv)
  obtain ⟨s, -, hs⟩ := exists_mem_of_forall₂ hxy.payload.items (Payload.mem_refs.1 hb)
  cases hs with
  | heap hpair =>
    obtain ⟨z, -, hz, -⟩ := w.values _ _ hpair
    exact ⟨z, hz⟩

/-- On a sound machine the collector runs if it is on and due before the slots are all in use. -/
theorem Sound.collects (h : m.Sound) (henabled : m.heap.config.enabled = true)
    (hthreshold : m.heap.config.threshold < Heap.maxSlots) : m.Collects := by
  have hintact := h.intact
  have hresolves : ∀ a, m.Resolves (.heap a) → ∃ v, m.heap.get? a = some v :=
    fun a ⟨v, hv⟩ => ⟨v, resolve_heap.1 hv⟩
  refine ⟨henabled, hthreshold, fun a ha => hresolves a ?_⟩
  rcases List.mem_append.1 ha with ha | ha
  · obtain ⟨i, hi⟩ := mem_filterMap_handle?.1 ha
    exact hintact.temps _ (Array.mem_toList_iff.1 (List.mem_of_getElem? hi))
  rcases List.mem_append.1 ha with ha | ha
  · rw [ModuleTable.refs_eq] at ha
    obtain ⟨i, hi⟩ := mem_filterMap_handle?.1 ha
    obtain ⟨module, hmodule, hmem⟩ := List.mem_flatMap.1 (List.mem_of_getElem? hi)
    obtain ⟨member, hmember, hvalue⟩ := List.mem_map.1 hmem
    exact hvalue ▸ hintact.members module hmodule member hmember
  · obtain ⟨frame, hframe, hmem⟩ := (ScopeStack.mem_refs_iff _ _).1 ha
    obtain ⟨binding, hbinding, hhandle⟩ := List.mem_filterMap.1 hmem
    have hvalue : binding.2.value = .heap a := Ref.mem_handle?.1 (by simpa using hhandle)
    exact hvalue ▸ hintact.bindings frame (Array.mem_toList_iff.1 hframe) binding hbinding

end Machine

end ScriptMachine
