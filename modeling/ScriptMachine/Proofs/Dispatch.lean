/-
# What a new method changes

A method that is installed on a type is found from that type and from those below it, as far as no type
in between has a method of the same name of its own.  Every other look-up has the outcome it had: of
other names, from ancestors, from types elsewhere in the tree, and from types below that are shadowed.

* `TypeTable.Meets`: a look-up comes to a type before it finds anything;
* `TypeTable.Finds.installed`, `TypeTable.Finds.kept`: one walk, with a new method on one of its stops;
* `TypeTable.lookupMethod_make`: a new type;
* `TypeTable.insertMethod_redirects`: all look-ups, before and after.
-/
import ScriptMachine.Proofs.TypeTree

namespace ScriptMachine

/-! ## 1. Method tables -/

namespace TypeInfo

/-- A method of a name replaces the one before, and no other. -/
theorem ownMethod_setMethod (info : TypeInfo) (name : Name) (entry : MethodEntry) (other : Name) :
    (info.setMethod name entry).ownMethod other =
      if other = name then some entry else info.ownMethod other := by
  by_cases h : other = name
  · subst h
    simp [ownMethod, setMethod]
  · have hothers : (info.methods.filter fun x => x.1 ≠ name).find? (fun x => x.1 = other) =
        info.methods.find? fun x => x.1 = other := by
      rw [List.find?_filter]
      congr 1
      funext x
      by_cases hx : x.1 = other <;> simp [hx, h]
    have hcons : ¬ name = other := fun heq => h heq.symm
    rw [if_neg h, ownMethod, ownMethod, ← hothers, setMethod]
    simp [hcons]

/-- The method installed last is the only one of its name. -/
theorem setMethod_setMethod (info : TypeInfo) (name : Name) (first last : MethodEntry) :
    (info.setMethod name first).setMethod name last = info.setMethod name last := by
  simp [setMethod]

end TypeInfo

namespace TypeTable

variable {t t' : TypeTable} {id : TypeId} {callable : Callable} {location : Location}

/-- What installing a method comes to. -/
theorem of_insertMethod_ok (h : t.insertMethod id callable location = (.ok (), t')) :
    (t.get? id).isSome = true ∧ t' = t.modify id
      (fun info => info.setMethod callable.name ⟨callable, location⟩)
      fun info => info.name_setMethod _ _ := by
  rcases t.insertMethod_cases id callable location with ⟨why, hinsert⟩ | ⟨⟨-, hid⟩, hinsert⟩
  · rw [hinsert] at h
    cases h
  · rw [hinsert] at h
    exact ⟨hid, (Prod.mk.inj h).2.symm⟩

/-- The one entry that differs after a method was set. -/
theorem ownMethodOf_setMethod (hid : (t.get? id).isSome = true) (name : Name) (entry : MethodEntry)
    (other : Name) (type : TypeId) :
    (t.modify id (fun info => info.setMethod name entry)
        fun info => info.name_setMethod name entry).ownMethodOf other type =
      if type = id ∧ other = name then some entry else t.ownMethodOf other type := by
  obtain ⟨info, hinfo⟩ := Option.isSome_iff_exists.1 hid
  rw [ownMethodOf, get?_modify, ownMethodOf]
  by_cases htype : type = id
  · subst htype
    rw [if_pos rfl, hinfo, Option.map_some, Option.bind_some, TypeInfo.ownMethod_setMethod]
    simp
  · rw [if_neg htype, if_neg fun hboth => htype hboth.1]

theorem ownMethodOf_insertMethod (h : t.insertMethod id callable location = (.ok (), t')) (name : Name)
    (other : TypeId) :
    t'.ownMethodOf name other =
      if other = id ∧ name = callable.name then some ⟨callable, location⟩
      else t.ownMethodOf name other := by
  obtain ⟨hid, rfl⟩ := of_insertMethod_ok h
  exact ownMethodOf_setMethod hid callable.name ⟨callable, location⟩ name other

/-! ## 2. Chains -/

/-- Chains depend on the parents alone. -/
theorem chain_eq_of_parents
    (h : ∀ id, (t'.get? id).map TypeInfo.parent = (t.get? id).map TypeInfo.parent) (id : TypeId) :
    t'.chain id = t.chain id := by
  fun_induction chain t id with
  | case1 id hnone =>
    have hnone' := h id
    rw [hnone, Option.map_none, Option.map_eq_none_iff] at hnone'
    rw [chain, hnone']
  | case2 id info hinfo hlt ih =>
    have hinfo' := h id
    rw [hinfo, Option.map_some, Option.map_eq_some_iff] at hinfo'
    obtain ⟨info', hinfo', hparent⟩ := hinfo'
    rw [chain, hinfo']
    simp only [hparent, if_pos hlt, ih]
  | case3 id info hinfo hlt =>
    have hinfo' := h id
    rw [hinfo, Option.map_some, Option.map_eq_some_iff] at hinfo'
    obtain ⟨info', hinfo', hparent⟩ := hinfo'
    rw [chain, hinfo']
    simp only [hparent, if_neg hlt]

theorem chain_insertMethod (h : t.insertMethod id callable location = (.ok (), t')) (other : TypeId) :
    t'.chain other = t.chain other := by
  obtain ⟨-, rfl⟩ := of_insertMethod_ok h
  refine chain_eq_of_parents (fun other => ?_) other
  rw [get?_modify]
  split
  · rw [Option.map_map]
    rfl
  · rfl

/-! ## 3. Walks -/

/-- A walk comes to a type with no method of the name found before. -/
def Meets (t : TypeTable) (name : Name) (stops : List TypeId) (id : TypeId) : Prop :=
  ∃ nearer farther, stops = nearer ++ id :: farther ∧ ∀ x ∈ nearer, t.ownMethodOf name x = none

theorem Meets.head (t : TypeTable) (name : Name) (id : TypeId) (later : List TypeId) :
    t.Meets name (id :: later) id := ⟨[], later, rfl, nofun⟩

theorem Meets.cons {name : Name} {first : TypeId} {later : List TypeId}
    (hnone : t.ownMethodOf name first = none) (h : t.Meets name later id) :
    t.Meets name (first :: later) id := by
  obtain ⟨nearer, farther, rfl, hnearer⟩ := h
  exact ⟨first :: nearer, farther, rfl, List.forall_mem_cons.2 ⟨hnone, hnearer⟩⟩

theorem Meets.mem {name : Name} {stops : List TypeId} (h : t.Meets name stops id) : id ∈ stops := by
  obtain ⟨nearer, farther, rfl, -⟩ := h
  simp

/-- Looking for a method has one outcome. -/
theorem Finds.unique {name : Name} {stops : List TypeId} {outcome outcome' : Except Refusal Resolved}
    (h : t.Finds name stops outcome) (h' : t.Finds name stops outcome') : outcome = outcome' := by
  induction h with
  | nowhere =>
    cases h'
    rfl
  | here h =>
    cases h' with
    | here h' => rw [Option.some.inj (h.symm.trans h')]
    | further hnone _ => rw [h] at hnone; cases hnone
  | further hnone _ ih =>
    cases h' with
    | here h' => rw [hnone] at h'; cases h'
    | further _ h' => exact ih h'

/-- A walk that comes to the type of a new method finds that method. -/
theorem Finds.installed (h : t.insertMethod id callable location = (.ok (), t')) {stops : List TypeId}
    (hmeets : t.Meets callable.name stops id) :
    t'.Finds callable.name stops (.ok ⟨id, ⟨callable, location⟩⟩) := by
  obtain ⟨nearer, farther, rfl, hnearer⟩ := hmeets
  have hown := ownMethodOf_insertMethod h callable.name
  induction nearer with
  | nil => exact .here (by rw [hown, if_pos ⟨rfl, rfl⟩])
  | cons first rest ih =>
    obtain ⟨hfirst, hrest⟩ := List.forall_mem_cons.1 hnearer
    by_cases hid : first = id
    · subst hid
      exact .here (by rw [hown, if_pos ⟨rfl, rfl⟩])
    · exact .further (by rw [hown, if_neg fun hboth => hid hboth.1, hfirst]) (ih hrest)

/-- Any other walk has the outcome it had. -/
theorem Finds.kept (h : t.insertMethod id callable location = (.ok (), t')) {name : Name}
    {stops : List TypeId} {outcome : Except Refusal Resolved} (hfinds : t.Finds name stops outcome)
    (hnot : ¬ (name = callable.name ∧ t.Meets name stops id)) : t'.Finds name stops outcome := by
  have hown := ownMethodOf_insertMethod h name
  induction hfinds with
  | nowhere => exact .nowhere
  | @here first later entry hentry =>
    have hother : ¬ (first = id ∧ name = callable.name) := by
      rintro ⟨rfl, hname⟩
      exact hnot ⟨hname, .head _ _ _ _⟩
    exact .here (by rw [hown, if_neg hother, hentry])
  | @further first later outcome hnone _ ih =>
    have hother : ¬ (first = id ∧ name = callable.name) := by
      rintro ⟨rfl, hname⟩
      exact hnot ⟨hname, .head _ _ _ _⟩
    refine .further (by rw [hown, if_neg hother, hnone]) (ih fun hlater => ?_)
    exact hnot ⟨hlater.1, .cons hnone hlater.2⟩

/-- A walk has the outcome it had if no stop has another method of the name. -/
theorem Finds.congr {name : Name} {stops : List TypeId} {outcome : Except Refusal Resolved}
    (h : t.Finds name stops outcome)
    (hown : ∀ x ∈ stops, t'.ownMethodOf name x = t.ownMethodOf name x) :
    t'.Finds name stops outcome := by
  induction h with
  | nowhere => exact .nowhere
  | here hentry => exact .here (by rw [hown _ List.mem_cons_self, hentry])
  | further hnone _ ih =>
    exact .further (by rw [hown _ List.mem_cons_self, hnone])
      (ih fun x hx => hown x (List.mem_cons_of_mem _ hx))

/-- A look-up is known from its walk. -/
theorem lookupMethod_eq {name : Name} {stops : List TypeId} {outcome : Except Refusal Resolved}
    (hchain : t.chain id = stops) (h : t.Finds name stops outcome) :
    t.lookupMethod id name = outcome :=
  (t.finds_lookupMethod id name).unique (hchain ▸ h)

/-! ## 4. Types that come later -/

/-- A chain leads to smaller identities. -/
theorem index_le_of_mem_chain {other : TypeId} (h : other ∈ t.chain id) :
    other.index ≤ id.index := by
  fun_induction chain t id with
  | case1 id hnone => cases h
  | case2 id info hinfo hlt ih =>
    rcases List.mem_cons.1 h with rfl | h
    · exact Nat.le_refl _
    · exact Nat.le_trans (ih h) (Nat.le_of_lt hlt)
  | case3 id info hinfo hlt => exact Nat.le_of_eq (congrArg TypeId.index (List.mem_singleton.1 h))

/-- Types that were there are as they were. -/
theorem get?_make_of_lt {kind : TypeKind} {parent made : TypeId} {name : Name}
    (h : t.make kind parent name = (.ok made, t')) {other : TypeId} (hother : other.index < t.size) :
    t'.get? other = t.get? other := by
  rw [get?_make h, if_neg]
  rintro rfl
  rw [(of_make_ok h).2.2.2.1] at hother
  exact Nat.lt_irrefl _ hother

/-- Types that were there have the chains they had. -/
theorem chain_make {kind : TypeKind} {parent made : TypeId} {name : Name}
    (h : t.make kind parent name = (.ok made, t')) {other : TypeId} (hother : other.index < t.size) :
    t'.chain other = t.chain other := by
  fun_induction chain t other with
  | case1 other hnone => rw [chain, get?_make_of_lt h hother, hnone]
  | case2 other info hinfo hlt ih =>
    rw [chain, get?_make_of_lt h hother, hinfo]
    simp only [if_pos hlt, ih (Nat.lt_trans hlt hother)]
  | case3 other info hinfo hlt =>
    rw [chain, get?_make_of_lt h hother, hinfo]
    simp only [if_neg hlt]

/-- **A new type** has the methods of its parent, and changes no other look-up. -/
theorem lookupMethod_make {kind : TypeKind} {parent made : TypeId} {name : Name}
    (h : t.make kind parent name = (.ok made, t')) (method : Name) :
    t'.lookupMethod made method = t.lookupMethod parent method ∧
      ∀ other, (t.get? other).isSome = true →
        t'.lookupMethod other method = t.lookupMethod other method := by
  obtain ⟨-, hparent, -, hmade, -⟩ := of_make_ok h
  have hfinds : ∀ x, (t.get? x).isSome = true →
      t'.Finds method (t.chain x) (t.lookupMethod x method) := by
    refine fun x hx => (t.finds_lookupMethod x method).congr fun y hy => ?_
    have hlt : y.index < t.size := Nat.lt_of_le_of_lt (index_le_of_mem_chain hy) (isSome_get?_iff.1 hx)
    rw [ownMethodOf, ownMethodOf, get?_make_of_lt h hlt]
  refine ⟨?_, fun other hother =>
    lookupMethod_eq (chain_make h (isSome_get?_iff.1 hother)) (hfinds other hother)⟩
  have hinfo : t'.get? made = some (.fresh kind parent name) := by rw [get?_make h, if_pos rfl]
  have hchain : t'.chain made = made :: t.chain parent := by
    have hlt : parent.index < made.index := by
      rw [hmade]
      exact isSome_get?_iff.1 hparent
    rw [chain, hinfo]
    simp only [TypeInfo.fresh, if_pos hlt, chain_make h (isSome_get?_iff.1 hparent)]
  refine lookupMethod_eq hchain (.further ?_ (hfinds parent hparent))
  rw [ownMethodOf, hinfo]
  rfl

/-! ## 5. All look-ups -/

/-- **A new method** is found from a type if the walk from there comes to its type before it finds
another one of the same name; every other look-up, of any name from any identity, has the outcome it
had, entry, owner or failure.  So nothing changes for the ancestors of the type and for types that do
not derive from it; a method installed before under the same name leaves no trace; and types made later
inherit what their parents have by then. -/
theorem insertMethod_redirects (t : TypeTable) {id : TypeId} {callable : Callable}
    (location : Location) (hid : (t.get? id).isSome = true)
    (hname : callable.name.isEmpty = false) :
    ∃ t', t.insertMethod id callable location = (.ok (), t') ∧
      (∀ u, t.Meets callable.name (t.chain u) id →
        t'.lookupMethod u callable.name = .ok ⟨id, ⟨callable, location⟩⟩) ∧
      (∀ u name, ¬ (name = callable.name ∧ t.Meets name (t.chain u) id) →
        t'.lookupMethod u name = t.lookupMethod u name) ∧
      (∀ u name, t.isSubtype u id = false → t'.lookupMethod u name = t.lookupMethod u name) ∧
      (∀ u name, t.isSubtype id u = true → u ≠ id →
        t'.lookupMethod u name = t.lookupMethod u name) ∧
      (∀ other location', other.name = callable.name →
        t'.insertMethod id other location' = t.insertMethod id other location') ∧
      ∀ kind parent made name t'', t'.make kind parent name = (.ok made, t'') → ∀ method,
        t''.lookupMethod made method = t'.lookupMethod parent method ∧
        ∀ u, (t'.get? u).isSome = true → t''.lookupMethod u method = t'.lookupMethod u method := by
  obtain ⟨t', h⟩ : ∃ t', t.insertMethod id callable location = (.ok (), t') :=
    ⟨_, insertMethod_eq hname hid location⟩
  have hchain := chain_insertMethod h
  have hkept : ∀ u name, ¬ (name = callable.name ∧ t.Meets name (t.chain u) id) →
      t'.lookupMethod u name = t.lookupMethod u name := fun u name hnot =>
    lookupMethod_eq (hchain u) ((t.finds_lookupMethod u name).kept h hnot)
  have hunrelated : ∀ u name, t.isSubtype u id = false →
      t'.lookupMethod u name = t.lookupMethod u name := by
    refine fun u name hnot => hkept u name fun hmeets => ?_
    rw [(t.isSubtype_iff u id).2 hmeets.2.mem] at hnot
    cases hnot
  refine ⟨t', h, fun u hmeets => lookupMethod_eq (hchain u) (.installed h hmeets), hkept, hunrelated,
    fun u name habove hne => hunrelated u name ?_, fun other location' hsame => ?_,
    fun kind parent made name t'' hmake method => lookupMethod_make hmake method⟩
  · -- an ancestor comes before the type, so it cannot come after it too
    rw [isSubtype_iff] at habove
    rw [Bool.eq_false_iff, ne_eq, isSubtype_iff]
    intro hbelow
    exact hne (congrArg TypeId.mk (Nat.le_antisymm (index_le_of_mem_chain habove)
      (index_le_of_mem_chain hbelow)))
  · have hother : other.name.isEmpty = false := hsame ▸ hname
    obtain ⟨-, rfl⟩ := of_insertMethod_ok h
    have hthere : ((t.modify id (fun info => info.setMethod callable.name ⟨callable, location⟩)
        fun info => info.name_setMethod _ _).get? id).isSome = true := by
      rw [get?_modify, if_pos rfl, Option.isSome_map, hid]
    rw [insertMethod_eq hother hthere, insertMethod_eq hother hid, modify_modify]
    simp only [hsame, Function.comp_def, TypeInfo.setMethod_setMethod]

/-- A table with a type below the root, and another one below that. -/
def family : TypeTable :=
  (initial .initial).1.changeAll [.make .object .baseObject ⟨12⟩, .make .object ⟨11⟩ ⟨13⟩]

/-- A method under the name number 14. -/
def greeting : Callable := .native ⟨⟨14⟩, 1, false, .objectNil⟩

/-- The type in the middle gets a method: the one below inherits it, and the root does not. -/
theorem insertMethod_redirects_inherited :
    ∃ t', family.insertMethod ⟨11⟩ greeting .builtin = (.ok (), t') ∧
      t'.lookupMethod ⟨12⟩ ⟨14⟩ = .ok ⟨⟨11⟩, ⟨greeting, .builtin⟩⟩ ∧
      t'.lookupMethod .baseObject ⟨14⟩ = family.lookupMethod .baseObject ⟨14⟩ := by
  obtain ⟨t', h, hfound, -, hunrelated, -⟩ :=
    @insertMethod_redirects family ⟨11⟩ greeting .builtin (by decide +kernel) rfl
  have hchain : family.chain ⟨12⟩ = [⟨12⟩, ⟨11⟩, .baseObject] := by decide +kernel
  refine ⟨t', h, hfound ⟨12⟩ ?_, hunrelated .baseObject ⟨14⟩ (by decide +kernel)⟩
  rw [hchain]
  refine ⟨[⟨12⟩], [.baseObject], rfl, fun x hx => ?_⟩
  obtain rfl := List.mem_singleton.1 hx
  exact Option.isNone_iff_eq_none.1 (by decide +kernel)

end TypeTable

end ScriptMachine
