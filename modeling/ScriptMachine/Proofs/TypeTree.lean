/-
# Types form a tree

The root is its own parent, and a walk along the parents stops where a type is its own parent.  So
walks end only if no other type is on a cycle.  A type can be made only below one that is there
already, which gives parents smaller positions than their children; every change of a table keeps
that, accepted or not.

* `TypeTable.change`, `TypeTable.changeAll`: the changes of a table;
* `TypeTable.Tree`: parents lie below, and no two types have one name;
* `TypeTable.Tree.change`, `TypeTable.tree_initial`: one change, and the table to begin with;
* `TypeTable.Tree.walks_chain`: the walk from a type ends, and `chain` lists its stops;
* `TypeTable.changeAll_resolves`: all that follows, for every sequence of changes.
-/
import Mathlib.Data.List.Nodup
import ScriptMachine.Proofs.Names
import ScriptMachine.Types.Dispatch

namespace ScriptMachine

namespace TypeTable

/-! ## 1. Changes -/

/-- What can be done to a table of types. -/
inductive Change where
  | make (kind : TypeKind) (parent : TypeId) (name : Name)
  | insertMember (id : TypeId) (name : Name) (memberType : TypeId)
  | insertMethod (id : TypeId) (callable : Callable) (location : Location)
  | close (id : TypeId)

/-- What became of a change. -/
inductive Answer where
  | accepted
  | refused (why : Refusal)
  /-- The size of the changed type cannot be told in 64 bits. -/
  | sizeOverflow
deriving DecidableEq

/-- The answer to a request that is accepted or refused. -/
def Answer.ofResult {α : Type} : Except Refusal α → Answer
  | .ok _ => .accepted
  | .error why => .refused why

/-- The answer to a request for a new member. -/
def Answer.ofMember : MemberResult → Answer
  | .placed _ => .accepted
  | .refused why => .refused why
  | .sizeOverflow => .sizeOverflow

/-- A change, and the table after it. -/
def change (t : TypeTable) : Change → Answer × TypeTable
  | .make kind parent name => Prod.map .ofResult id (t.make kind parent name)
  | .insertMember type name memberType => Prod.map .ofMember id (t.insertMember type name memberType)
  | .insertMethod type callable location =>
    Prod.map .ofResult id (t.insertMethod type callable location)
  | .close type => Prod.map .ofResult id (t.close type)

/-- The table after changes, first to last, refused ones among them. -/
def changeAll (t : TypeTable) (changes : List Change) : TypeTable :=
  changes.foldl (fun t c => (t.change c).2) t

/-- The parents and names of the types, by their identity. -/
def shape (t : TypeTable) : List (TypeId × Name) :=
  t.types.toList.map fun info => (info.parent, info.name)

theorem getElem?_shape (t : TypeTable) (id : TypeId) :
    t.shape[id.index]? = (t.get? id).map fun info => (info.parent, info.name) := by
  simp [shape, get?]

theorem length_shape (t : TypeTable) : t.shape.length = t.size := by
  simp [shape, size]

theorem shape_push {t : TypeTable} {info : TypeInfo} (h : t.find info.name = none) :
    (t.push info).shape = t.shape ++ [(info.parent, info.name)] := by
  simp [shape, types_push h]

/-- Members, methods and seals do not matter for the tree. -/
theorem shape_modify (t : TypeTable) (id : TypeId) {f : TypeInfo → TypeInfo}
    (hname : ∀ info, (f info).name = info.name) (hparent : ∀ info, (f info).parent = info.parent) :
    (t.modify id f hname).shape = t.shape := by
  refine List.ext_getElem? fun i => ?_
  simp only [shape, modify, List.getElem?_map, Array.getElem?_toList, Array.getElem?_modify]
  split
  · cases t.types[i]? with
    | none => rfl
    | some info => simp [hname info, hparent info]
  · rfl

theorem shape_insertMember (t : TypeTable) (id : TypeId) (name : Name) (memberType : TypeId) :
    (t.insertMember id name memberType).2.shape = t.shape := by
  rcases t.insertMember_cases id name memberType with
    ⟨why, hinsert⟩ | ⟨info, memberInfo, -, -, -, ⟨-, hinsert⟩ | ⟨-, hinsert⟩⟩
  · rw [hinsert]
  · rw [hinsert]
    refine t.shape_modify id ?_ ?_
    · exact fun _ => rfl
    · exact fun _ => rfl
  · rw [hinsert]
    refine t.shape_modify id ?_ ?_
    · exact fun _ => rfl
    · exact fun _ => rfl

theorem shape_insertMethod (t : TypeTable) (id : TypeId) (callable : Callable)
    (location : Location) : (t.insertMethod id callable location).2.shape = t.shape := by
  rcases t.insertMethod_cases id callable location with ⟨why, hinsert⟩ | ⟨-, hinsert⟩
  · rw [hinsert]
  · rw [hinsert]
    refine t.shape_modify id ?_ ?_
    · exact fun _ => rfl
    · exact fun _ => rfl

theorem shape_close (t : TypeTable) (id : TypeId) : (t.close id).2.shape = t.shape := by
  rcases t.close_cases id with ⟨why, hclose⟩ | ⟨-, hclose⟩
  · rw [hclose]
  · rw [hclose]
    refine t.shape_modify id ?_ ?_
    · exact fun _ => rfl
    · exact fun _ => rfl

/-- **What one change can do to the tree**: nothing, or add one type with a parent that is there and
a new name. -/
theorem change_cases (t : TypeTable) (c : Change) :
    (t.change c).2.shape = t.shape ∨
      ∃ parent name, (t.get? parent).isSome = true ∧ name.isEmpty = false ∧ t.find name = none ∧
        (t.change c).2.shape = t.shape ++ [(parent, name)] := by
  cases c with
  | make kind parent name =>
    rcases t.make_cases kind parent name with ⟨why, hmake⟩ | ⟨⟨hname, hparent, hnew⟩, hmake⟩
    · rw [change, hmake]
      exact .inl rfl
    · rw [change, hmake]
      exact .inr ⟨parent, name, hparent, hname, hnew, shape_push hnew⟩
  | insertMember id name memberType => exact .inl (t.shape_insertMember id name memberType)
  | insertMethod id callable location => exact .inl (t.shape_insertMethod id callable location)
  | close id => exact .inl (t.shape_close id)

/-- **A change that is refused changes nothing**: each request gives back the table that it was
made of. -/
theorem change_refused {t t' : TypeTable} {c : Change} {why : Refusal}
    (h : t.change c = (.refused why, t')) : t' = t := by
  cases c with
  | make kind parent name =>
    rcases t.make_cases kind parent name with ⟨why', hmake⟩ | ⟨-, hmake⟩
    · rw [change, hmake] at h
      exact (Prod.mk.inj h).2.symm
    · rw [change, hmake] at h
      cases h
  | insertMember id name memberType =>
    rcases t.insertMember_cases id name memberType with
      ⟨why', hinsert⟩ | ⟨info, memberInfo, -, -, -, ⟨-, hinsert⟩ | ⟨-, hinsert⟩⟩
    · rw [change, hinsert] at h
      exact (Prod.mk.inj h).2.symm
    · rw [change, hinsert] at h
      cases h
    · rw [change, hinsert] at h
      cases h
  | insertMethod id callable location =>
    rcases t.insertMethod_cases id callable location with ⟨why', hinsert⟩ | ⟨-, hinsert⟩
    · rw [change, hinsert] at h
      exact (Prod.mk.inj h).2.symm
    · rw [change, hinsert] at h
      cases h
  | close id =>
    rcases t.close_cases id with ⟨why', hclose⟩ | ⟨-, hclose⟩
    · rw [change, hclose] at h
      exact (Prod.mk.inj h).2.symm
    · rw [change, hclose] at h
      cases h

/-! ## 2. The tree -/

/-- The types form a tree: the root is its own parent, every other type comes after its parent, and
every type has a name.  That no two types have one name is so in every table. -/
structure Tree (t : TypeTable) : Prop where
  root : ∃ name, t.shape[0]? = some (.baseObject, name)
  below : ∀ (i : Nat) (parent : TypeId) (name : Name), 0 < i → t.shape[i]? = some (parent, name) →
    parent.index < i
  named : ∀ x ∈ t.shape, x.2.isEmpty = false

/-- **One change** keeps the tree. -/
theorem Tree.change {t : TypeTable} (h : t.Tree) (c : Change) : (t.change c).2.Tree := by
  rcases t.change_cases c with hsame | ⟨parent, name, hparent, hname, -, hshape⟩
  · exact ⟨hsame ▸ h.root, hsame ▸ h.below, hsame ▸ h.named⟩
  · have hlt : parent.index < t.shape.length := by
      rw [length_shape]
      exact (Array.getElem?_eq_some_iff.1 (Option.eq_some_of_isSome hparent)).1
    constructor
    · obtain ⟨rootName, hroot⟩ := h.root
      exact ⟨rootName, by rw [hshape, List.getElem?_append_left (by omega), hroot]⟩
    · rw [hshape]
      intro i p n hi hget
      by_cases hold : i < t.shape.length
      · rw [List.getElem?_append_left hold] at hget
        exact h.below i p n hi hget
      · obtain ⟨hbound, -⟩ := List.getElem?_eq_some_iff.1 hget
        rw [List.length_append, List.length_singleton] at hbound
        obtain rfl : i = t.shape.length := by omega
        rw [List.getElem?_concat_length] at hget
        obtain ⟨rfl, -⟩ := Prod.mk.inj (Option.some.inj hget)
        exact hlt
    · rw [hshape]
      intro x hx
      rcases List.mem_append.1 hx with hold | hlast
      · exact h.named x hold
      · obtain rfl := List.mem_singleton.1 hlast
        exact hname

/-- **Any number of changes** keep the tree. -/
theorem Tree.changeAll {t : TypeTable} (h : t.Tree) (changes : List Change) :
    (t.changeAll changes).Tree := by
  induction changes generalizing t with
  | nil => exact h
  | cons c rest ih => exact ih (h.change c)

/-! ## 3. The table to begin with -/

/-- Types below the root whose names are those of some texts. -/
structure Labelled (t : TypeTable) (names : NameTable) (texts : List String) : Prop where
  parents : ∀ x ∈ t.shape, x.1 = .baseObject
  labels : t.shape.map (fun x => names.texts[x.2.index]?) = texts.map some

namespace Labelled

variable {t : TypeTable} {names : NameTable} {texts : List String} {text : String}

theorem size_eq (h : t.Labelled names texts) : t.size = texts.length := by
  have hlength := congrArg List.length h.labels
  rwa [List.length_map, List.length_map, length_shape] at hlength

/-- The name of a type is that of the text in its place. -/
theorem texts_of_get? (h : t.Labelled names texts) {id : TypeId} {info : TypeInfo}
    (hid : t.get? id = some info) : ∃ s ∈ texts, names.texts[info.name.index]? = some s := by
  have hshape := t.getElem?_shape id
  rw [hid, Option.map_some] at hshape
  have hmem := List.mem_map_of_mem (f := fun x => names.texts[x.2.index]?)
    (List.mem_of_getElem? hshape)
  rw [h.labels] at hmem
  obtain ⟨s, hs, heq⟩ := List.mem_map.1 hmem
  exact ⟨s, hs, heq.symm⟩

/-- A new text has a name that no type has. -/
theorem find_intern (h : t.Labelled names texts) (hnew : text ∉ texts) :
    t.find (names.intern text).1 = none := by
  refine Option.eq_none_iff_forall_ne_some.2 fun id hfind => ?_
  obtain ⟨info, hinfo, hname⟩ := Option.map_eq_some_iff.1 ((t.inverse _ id).1 hfind)
  obtain ⟨s, hs, hold⟩ := h.texts_of_get? hinfo
  have hlabel := names.getElem?_texts_intern text hold
  rw [hname, names.getElem?_intern text] at hlabel
  rw [Option.some.inj hlabel] at hnew
  exact hnew hs

/-- **A built-in type is accepted**, if its text is new and there is room: it takes the next identity
and goes below the root. -/
theorem make_eq (h : t.Labelled names texts) (hroot : texts ≠ []) (hnew : text ∉ texts)
    (hne : text ≠ "") (hroom : texts.length < maxTypes) (kind : TypeKind) :
    t.make kind .baseObject (names.intern text).1 =
      (.ok ⟨texts.length⟩, t.push (.fresh kind .baseObject (names.intern text).1)) := by
  have hbase : (t.get? .baseObject).isSome = true :=
    isSome_get?_iff.2 (h.size_eq ▸ List.length_pos_iff.2 hroot)
  have hname := NameTable.isEmpty_eq_false (names.getElem?_intern text) hne
  rw [← h.size_eq] at hroom ⊢
  exact TypeTable.make_eq hroom hname hbase (h.find_intern hnew) kind

/-- A type below the root, named by one more text. -/
theorem make (h : t.Labelled names texts) (hroot : texts ≠ []) (hnew : text ∉ texts)
    (hne : text ≠ "") (hroom : texts.length < maxTypes) (kind : TypeKind) :
    Labelled (t.make kind .baseObject (names.intern text).1).2 (names.intern text).2
      (texts ++ [text]) := by
  have hshape : (t.make kind .baseObject (names.intern text).1).2.shape =
      t.shape ++ [(.baseObject, (names.intern text).1)] := by
    rw [h.make_eq hroot hnew hne hroom kind]
    exact shape_push (h.find_intern hnew)
  constructor
  · rw [hshape]
    intro x hx
    rcases List.mem_append.1 hx with hold | hlast
    · exact h.parents x hold
    · obtain rfl := List.mem_singleton.1 hlast
      rfl
  · rw [hshape, List.map_append, List.map_append, ← h.labels]
    congr 1
    · refine List.map_congr_left fun x hx => ?_
      obtain ⟨s, -, hs⟩ := List.mem_map.1 (h.labels ▸ List.mem_map.2 ⟨x, hx, rfl⟩)
      rw [← hs]
      exact names.getElem?_texts_intern text hs.symm
    · exact congrArg (fun x => [x]) (names.getElem?_intern text)

theorem addBuiltins (h : t.Labelled names texts) (hroot : texts ≠ [])
    {builtins : List (TypeKind × String)} (hnodup : (texts ++ builtins.map Prod.snd).Nodup)
    (hne : ∀ b ∈ builtins, b.2 ≠ "") (hroom : (texts ++ builtins.map Prod.snd).length ≤ maxTypes) :
    Labelled (t.addBuiltins names builtins).1 (t.addBuiltins names builtins).2
      (texts ++ builtins.map Prod.snd) := by
  induction builtins generalizing t names texts with
  | nil =>
    rw [List.map_nil, List.append_nil]
    exact h
  | cons b rest ih =>
    rw [List.map_cons, List.append_cons] at hnodup hroom ⊢
    have hnew : b.2 ∉ texts := by
      rw [List.append_assoc] at hnodup
      exact fun hmem => (List.nodup_append.1 hnodup).2.2 _ hmem _ List.mem_cons_self rfl
    have hlt : texts.length < maxTypes := by
      simp only [List.length_append, List.length_singleton] at hroom
      omega
    refine ih (h.make hroot hnew (hne b List.mem_cons_self) hlt b.1) (by simp) hnodup ?_ hroom
    exact fun b' hb' => hne b' (List.mem_cons_of_mem b hb')

end Labelled

/-- The texts of the names of the types to begin with. -/
def initialTexts : List String := "BaseObject" :: builtins.map Prod.snd

theorem nodup_initialTexts : initialTexts.Nodup := by decide

theorem ne_of_mem_initialTexts : ∀ s ∈ initialTexts, s ≠ "" := by decide

theorem ne_of_mem_builtins {b : TypeKind × String} (h : b ∈ builtins) : b.2 ≠ "" :=
  ne_of_mem_initialTexts b.2 (List.mem_cons_of_mem _ (List.mem_map_of_mem h))

theorem labelled_root (names : NameTable) :
    Labelled (root (names.intern "BaseObject").1) (names.intern "BaseObject").2 ["BaseObject"] where
  parents := by
    intro x hx
    obtain rfl := List.mem_singleton.1 hx
    rfl
  labels := congrArg (fun x => [x]) (names.getElem?_intern "BaseObject")

/-- The table in the making: the root and some of the built-in types. -/
theorem labelled_addBuiltins (names : NameTable) {first : List (TypeKind × String)}
    (h : first <+: builtins) :
    Labelled ((root (names.intern "BaseObject").1).addBuiltins (names.intern "BaseObject").2 first).1
      ((root (names.intern "BaseObject").1).addBuiltins (names.intern "BaseObject").2 first).2
      ("BaseObject" :: first.map Prod.snd) := by
  have hlead : "BaseObject" :: first.map Prod.snd <+: initialTexts :=
    List.cons_prefix_cons.2 ⟨rfl, h.map Prod.snd⟩
  refine (labelled_root names).addBuiltins (by simp) (hlead.sublist.nodup nodup_initialTexts)
    (fun b hb => ne_of_mem_builtins (h.subset hb)) ?_
  exact Nat.le_trans hlead.length_le (by decide)

theorem labelled_initial (names : NameTable) :
    Labelled (initial names).1 (initial names).2 initialTexts := by
  rw [initial_eq]
  exact labelled_addBuiltins names List.prefix_rfl

/-- **All requests for built-in types are accepted**, whatever names were given out before, and each
type gets the identity that its place in the list says. -/
theorem make_builtin (names : NameTable) {before after : List (TypeKind × String)} {kind : TypeKind}
    {text : String} (h : builtins = before ++ (kind, text) :: after) :
    let made := (root (names.intern "BaseObject").1).addBuiltins (names.intern "BaseObject").2 before
    (made.1.make kind .baseObject (made.2.intern text).1).1 = .ok ⟨before.length + 1⟩ := by
  intro made
  have hlabelled : Labelled made.1 made.2 ("BaseObject" :: before.map Prod.snd) :=
    labelled_addBuiltins names ⟨_, h.symm⟩
  have hne : text ≠ "" := ne_of_mem_builtins (b := (kind, text)) (by rw [h]; simp)
  have hnodup := nodup_initialTexts
  have hsize : builtins.length = 10 := rfl
  rw [initialTexts, h, List.map_append, List.map_cons, ← List.cons_append] at hnodup
  have hnew : text ∉ "BaseObject" :: before.map Prod.snd :=
    fun hmem => (List.nodup_append.1 hnodup).2.2 _ hmem _ List.mem_cons_self rfl
  have hroom : ("BaseObject" :: before.map Prod.snd).length < maxTypes := by
    rw [h, List.length_append, List.length_cons] at hsize
    rw [List.length_cons, List.length_map, maxTypes]
    omega
  rw [hlabelled.make_eq (by simp) hnew hne hroom, List.length_cons, List.length_map]

/-- **The table to begin with** is a tree: different texts have different names, and none of the
names is that of the empty text. -/
theorem tree_initial (names : NameTable) : (initial names).1.Tree := by
  have hlabelled := labelled_initial names
  constructor
  · have hlen : 0 < (initial names).1.shape.length := by
      rw [length_shape, hlabelled.size_eq]
      decide
    refine ⟨(initial names).1.shape[0].2, ?_⟩
    rw [List.getElem?_eq_getElem hlen, ← hlabelled.parents _ (List.getElem_mem hlen)]
  · intro i parent name hi hget
    obtain rfl : parent = .baseObject := hlabelled.parents _ (List.mem_of_getElem? hget)
    exact hi
  · intro x hx
    obtain ⟨s, hs, hlabel⟩ := List.mem_map.1 (hlabelled.labels ▸ List.mem_map.2 ⟨x, hx, rfl⟩)
    exact NameTable.isEmpty_eq_false hlabel.symm (ne_of_mem_initialTexts s hs)

theorem fresh_of_mem_addBuiltins {t : TypeTable} (names : NameTable)
    (h : ∀ info ∈ t.types, ∃ kind parent name, info = .fresh kind parent name)
    (builtins : List (TypeKind × String)) :
    ∀ info ∈ (t.addBuiltins names builtins).1.types,
      ∃ kind parent name, info = .fresh kind parent name := by
  induction builtins generalizing t names with
  | nil => exact h
  | cons b rest ih =>
    refine ih _ fun info hinfo => ?_
    rcases mem_types_make hinfo with hold | hnew
    · exact h info hold
    · exact ⟨_, _, _, hnew⟩

/-- The types to begin with have no members and no methods. -/
theorem fresh_of_mem_initial (names : NameTable) {info : TypeInfo}
    (h : info ∈ (initial names).1.types) :
    ∃ kind parent name, info = .fresh kind parent name := by
  rw [initial_eq] at h
  refine fresh_of_mem_addBuiltins _ (fun info hinfo => ?_) builtins info h
  exact ⟨_, _, _, Array.mem_singleton.1 hinfo⟩

/-! ## 4. Walks along the parents -/

/-- The next stop after a type: its parent, unless it is its own parent. -/
def above (t : TypeTable) (id : TypeId) : Option TypeId :=
  (t.get? id).bind fun info => if info.parent = id then none else some info.parent

/-- A walk along the parents that ends, and its stops.  Nothing about it supposes a tree. -/
inductive Walks (t : TypeTable) : Option TypeId → List TypeId → Prop
  | rest : Walks t none []
  | stop {id : TypeId} {later : List TypeId} (h : Walks t (t.above id) later) :
    Walks t (some id) (id :: later)

/-- Where the walk from an identity begins: nowhere, if there is no such type. -/
def start (t : TypeTable) (id : TypeId) : Option TypeId := (t.get? id).map fun _ => id

variable {t : TypeTable}

/-- There is one walk only. -/
theorem Walks.unique {at? : Option TypeId} {stops stops' : List TypeId} (h : t.Walks at? stops)
    (h' : t.Walks at? stops') : stops = stops' := by
  induction h generalizing stops' with
  | rest =>
    cases h' with
    | rest => rfl
  | stop _ ih =>
    cases h' with
    | stop h' => rw [ih h']

namespace Tree

/-- A type other than the root comes after its parent, which is there. -/
theorem parent_of (h : t.Tree) {id : TypeId} {info : TypeInfo} (hid : t.get? id = some info)
    (hne : id ≠ .baseObject) :
    info.parent.index < id.index ∧ (t.get? info.parent).isSome = true := by
  have hpos : 0 < id.index := Nat.pos_of_ne_zero fun hzero => hne (congrArg TypeId.mk hzero)
  have hlt : info.parent.index < id.index :=
    h.below id.index info.parent info.name hpos (by rw [getElem?_shape, hid]; rfl)
  refine ⟨hlt, ?_⟩
  have hsize : id.index < t.types.size := (Array.getElem?_eq_some_iff.1 hid).1
  rw [get?, Array.getElem?_eq_getElem (Nat.lt_trans hlt hsize)]
  rfl

/-- The root is its own parent. -/
theorem root_of (h : t.Tree) :
    ∃ info, t.get? .baseObject = some info ∧ info.parent = .baseObject := by
  obtain ⟨name, hroot⟩ := h.root
  have hget := t.getElem?_shape .baseObject
  rw [show t.shape[TypeId.baseObject.index]? = _ from hroot] at hget
  obtain ⟨info, hinfo, heq⟩ := Option.map_eq_some_iff.1 hget.symm
  exact ⟨info, hinfo, (Prod.mk.inj heq).1⟩

/-- The chain of the root. -/
theorem chain_root (h : t.Tree) : t.chain .baseObject = [.baseObject] := by
  obtain ⟨info, hinfo, hparent⟩ := h.root_of
  rw [chain, hinfo]
  simp [hparent]

/-- The chain of a type other than the root. -/
theorem chain_of (h : t.Tree) {id : TypeId} {info : TypeInfo} (hid : t.get? id = some info)
    (hne : id ≠ .baseObject) : t.chain id = id :: t.chain info.parent := by
  rw [chain, hid]
  exact if_pos (h.parent_of hid hne).1

/-- **An induction from the root to its descendants.** -/
theorem induct (h : t.Tree) {P : TypeId → Prop} (root : P .baseObject)
    (derived : ∀ id info, t.get? id = some info → id ≠ .baseObject → P info.parent → P id)
    (id : TypeId) (hid : (t.get? id).isSome = true) : P id := by
  obtain ⟨n, hn⟩ : ∃ n, id.index = n := ⟨_, rfl⟩
  induction n using Nat.strongRecOn generalizing id with
  | ind n ih =>
    by_cases hroot : id = .baseObject
    · rw [hroot]
      exact root
    · obtain ⟨info, hinfo⟩ := Option.isSome_iff_exists.1 hid
      obtain ⟨hlt, hparent⟩ := h.parent_of hinfo hroot
      exact derived id info hinfo hroot (ih _ (hn ▸ hlt) _ hparent rfl)

/-- **The walk from a type ends**, and `chain` lists its stops. -/
theorem walks_chain (h : t.Tree) (id : TypeId) : t.Walks (t.start id) (t.chain id) := by
  cases hid : t.get? id with
  | none =>
    rw [start, hid, chain, hid]
    exact .rest
  | some info =>
    have hwalk : t.Walks (some id) (t.chain id) := by
      refine h.induct (P := fun id => t.Walks (some id) (t.chain id)) ?_ ?_ id (by rw [hid]; rfl)
      · obtain ⟨info, hinfo, hparent⟩ := h.root_of
        rw [h.chain_root]
        refine .stop ?_
        rw [above, hinfo, Option.bind_some, if_pos hparent]
        exact .rest
      · intro id info hinfo hne ih
        rw [h.chain_of hinfo hne]
        refine .stop ?_
        have hlt := (h.parent_of hinfo hne).1
        rw [above, hinfo, Option.bind_some, if_neg (by rintro heq; rw [heq] at hlt; omega)]
        exact ih
    rw [start, hid]
    exact hwalk

/-! ## 5. Chains -/

/-- The chain of a type goes down from it to the root. -/
theorem chain_descends (h : t.Tree) {id : TypeId} (hid : (t.get? id).isSome = true) :
    (t.chain id).head? = some id ∧ (t.chain id).getLast? = some .baseObject ∧
      (t.chain id).Pairwise (fun a b => b.index < a.index) ∧
      ∀ a ∈ t.chain id, a.index ≤ id.index ∧ (t.get? a).isSome = true := by
  refine h.induct (P := fun id => (t.chain id).head? = some id ∧
    (t.chain id).getLast? = some .baseObject ∧
    (t.chain id).Pairwise (fun a b => b.index < a.index) ∧
    ∀ a ∈ t.chain id, a.index ≤ id.index ∧ (t.get? a).isSome = true) ?_ ?_ id hid
  · obtain ⟨info, hinfo, -⟩ := h.root_of
    rw [h.chain_root]
    simp [hinfo]
  · rintro id info hinfo hne ⟨hhead, hlast, hdesc, hreg⟩
    have hlt := (h.parent_of hinfo hne).1
    rw [h.chain_of hinfo hne]
    refine ⟨rfl, ?_, List.pairwise_cons.2 ⟨?_, hdesc⟩, ?_⟩
    · rw [List.getLast?_cons, hlast]
      rfl
    · intro a ha
      exact Nat.lt_of_le_of_lt (hreg a ha).1 hlt
    · intro a ha
      rcases List.mem_cons.1 ha with rfl | ha
      · exact ⟨Nat.le_refl _, by rw [hinfo]; rfl⟩
      · exact ⟨Nat.le_trans (hreg a ha).1 (Nat.le_of_lt hlt), (hreg a ha).2⟩

/-- The chain of an ancestor is the rest of the chain. -/
theorem chain_suffix (h : t.Tree) {id ancestor : TypeId} (hid : (t.get? id).isSome = true)
    (hmem : ancestor ∈ t.chain id) : t.chain ancestor <:+ t.chain id := by
  refine h.induct (P := fun id => ancestor ∈ t.chain id → t.chain ancestor <:+ t.chain id) ?_ ?_
    id hid hmem
  · intro hmem
    rw [h.chain_root, List.mem_singleton] at hmem
    subst hmem
    exact List.suffix_rfl
  · intro id info hinfo hne ih hmem
    rw [h.chain_of hinfo hne, List.mem_cons] at hmem
    rcases hmem with rfl | hmem
    · exact List.suffix_rfl
    · rw [h.chain_of hinfo hne]
      exact (ih hmem).trans (List.suffix_cons _ _)

end Tree

theorem isSubtype_iff (t : TypeTable) (id ancestor : TypeId) :
    t.isSubtype id ancestor = true ↔ ancestor ∈ t.chain id := by
  simp [isSubtype]

/-- Only types have ancestors. -/
theorem isSome_of_mem_chain {id ancestor : TypeId} (h : ancestor ∈ t.chain id) :
    (t.get? id).isSome = true := by
  by_contra hnone
  rw [Option.not_isSome_iff_eq_none] at hnone
  rw [chain, hnone] at h
  cases h

/-! ## 6. Names and methods -/

theorem getElem?_names {id : TypeId} (hid : (t.get? id).isSome = true) :
    (t.shape.map Prod.snd)[id.index]? = some (t.nameOf id) := by
  obtain ⟨info, hinfo⟩ := Option.isSome_iff_exists.1 hid
  simp [getElem?_shape, nameOf, hinfo]

/-- **A name belongs to one type**: the two ways through the table undo each other. -/
theorem find_eq_some_iff (t : TypeTable) (name : Name) (id : TypeId) :
    t.find name = some id ↔ (t.get? id).isSome = true ∧ t.nameOf id = name := by
  have hinverse : t.find name = some id ↔ (t.get? id).map TypeInfo.name = some name :=
    t.inverse name id
  rw [hinverse, nameOf]
  cases t.get? id with
  | none => simp
  | some info => simp

/-- A type has a name, and what is no type has none. -/
theorem Tree.nameOf_isEmpty (h : t.Tree) (id : TypeId) :
    (t.nameOf id).isEmpty = (t.get? id).isNone := by
  cases hid : t.get? id with
  | none =>
    rw [nameOf, hid]
    rfl
  | some info =>
    have hget : (t.shape.map Prod.snd)[id.index]? = some (t.nameOf id) :=
      getElem?_names (by rw [hid]; rfl)
    obtain ⟨x, hx, hname⟩ := List.mem_map.1 (List.mem_of_getElem? hget)
    rw [← hname, h.named x hx]
    rfl

/-- The method of a name that a type has of its own. -/
def ownMethodOf (t : TypeTable) (name : Name) (id : TypeId) : Option MethodEntry :=
  (t.get? id).bind fun info => info.ownMethod name

/-- The outcome of looking for a method on the stops of a walk: the method of the first type that
has one of its own, and a refusal if none has. -/
inductive Finds (t : TypeTable) (name : Name) : List TypeId → Except Refusal Resolved → Prop
  | nowhere : Finds t name [] (.error .methodNotFound)
  | here {id : TypeId} {later : List TypeId} {entry : MethodEntry}
      (h : t.ownMethodOf name id = some entry) : Finds t name (id :: later) (.ok ⟨id, entry⟩)
  | further {id : TypeId} {later : List TypeId} {outcome : Except Refusal Resolved}
      (hnone : t.ownMethodOf name id = none) (h : Finds t name later outcome) :
      Finds t name (id :: later) outcome

/-- Methods are found along the chain. -/
theorem finds_lookupMethod (t : TypeTable) (id : TypeId) (name : Name) :
    t.Finds name (t.chain id) (t.lookupMethod id name) := by
  unfold lookupMethod
  induction t.chain id with
  | nil => exact .nowhere
  | cons owner rest ih =>
    cases hown : t.ownMethodOf name owner with
    | none =>
      have hbind := hown
      rw [ownMethodOf] at hbind
      simp only [List.findSome?_cons, hbind]
      exact .further hown ih
    | some entry =>
      have hbind := hown
      rw [ownMethodOf] at hbind
      simp only [List.findSome?_cons, hbind]
      exact .here hown

/-! ## 7. All sequences of changes -/

/-- The types form a tree, and what follows from it. -/
structure Resolves (t : TypeTable) : Prop where
  root : ∃ info, t.get? .baseObject = some info ∧ info.parent = .baseObject
  parents : ∀ (id : TypeId) (info : TypeInfo), t.get? id = some info → id ≠ .baseObject →
    info.parent.index < id.index ∧ (t.get? info.parent).isSome = true
  /-- There is one walk from a type; it ends at the root, with every stop smaller than the one
  before. -/
  chains : ∀ id, (t.get? id).isSome = true →
    (∀ stops, t.Walks (some id) stops ↔ stops = t.chain id) ∧ (t.chain id).head? = some id ∧
      (t.chain id).getLast? = some .baseObject ∧
      (t.chain id).Pairwise (fun a b => b.index < a.index) ∧ (t.chain id).Nodup
  refl : ∀ id, (t.get? id).isSome = true → t.isSubtype id id = true
  antisymm : ∀ a b, t.isSubtype a b = true → t.isSubtype b a = true → a = b
  trans : ∀ a b c, t.isSubtype a b = true → t.isSubtype b c = true → t.isSubtype a c = true
  greatest : ∀ id, (t.get? id).isSome = true → t.isSubtype id .baseObject = true
  /-- Only types are related at all. -/
  related : ∀ a b, t.isSubtype a b = true → (t.get? a).isSome = true ∧ (t.get? b).isSome = true
  names : ∀ (name : Name) (id : TypeId),
    t.find name = some id ↔ (t.get? id).isSome = true ∧ t.nameOf id = name
  unnamed : ∀ id, (t.nameOf id).isEmpty = (t.get? id).isNone
  /-- Looking for a method ends from every identity, of a type or not. -/
  methods : ∀ id, ∃ stops, t.Walks (t.start id) stops ∧
    ∀ name, t.Finds name stops (t.lookupMethod id name)

theorem Tree.resolves (h : t.Tree) : t.Resolves where
  root := h.root_of
  parents := fun _ _ => h.parent_of
  chains := by
    intro id hid
    obtain ⟨hhead, hlast, hdesc, -⟩ := h.chain_descends hid
    obtain ⟨info, hinfo⟩ := Option.isSome_iff_exists.1 hid
    have hwalk := h.walks_chain id
    rw [start, hinfo] at hwalk
    refine ⟨fun stops => ⟨fun hstops => hstops.unique hwalk, ?_⟩, hhead, hlast, hdesc, hdesc.imp ?_⟩
    · rintro rfl
      exact hwalk
    · rintro a b hlt rfl
      omega
  refl := by
    intro id hid
    rw [isSubtype_iff]
    exact List.mem_of_mem_head? (h.chain_descends hid).1
  antisymm := by
    intro a b hab hba
    rw [isSubtype_iff] at hab hba
    have hle := ((h.chain_descends (isSome_of_mem_chain hab)).2.2.2 b hab).1
    have hge := ((h.chain_descends (isSome_of_mem_chain hba)).2.2.2 a hba).1
    exact congrArg TypeId.mk (Nat.le_antisymm hge hle)
  trans := by
    intro a b c hab hbc
    rw [isSubtype_iff] at hab hbc ⊢
    exact (h.chain_suffix (isSome_of_mem_chain hab) hab).mem hbc
  greatest := by
    intro id hid
    rw [isSubtype_iff]
    exact List.mem_of_getLast? (h.chain_descends hid).2.1
  related := by
    intro a b hab
    rw [isSubtype_iff] at hab
    have ha := isSome_of_mem_chain hab
    exact ⟨ha, ((h.chain_descends ha).2.2.2 b hab).2⟩
  names := t.find_eq_some_iff
  unnamed := h.nameOf_isEmpty
  methods := fun id => ⟨t.chain id, h.walks_chain id, t.finds_lookupMethod id⟩

/-- **Types form a tree, and resolution ends**, over every sequence of changes, whatever their
arguments and whether they are accepted or refused.  Every type but the root has a parent with a
smaller identity; the walk from a type is strictly descending and ends at the root; types are
ordered by derivation with the root as the greatest; types and names determine each other; and the
method of a name is looked for on a walk that ends, from every identity.  A change that is refused
changes nothing. -/
theorem changeAll_resolves (texts : List String) (changes : List Change) :
    let t := (initial (NameTable.initial.internAll texts).2).1.changeAll changes
    t.Resolves ∧ ∀ c why t', t.change c = (.refused why, t') → t' = t := by
  intro t
  have htree := tree_initial (NameTable.initial.internAll texts).2
  exact ⟨(htree.changeAll changes).resolves, fun _ _ _ => change_refused⟩

end TypeTable

end ScriptMachine
