/-
# Types

Each type has one parent; the root, BaseObject, is its own.  A type can only be derived from a type
that is there already, so parents have smaller positions, the types form a tree, and every chain of
parents ends at the root.

A type has members with byte offsets, in the order they were added, until its first instance seals
it.  Its method table takes entries at any time, and a later entry replaces an earlier one of the
same name.

* `make` adds a type, `insertMember` a member, `insertMethod` a method, and `close` seals a type;
* `find` and `nameOf` go between types and their names.  The table is kept twice, as the types in the
  order of their identities and as the identities by their names, with the proof that the two agree;
* `chain` lists a type and its ancestors.
-/
import ScriptMachine.Value

namespace ScriptMachine

/-! ## 1. Descriptions of types -/

/-- What sort of values a type has; it decides the size of a value without members. -/
inductive TypeKind where
  | object | nil | boolean | integer | real | string | vector | function | builtinFn
  | moduleType | type
deriving DecidableEq, Inhabited

namespace TypeKind

/-- Every kind, in the order of the tables that list them. -/
def all : List TypeKind :=
  [object, nil, boolean, integer, real, string, vector, function, builtinFn, moduleType, type]

/-- The word for a kind. -/
def word : TypeKind → String
  | object => "Object"
  | nil => "Nil"
  | boolean => "Boolean"
  | integer => "Integer"
  | real => "Real"
  | string => "String"
  | vector => "Vector"
  | function => "Function"
  | builtinFn => "BuiltinFn"
  | moduleType => "Module"
  | type => "Type"

/-- Bytes of a value without members: nothing for nil, one for a boolean, a word for all others. -/
def baseSize : TypeKind → Nat
  | nil => 0
  | boolean => 1
  | integer | real | object | string | vector | function | builtinFn | moduleType | type => 8

end TypeKind

/-- A field of the instances of a type. -/
structure Member where
  name : Name
  type : TypeId
  offset : Nat
deriving DecidableEq, Inhabited

/-- A method and the place of its definition. -/
structure MethodEntry where
  callable : Callable
  location : Location

/-- A type.  The method table lists names newest first, each name once. -/
structure TypeInfo where
  kind : TypeKind
  parent : TypeId
  name : Name
  size : Nat
  members : Array Member
  methods : List (Name × MethodEntry)
  isSealed : Bool

instance : Inhabited TypeInfo := ⟨⟨.object, .baseObject, .empty, 0, #[], [], false⟩⟩

namespace TypeInfo

/-- A type without members and methods. -/
def fresh (kind : TypeKind) (parent : TypeId) (name : Name) : TypeInfo :=
  ⟨kind, parent, name, kind.baseSize, #[], [], false⟩

/-- The method of this very type, ancestors left aside. -/
def ownMethod (t : TypeInfo) (name : Name) : Option MethodEntry :=
  (t.methods.find? fun (n, _) => n = name).map Prod.snd

/-- How many methods the type has of its own. -/
def methodCount (t : TypeInfo) : Nat := t.methods.length

/-- Install a method, in place of any of the same name. -/
def setMethod (t : TypeInfo) (name : Name) (entry : MethodEntry) : TypeInfo :=
  { t with methods := (name, entry) :: t.methods.filter fun (n, _) => n ≠ name }

/-- Methods leave the name as it is. -/
theorem name_setMethod (t : TypeInfo) (name : Name) (entry : MethodEntry) :
    (t.setMethod name entry).name = t.name := rfl

/-- The member of a name, with its position. -/
def member? (t : TypeInfo) (name : Name) : Option (Nat × Member) :=
  (t.members.findIdx? fun m => m.name = name).bind fun i => t.members[i]?.map (i, ·)

end TypeInfo

/-! ## 2. The table of types -/

/-- All types in the order of their identities, and their identities by their names, the newest first.
A type is found under a name if and only if it has that name. -/
@[ext]
structure TypeTable where
  types : Array TypeInfo
  byName : List (Name × TypeId)
  inverse : ∀ (name : Name) (id : TypeId),
    byName.lookup name = some id ↔ types[id.index]?.map TypeInfo.name = some name

namespace TypeTable

/-- The description of a type, if there is such a type. -/
def get? (t : TypeTable) (id : TypeId) : Option TypeInfo := t.types[id.index]?

/-- How many types there are. -/
def size (t : TypeTable) : Nat := t.types.size

/-- The types are numbered from zero. -/
theorem isSome_get?_iff {t : TypeTable} {id : TypeId} :
    (t.get? id).isSome = true ↔ id.index < t.size := by
  simp [get?, size]

/-- Holds of a table without types. -/
def isEmpty (t : TypeTable) : Bool := t.types.isEmpty

/-- The type with a given name. -/
def find (t : TypeTable) (name : Name) : Option TypeId := t.byName.lookup name

/-- The name of a type; the empty name for what is no type. -/
def nameOf (t : TypeTable) (id : TypeId) : Name :=
  match t.get? id with
  | some info => info.name
  | none => .empty

/-- The table with one type, the root. -/
def root (name : Name) : TypeTable where
  types := #[.fresh .object .baseObject name]
  byName := [(name, .baseObject)]
  inverse := by
    rintro name' ⟨i⟩
    rw [Array.getElem?_singleton, List.lookup_cons]
    by_cases hname : name' = name
    · grind [TypeInfo.fresh, TypeId.baseObject]
    · grind [TypeInfo.fresh]

/-- The table with one more type, which takes the next identity.  A type whose name is taken is not
added. -/
def push (t : TypeTable) (info : TypeInfo) : TypeTable :=
  if h : t.find info.name = none then
    { types := t.types.push info
      byName := (info.name, ⟨t.size⟩) :: t.byName
      inverse := by
        rintro name ⟨i⟩
        have hnone : t.byName.lookup info.name = none := h
        have hold := t.inverse name ⟨i⟩
        rw [Array.getElem?_push, List.lookup_cons]
        by_cases hname : name = info.name
        · -- no type that was there has the new name
          subst hname
          rw [hnone] at hold
          rw [beq_self_eq_true]
          grind [size]
        · have hlast : t.types[t.size]? = none := Array.getElem?_eq_none (Nat.le_refl _)
          rw [beq_false_of_ne hname]
          grind [size] }
  else t

theorem types_push {t : TypeTable} {info : TypeInfo} (h : t.find info.name = none) :
    (t.push info).types = t.types.push info := by
  rw [push, dif_pos h]

theorem size_push {t : TypeTable} {info : TypeInfo} (h : t.find info.name = none) :
    (t.push info).size = t.size + 1 := by
  rw [size, types_push h, Array.size_push, size]

/-- Change the description of a type that is there, all but its name. -/
def modify (t : TypeTable) (id : TypeId) (f : TypeInfo → TypeInfo)
    (hf : ∀ info, (f info).name = info.name) : TypeTable where
  types := t.types.modify id.index f
  byName := t.byName
  inverse := by
    intro name other
    rw [t.inverse, Array.getElem?_modify]
    split
    · rw [Option.map_map, show TypeInfo.name ∘ f = TypeInfo.name from funext hf]
    · rfl

theorem get?_modify (t : TypeTable) (id : TypeId) {f : TypeInfo → TypeInfo}
    (hf : ∀ info, (f info).name = info.name) (other : TypeId) :
    (t.modify id f hf).get? other = if other = id then (t.get? other).map f else t.get? other := by
  rw [get?, modify, Array.getElem?_modify]
  by_cases h : other = id
  · rw [if_pos h, if_pos (by rw [h]), get?]
  · rw [if_neg h, if_neg fun heq => h (congrArg TypeId.mk heq.symm), get?]

/-- Two changes of one type are one. -/
theorem modify_modify (t : TypeTable) (id : TypeId) {f g : TypeInfo → TypeInfo}
    (hf : ∀ info, (f info).name = info.name) (hg : ∀ info, (g info).name = info.name) :
    (t.modify id f hf).modify id g hg =
      t.modify id (g ∘ f) fun info => (hg (f info)).trans (hf info) := by
  refine TypeTable.ext ?_ rfl
  refine Array.ext_getElem? fun i => ?_
  simp only [modify, Array.getElem?_modify]
  split
  · rw [Option.map_map]
  · rfl

/-- The most types a table can have: 2^32. -/
def maxTypes : Nat := 0x100000000

/-- Add a type derived from `parent`.  It needs an identity, a name that no other type has, and a
parent that is there already; what is wrong with the arguments is told before a name that is taken. -/
def make (t : TypeTable) (kind : TypeKind) (parent : TypeId) (name : Name) :
    Except Refusal TypeId × TypeTable :=
  let id : TypeId := ⟨t.size⟩
  if maxTypes ≤ t.size then (.error .allocFailed, t)
  else if name.isEmpty || parent = id || (t.get? parent).isNone then (.error .invalidArgument, t)
  else if (t.find name).isSome then (.error .keyAlreadyInTable, t)
  else (.ok id, t.push (.fresh kind parent name))

/-- **What a request for a new type comes to.**  It is refused and changes nothing, or the type is
added as the last one, with a parent that was there and a new name. -/
theorem make_cases (t : TypeTable) (kind : TypeKind) (parent : TypeId) (name : Name) :
    (∃ why, t.make kind parent name = (.error why, t)) ∨
    ((name.isEmpty = false ∧ (t.get? parent).isSome = true ∧ t.find name = none) ∧
      t.make kind parent name = (.ok ⟨t.size⟩, t.push (.fresh kind parent name))) := by
  unfold make
  dsimp only
  split
  · exact .inl ⟨_, rfl⟩
  · split
    · exact .inl ⟨_, rfl⟩
    · next hargs =>
      split
      · exact .inl ⟨_, rfl⟩
      · next hname =>
        simp only [Bool.or_eq_true, Option.isNone_iff_eq_none, not_or, Bool.not_eq_true] at hargs
        exact .inr ⟨⟨hargs.1.1, Option.isSome_iff_ne_none.2 hargs.2, by simpa using hname⟩, rfl⟩

/-- With room for a type, a name that is new and a parent that is there, the type is made. -/
theorem make_eq {t : TypeTable} {parent : TypeId} {name : Name} (hroom : t.size < maxTypes)
    (hname : name.isEmpty = false) (hparent : (t.get? parent).isSome = true)
    (hnew : t.find name = none) (kind : TypeKind) :
    t.make kind parent name = (.ok ⟨t.size⟩, t.push (.fresh kind parent name)) := by
  have hother : parent ≠ ⟨t.size⟩ := by
    rintro rfl
    exact Nat.lt_irrefl _ (isSome_get?_iff.1 hparent)
  rw [make, if_neg (Nat.not_le.2 hroom), if_neg, if_neg]
  · rw [hnew]
    exact Bool.false_ne_true
  · rw [hname, decide_eq_false hother, Option.isNone_eq_false_iff.2 hparent]
    exact Bool.false_ne_true

theorem of_make_ok {t t' : TypeTable} {kind : TypeKind} {parent id : TypeId} {name : Name}
    (h : t.make kind parent name = (.ok id, t')) :
    name.isEmpty = false ∧ (t.get? parent).isSome = true ∧ t.find name = none ∧
      id = ⟨t.size⟩ ∧ t' = t.push (.fresh kind parent name) := by
  rcases t.make_cases kind parent name with ⟨why, hmake⟩ | ⟨⟨hname, hparent, hnew⟩, hmake⟩
  · rw [hmake] at h
    cases h
  · rw [hmake] at h
    obtain ⟨hid, ht⟩ := Prod.mk.inj h
    exact ⟨hname, hparent, hnew, (Except.ok.inj hid).symm, ht.symm⟩

theorem get?_push {t : TypeTable} {info : TypeInfo} (h : t.find info.name = none) (other : TypeId) :
    (t.push info).get? other = if other = ⟨t.size⟩ then some info else t.get? other := by
  rw [get?, types_push h, Array.getElem?_push, get?]
  by_cases hother : other = ⟨t.size⟩
  · have hindex : other.index = t.types.size := congrArg TypeId.index hother
    rw [if_pos hindex, if_pos hother]
  · have hindex : ¬ other.index = t.types.size := fun heq => hother (congrArg TypeId.mk heq)
    rw [if_neg hindex, if_neg hother]

theorem get?_make {t t' : TypeTable} {kind : TypeKind} {parent made : TypeId} {name : Name}
    (h : t.make kind parent name = (.ok made, t')) (other : TypeId) :
    t'.get? other = if other = made then some (.fresh kind parent name) else t.get? other := by
  obtain ⟨-, -, hnew, rfl, rfl⟩ := of_make_ok h
  exact get?_push hnew other

/-- After a request for a new type there are the types that were there, and at most the new one. -/
theorem mem_types_make {t : TypeTable} {kind : TypeKind} {parent : TypeId} {name : Name}
    {info : TypeInfo} (h : info ∈ (t.make kind parent name).2.types) :
    info ∈ t.types ∨ info = .fresh kind parent name := by
  rcases t.make_cases kind parent name with ⟨why, hmake⟩ | ⟨⟨-, -, hnew⟩, hmake⟩
  · rw [hmake] at h
    exact .inl h
  · rw [hmake, types_push hnew] at h
    exact Array.mem_push.1 h

/-- What became of a request for a new member. -/
inductive MemberResult where
  /-- The member was added at this offset. -/
  | placed (offset : Nat)
  /-- The request was refused, and nothing changed. -/
  | refused (why : Refusal)
  /-- The member was added, but the size of the type cannot be told in 64 bits.  This is what a build
  with overflow checks comes to; one without them wraps the size around and answers. -/
  | sizeOverflow

/-- Sizes in bytes stay below 2^64. -/
def sizeLimit : Nat := 0x10000000000000000

/-- Add a member at the end of a type.  Its bytes follow those of the members before it.  Sizes are
taken to be checked for overflow. -/
def insertMember (t : TypeTable) (id : TypeId) (name : Name) (memberType : TypeId) :
    MemberResult × TypeTable :=
  match t.get? memberType, t.get? id with
  | none, _ | _, none => (.refused .invalidArgument, t)
  | some memberInfo, some info =>
    if info.isSealed || name.isEmpty then (.refused .invalidArgument, t)
    else if info.members.any fun m => m.name = name then (.refused .keyAlreadyInTable, t)
    else
      let member : Member := ⟨name, memberType, info.size⟩
      let t := t.modify id (fun info => { info with members := info.members.push member })
        fun _ => rfl
      if info.size + memberInfo.size < sizeLimit then
        (.placed info.size,
          t.modify id (fun info => { info with size := info.size + memberInfo.size }) fun _ => rfl)
      else (.sizeOverflow, t)

/-- **What a request for a new member comes to.**  It is refused and changes nothing, or the member is
added at the end of a type that is open and has none of its name, and the type grows by the size that
the member's type has, if that can be told. -/
theorem insertMember_cases (t : TypeTable) (id : TypeId) (name : Name) (memberType : TypeId) :
    (∃ why, t.insertMember id name memberType = (.refused why, t)) ∨
    ∃ info memberInfo, t.get? id = some info ∧ t.get? memberType = some memberInfo ∧
      (info.isSealed = false ∧ name.isEmpty = false ∧ ∀ x ∈ info.members, x.name ≠ name) ∧
      ((info.size + memberInfo.size < sizeLimit ∧
          t.insertMember id name memberType = (.placed info.size, t.modify id (fun old =>
            { old with
              members := old.members.push ⟨name, memberType, info.size⟩
              size := old.size + memberInfo.size }) fun _ => rfl)) ∨
        (sizeLimit ≤ info.size + memberInfo.size ∧
          t.insertMember id name memberType = (.sizeOverflow, t.modify id (fun old =>
            { old with members := old.members.push ⟨name, memberType, info.size⟩ })
            fun _ => rfl))) := by
  unfold insertMember
  split
  · exact .inl ⟨_, rfl⟩
  · exact .inl ⟨_, rfl⟩
  · next memberInfo info hmember hinfo =>
    split
    · exact .inl ⟨_, rfl⟩
    · next hopen =>
      split
      · exact .inl ⟨_, rfl⟩
      · next hnew =>
        simp only [Bool.or_eq_true, not_or, Bool.not_eq_true] at hopen
        simp only [Array.any_eq_true', decide_eq_true_eq, not_exists, not_and] at hnew
        refine .inr ⟨info, memberInfo, hinfo, hmember, ⟨hopen.1, hopen.2, hnew⟩, ?_⟩
        dsimp only
        split
        · next hlt =>
          rw [modify_modify]
          exact .inl ⟨hlt, rfl⟩
        · next hge => exact .inr ⟨Nat.le_of_not_lt hge, rfl⟩

/-- A member of a type, with its position. -/
def lookupMember (t : TypeTable) (id : TypeId) (name : Name) : Option (Nat × Member) :=
  match t.get? id with
  | some info => info.member? name
  | none => none

/-- Install a method under its own name.  Ancestors keep theirs. -/
def insertMethod (t : TypeTable) (id : TypeId) (callable : Callable) (location : Location) :
    Except Refusal Unit × TypeTable :=
  if callable.name.isEmpty || (t.get? id).isNone then (.error .invalidArgument, t)
  else (.ok (), t.modify id (fun info => info.setMethod callable.name ⟨callable, location⟩)
    fun info => info.name_setMethod _ _)

/-- **What a request for a new method comes to.**  It is refused and changes nothing, or the method
has a name and is installed on a type that is there. -/
theorem insertMethod_cases (t : TypeTable) (id : TypeId) (callable : Callable)
    (location : Location) :
    (∃ why, t.insertMethod id callable location = (.error why, t)) ∨
    ((callable.name.isEmpty = false ∧ (t.get? id).isSome = true) ∧
      t.insertMethod id callable location = (.ok (), t.modify id
        (fun info => info.setMethod callable.name ⟨callable, location⟩)
        fun info => info.name_setMethod _ _)) := by
  unfold insertMethod
  split
  · exact .inl ⟨_, rfl⟩
  · next hargs =>
    simp only [Bool.or_eq_true, Option.isNone_iff_eq_none, not_or, Bool.not_eq_true] at hargs
    exact .inr ⟨⟨hargs.1, Option.isSome_iff_ne_none.2 hargs.2⟩, rfl⟩

/-- A method with a name is installed on every type that is there. -/
theorem insertMethod_eq {t : TypeTable} {id : TypeId} {callable : Callable}
    (hname : callable.name.isEmpty = false) (hid : (t.get? id).isSome = true)
    (location : Location) :
    t.insertMethod id callable location = (.ok (), t.modify id
      (fun info => info.setMethod callable.name ⟨callable, location⟩)
      fun info => info.name_setMethod _ _) := by
  rw [insertMethod, if_neg]
  rw [hname, Option.isNone_eq_false_iff.2 hid]
  exact Bool.false_ne_true

/-- Close a type for new members.  Closing it again changes nothing. -/
def close (t : TypeTable) (id : TypeId) : Except Refusal Unit × TypeTable :=
  if (t.get? id).isNone then (.error .invalidArgument, t)
  else (.ok (), t.modify id (fun info => { info with isSealed := true }) fun _ => rfl)

/-- **What a request to close a type comes to.**  It is refused and changes nothing, or the type is
there and is closed. -/
theorem close_cases (t : TypeTable) (id : TypeId) :
    (∃ why, t.close id = (.error why, t)) ∨
    ((t.get? id).isSome = true ∧
      t.close id = (.ok (), t.modify id (fun info => { info with isSealed := true })
        fun _ => rfl)) := by
  unfold close
  split
  · exact .inl ⟨_, rfl⟩
  · next hid =>
    rw [Option.isNone_iff_eq_none] at hid
    exact .inr ⟨Option.isSome_iff_ne_none.2 hid, rfl⟩

/-- A type that is there is closed. -/
theorem close_eq {t : TypeTable} {id : TypeId} (hid : (t.get? id).isSome = true) :
    t.close id = (.ok (), t.modify id (fun info => { info with isSealed := true })
      fun _ => rfl) := by
  rw [close, if_neg]
  rw [Option.isNone_eq_false_iff.2 hid]
  exact Bool.false_ne_true

/-! ## 3. Chains -/

/-- A type, its parent, and so on up to the root.  Parents have smaller positions; a type that is
its own parent ends the chain. -/
def chain (t : TypeTable) (id : TypeId) : List TypeId :=
  match t.get? id with
  | none => []
  | some info =>
    if info.parent.index < id.index then id :: chain t info.parent else [id]
termination_by id.index

/-- Whether `ancestor` is the type itself or on its chain. -/
def isSubtype (t : TypeTable) (id ancestor : TypeId) : Bool := (t.chain id).contains ancestor

/-! ## 4. The types that are always there -/

/-- The built-in types below the root, in the order of their identities. -/
def builtins : List (TypeKind × String) :=
  [(.nil, "Nil"), (.boolean, "Boolean"), (.integer, "Integer"), (.real, "Real"),
   (.string, "String"), (.vector, "Vector"), (.function, "Function"), (.builtinFn, "BuiltinFn"),
   (.moduleType, "Module"), (.type, "Type")]

/-- Add the built-in types of a list below the root. -/
def addBuiltins (t : TypeTable) (names : NameTable) :
    List (TypeKind × String) → TypeTable × NameTable
  | [] => (t, names)
  | (kind, text) :: rest =>
    let (name, names) := names.intern text
    addBuiltins (t.make kind .baseObject name).2 names rest

/-- The root and the built-in types, with empty method tables; their names are interned in the
order of their identities. -/
def initial (names : NameTable) : TypeTable × NameTable :=
  let (name, names) := names.intern "BaseObject"
  addBuiltins (root name) names builtins

theorem initial_eq (names : NameTable) :
    initial names =
      addBuiltins (root (names.intern "BaseObject").1) (names.intern "BaseObject").2 builtins := by
  rw [initial]

end TypeTable

end ScriptMachine
