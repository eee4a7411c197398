/-
# The layout of instances

A member is placed at the end of its type and gets the bytes that its own type has at that moment.  So
the members of a type lie one after the other without a gap, and the recorded size is where the last
one ends.

The room of a member stays what it was, while the type of the member may take further members and grow.
Then the room is too small: a value of the member's type reaches into the next member or beyond the end,
and the recorded size is less than what the members need by now.  A type that takes a member of its own
type is too small at once.  The layout is sound as long as no type grows after a member was given its
size, for instance if every type has all its members before it is the type of one.

* `TypeTable.SoundLayout`: every member has the bytes that its type needs;
* `TypeInfo.Laid`: the members lie one after the other, each in a room of its own;
* `TypeTable.Laying`, `TypeTable.laying_change`: what one change can do to a layout;
* `TypeTable.LaidOut.change`, `TypeTable.Exact.change`: what one change keeps;
* `TypeTable.changeAll_layout`: all sequences of changes.
-/
import Mathlib.Algebra.Order.BigOperators.Group.List
import Mathlib.Algebra.Order.Ring.Nat
import Mathlib.Order.CompletePartialOrder
import Mathlib.Order.Interval.Set.Disjoint
import ScriptMachine.Proofs.TypeTree

namespace ScriptMachine

/-! ## 1. Rooms -/

/-- The members of a type lie one after the other, in rooms of these sizes, after the bytes that every
value of the kind has. -/
structure TypeInfo.Laid (info : TypeInfo) (rooms : List Nat) : Prop where
  length_eq : rooms.length = info.members.size
  offset_eq : ∀ i (m : Member), info.members[i]? = some m →
    m.offset = info.kind.baseSize + (rooms.take i).sum
  size_eq : info.size = info.kind.baseSize + rooms.sum

namespace TypeInfo.Laid

variable {info info' : TypeInfo} {rooms : List Nat}

/-- A type without members has no rooms. -/
theorem nil (hmembers : info.members = #[]) (hsize : info.size = info.kind.baseSize) :
    info.Laid [] where
  length_eq := by rw [hmembers]; rfl
  offset_eq := by
    intro i m hm
    rw [hmembers] at hm
    simp at hm
  size_eq := hsize

/-- One more member has a room behind the others. -/
theorem push (h : info.Laid rooms) {member : Member} {room : Nat} (hkind : info'.kind = info.kind)
    (hmembers : info'.members = info.members.push member) (hoffset : member.offset = info.size)
    (hsize : info'.size = info.size + room) : info'.Laid (rooms ++ [room]) where
  length_eq := by rw [hmembers, Array.size_push, ← h.length_eq, List.length_append,
    List.length_singleton]
  offset_eq := by
    intro i m hm
    rw [hmembers, Array.getElem?_push] at hm
    rw [hkind]
    split at hm
    · next hlast =>
      obtain rfl := Option.some.inj hm
      rw [hoffset, h.size_eq, hlast, ← h.length_eq, List.take_left]
    · have hlt : i < rooms.length := by
        rw [h.length_eq]
        exact (Array.getElem?_eq_some_iff.1 hm).1
      rw [List.take_append_of_le_length (Nat.le_of_lt hlt)]
      exact h.offset_eq i m hm
  size_eq := by rw [hsize, h.size_eq, hkind, List.sum_append, List.sum_singleton, Nat.add_assoc]

/-- A layout that stays. -/
theorem congr (h : info.Laid rooms) (hkind : info'.kind = info.kind)
    (hsize : info'.size = info.size) (hmembers : info'.members = info.members) :
    info'.Laid rooms where
  length_eq := by rw [hmembers, h.length_eq]
  offset_eq := by rw [hmembers, hkind]; exact h.offset_eq
  size_eq := by rw [hsize, hkind, h.size_eq]

end TypeInfo.Laid

/-- The rooms before an earlier place are among those before a later one. -/
theorem sum_take_le (rooms : List Nat) {i j : Nat} (h : i ≤ j) :
    (rooms.take i).sum ≤ (rooms.take j).sum :=
  (List.take_sublist_take_left h).sum_le_sum fun _ _ => Nat.zero_le _

/-- Numbers that are none of them too large are the right ones if their sum is. -/
theorem eq_of_sum_eq {rooms sizes : List Nat} (hle : List.Forall₂ (· ≤ ·) rooms sizes)
    (hsum : rooms.sum = sizes.sum) : rooms = sizes := by
  induction hle with
  | nil => rfl
  | @cons room size rooms sizes hroom hrest ih =>
    have hrestSum := hrest.sum_le_sum
    rw [List.sum_cons, List.sum_cons] at hsum
    rw [show room = size by omega, ih (by omega)]

namespace TypeTable

/-! ## 2. Sound layouts -/

/-- The recorded size of a type, in bytes. -/
def byteSize (t : TypeTable) (id : TypeId) : Nat := ((t.get? id).map TypeInfo.size).getD 0

/-- The sizes that the types of the members have by now. -/
def memberSizes (t : TypeTable) (info : TypeInfo) : List Nat :=
  info.members.toList.map fun m => t.byteSize m.type

/-- The bytes of a member that is as large as its type. -/
def bytes (t : TypeTable) (m : Member) : Set Nat := Set.Ico m.offset (m.offset + t.byteSize m.type)

/-- The recorded size is that of the kind and of all members, and the members are apart from each other
and within the bytes between the two. -/
structure SoundLayout (t : TypeTable) (info : TypeInfo) : Prop where
  size_eq : info.size = info.kind.baseSize + (t.memberSizes info).sum
  apart : info.members.toList.Pairwise fun a b => Disjoint (t.bytes a) (t.bytes b)
  within : ∀ m ∈ info.members, info.kind.baseSize ≤ m.offset ∧
    m.offset + t.byteSize m.type ≤ info.size

variable {t : TypeTable} {info : TypeInfo} {rooms : List Nat}

theorem byteSize_eq {id : TypeId} (h : t.get? id = some info) : t.byteSize id = info.size := by
  rw [byteSize, h]
  rfl

/-- Where a member ends that is as large as its type. -/
theorem end_eq (h : info.Laid (t.memberSizes info)) {i : Nat} (hi : i < info.members.size) :
    info.members[i].offset + t.byteSize info.members[i].type =
      info.kind.baseSize + ((t.memberSizes info).take (i + 1)).sum := by
  have hlen : i < (t.memberSizes info).length := by rwa [h.length_eq]
  rw [h.offset_eq i _ (Array.getElem?_eq_getElem hi), List.sum_take_succ _ _ hlen, Nat.add_assoc]
  congr 2
  simp [memberSizes]

/-- A layout is sound if the rooms are as large as the types of the members. -/
theorem soundLayout_of_laid (h : info.Laid (t.memberSizes info)) : t.SoundLayout info where
  size_eq := h.size_eq
  apart := by
    rw [List.pairwise_iff_getElem]
    intro i j hi hj hij
    rw [Array.length_toList] at hi hj
    rw [Array.getElem_toList, Array.getElem_toList]
    refine Set.Ico_disjoint_Ico.2 ?_
    have hbefore := sum_take_le (t.memberSizes info) (show i + 1 ≤ j from hij)
    have hend := end_eq h hi
    have hstart := h.offset_eq j _ (Array.getElem?_eq_getElem hj)
    omega
  within := by
    intro m hm
    obtain ⟨i, hi, rfl⟩ := Array.getElem_of_mem hm
    have hend := end_eq h hi
    have hstart := h.offset_eq i _ (Array.getElem?_eq_getElem hi)
    have hall := sum_take_le (t.memberSizes info) (show i + 1 ≤ (t.memberSizes info).length by
      rwa [h.length_eq])
    rw [List.take_length] at hall
    have hsize := h.size_eq
    omega

/-- **A layout is sound exactly if no type has outgrown its room.** -/
theorem soundLayout_iff (h : info.Laid rooms)
    (hle : List.Forall₂ (· ≤ ·) rooms (t.memberSizes info)) :
    t.SoundLayout info ↔ rooms = t.memberSizes info := by
  constructor
  · intro hsound
    refine eq_of_sum_eq hle (Nat.add_left_cancel (n := info.kind.baseSize) ?_)
    rw [← h.size_eq, ← hsound.size_eq]
  · rintro rfl
    exact soundLayout_of_laid h

/-! ## 3. One change -/

/-- What one change makes of a type, as far as its layout goes. -/
inductive Laying (t : TypeTable) (c : Change) (id : TypeId) (info' : TypeInfo) : Prop where
  /-- The layout stays. -/
  | kept {info : TypeInfo} : t.get? id = some info → info'.kind = info.kind →
      info'.size = info.size → info'.members = info.members → Laying t c id info'
  /-- The type is new. -/
  | made : t.get? id = none → info'.members = #[] → info'.size = info'.kind.baseSize →
      Laying t c id info'
  /-- A member gets the bytes that its type has. -/
  | placed {info : TypeInfo} {name : Name} {memberType : TypeId} :
      c = .insertMember id name memberType → t.get? id = some info →
      (t.get? memberType).isSome = true → info'.kind = info.kind →
      info'.members = info.members.push ⟨name, memberType, info.size⟩ →
      info'.size = info.size + t.byteSize memberType → Laying t c id info'
  /-- A member gets no bytes, as the size cannot be told. -/
  | overflowed {info : TypeInfo} {name : Name} {memberType : TypeId} :
      (t.change c).1 = .sizeOverflow → t.get? id = some info → info'.kind = info.kind →
      info'.members = info.members.push ⟨name, memberType, info.size⟩ →
      info'.size = info.size → Laying t c id info'

theorem Laying.refl {c : Change} {id : TypeId} (h : t.get? id = some info) :
    t.Laying c id info := .kept h rfl rfl rfl

/-- A change of one type that leaves layouts alone. -/
theorem Laying.modify {c : Change} {id other : TypeId} {info' : TypeInfo} {f : TypeInfo → TypeInfo}
    {hname : ∀ info, (f info).name = info.name} (h : (t.modify id f hname).get? other = some info')
    (hf : ∀ info, (f info).kind = info.kind ∧ (f info).size = info.size ∧
      (f info).members = info.members) : t.Laying c other info' := by
  rw [get?_modify] at h
  split at h
  · obtain ⟨info, hinfo, rfl⟩ := Option.map_eq_some_iff.1 h
    obtain ⟨hkind, hsize, hmembers⟩ := hf info
    exact .kept hinfo hkind hsize hmembers
  · exact .refl h

/-- **What one change can do to a layout.** -/
theorem laying_change (t : TypeTable) (c : Change) {id : TypeId} {info' : TypeInfo}
    (h : (t.change c).2.get? id = some info') : t.Laying c id info' := by
  cases c with
  | make kind parent name =>
    rcases t.make_cases kind parent name with ⟨why, hmake⟩ | ⟨⟨-, -, hnew⟩, hmake⟩
    · rw [change, hmake] at h
      exact .refl h
    · rw [change, hmake, Prod.map_snd, id_eq, get?_push hnew] at h
      split at h
      · next hid =>
        obtain rfl := Option.some.inj h
        refine .made ?_ rfl rfl
        rw [hid]
        exact Array.getElem?_eq_none (Nat.le_refl _)
      · exact .refl h
  | insertMember owner name memberType =>
    rcases t.insertMember_cases owner name memberType with ⟨why, hrefused⟩ |
      ⟨info, memberInfo, hinfo, hmember, -, ⟨-, hplaced⟩ | ⟨-, hover⟩⟩
    · rw [change, hrefused] at h
      exact .refl h
    · rw [change, hplaced, Prod.map_snd, id_eq, get?_modify] at h
      split at h
      · next hid =>
        subst hid
        rw [hinfo] at h
        obtain rfl := Option.some.inj h
        refine .placed rfl hinfo (by rw [hmember]; rfl) rfl rfl ?_
        rw [byteSize_eq hmember]
      · exact .refl h
    · rw [change, hover, Prod.map_snd, id_eq, get?_modify] at h
      split at h
      · next hid =>
        subst hid
        rw [hinfo] at h
        obtain rfl := Option.some.inj h
        exact .overflowed (by rw [change, hover]; rfl) hinfo rfl rfl rfl
      · exact .refl h
  | insertMethod owner callable location =>
    rcases t.insertMethod_cases owner callable location with ⟨why, hinsert⟩ | ⟨-, hinsert⟩
    · rw [change, hinsert] at h
      exact .refl h
    · simp only [change, hinsert, Prod.map_snd, id_eq] at h
      exact .modify h fun _ => ⟨rfl, rfl, rfl⟩
  | close owner =>
    rcases t.close_cases owner with ⟨why, hclose⟩ | ⟨-, hclose⟩
    · rw [change, hclose] at h
      exact .refl h
    · simp only [change, hclose, Prod.map_snd, id_eq] at h
      exact .modify h fun _ => ⟨rfl, rfl, rfl⟩

/-- Types stay. -/
theorem isSome_change (t : TypeTable) (c : Change) {id : TypeId} (h : (t.get? id).isSome = true) :
    ((t.change c).2.get? id).isSome = true := by
  have hsize : t.size ≤ (t.change c).2.size := by
    rw [← length_shape, ← length_shape]
    rcases t.change_cases c with hsame | ⟨parent, name, -, -, -, hshape⟩
    · rw [hsame]
    · rw [hshape, List.length_append]
      exact Nat.le_add_right _ _
  rw [isSome_get?_iff] at h ⊢
  exact Nat.lt_of_lt_of_le h hsize

/-- A type that is there grows only by a member of its own. -/
theorem byteSize_change (c : Change) {id : TypeId} (h : (t.get? id).isSome = true) :
    (t.change c).2.byteSize id = t.byteSize id ∨
      t.byteSize id ≤ (t.change c).2.byteSize id ∧
        ∃ name memberType, c = .insertMember id name memberType := by
  obtain ⟨info', hinfo'⟩ := Option.isSome_iff_exists.1 (t.isSome_change c h)
  rw [byteSize_eq hinfo']
  cases t.laying_change c hinfo' with
  | kept hinfo _ hsize _ => exact .inl (by rw [byteSize_eq hinfo, hsize])
  | made hnone _ _ =>
    rw [hnone] at h
    cases h
  | @placed info name memberType hc hinfo _ _ _ hsize =>
    refine .inr ⟨?_, name, memberType, hc⟩
    rw [byteSize_eq hinfo, hsize]
    exact Nat.le_add_right _ _
  | overflowed _ hinfo _ _ hsize => exact .inl (by rw [byteSize_eq hinfo, hsize])

theorem byteSize_le_change (t : TypeTable) (c : Change) (id : TypeId) :
    t.byteSize id ≤ (t.change c).2.byteSize id := by
  cases h : t.get? id with
  | none =>
    rw [byteSize, h]
    exact Nat.zero_le _
  | some info =>
    rcases byteSize_change c (by rw [h]; rfl : (t.get? id).isSome = true) with heq | ⟨hle, -⟩
    · exact Nat.le_of_eq heq.symm
    · exact hle

/-- **The room of a member** is the size that its type has when the member is added, and stays. -/
theorem laid_change {c : Change} (hno : (t.change c).1 ≠ .sizeOverflow) {id : TypeId}
    (hinfo : t.get? id = some info) (hlaid : info.Laid rooms) :
    ∃ info', (t.change c).2.get? id = some info' ∧
      (info'.Laid rooms ∨ ∃ name memberType, c = .insertMember id name memberType ∧
        info'.Laid (rooms ++ [t.byteSize memberType])) := by
  obtain ⟨info', hinfo'⟩ := Option.isSome_iff_exists.1 (t.isSome_change c (by rw [hinfo]; rfl))
  refine ⟨info', hinfo', ?_⟩
  cases t.laying_change c hinfo' with
  | kept hold hkind hsize hmembers =>
    obtain rfl := Option.some.inj (hinfo.symm.trans hold)
    exact .inl (hlaid.congr hkind hsize hmembers)
  | made hnone _ _ =>
    rw [hnone] at hinfo
    cases hinfo
  | @placed _ name memberType hc hold _ hkind hmembers hsize =>
    obtain rfl := Option.some.inj (hinfo.symm.trans hold)
    exact .inr ⟨name, memberType, hc, hlaid.push hkind hmembers rfl hsize⟩
  | overflowed hover _ _ _ _ => exact absurd hover hno

/-! ## 4. All layouts -/

/-- Every type has its members in rooms, none of which is larger than the type of the member. -/
def LaidOut (t : TypeTable) : Prop := ∀ id info, t.get? id = some info →
  ∃ rooms, info.Laid rooms ∧ List.Forall₂ (· ≤ ·) rooms (t.memberSizes info)

/-- Types that grow do not make rooms larger. -/
theorem forall₂_memberSizes {t' : TypeTable} {info' : TypeInfo}
    (hle : List.Forall₂ (· ≤ ·) rooms (t.memberSizes info))
    (hgrow : ∀ id, t.byteSize id ≤ t'.byteSize id) (hmembers : info'.members = info.members) :
    List.Forall₂ (· ≤ ·) rooms (t'.memberSizes info') := by
  rw [memberSizes, List.forall₂_map_right_iff] at hle ⊢
  rw [hmembers]
  exact hle.imp fun _ m h => h.trans (hgrow m.type)

theorem memberSizes_push {info' : TypeInfo} {m : Member}
    (hmembers : info'.members = info.members.push m) :
    t.memberSizes info' = t.memberSizes info ++ [t.byteSize m.type] := by
  simp [memberSizes, hmembers]

/-- **One change** leaves all members in their rooms. -/
theorem LaidOut.change (h : t.LaidOut) (c : Change) : (t.change c).2.LaidOut := by
  have hgrow := t.byteSize_le_change c
  intro id info' hinfo'
  cases t.laying_change c hinfo' with
  | kept hinfo hkind hsize hmembers =>
    obtain ⟨rooms, hlaid, hle⟩ := h id _ hinfo
    exact ⟨rooms, hlaid.congr hkind hsize hmembers, forall₂_memberSizes hle hgrow hmembers⟩
  | made _ hmembers hsize =>
    refine ⟨[], .nil hmembers hsize, ?_⟩
    rw [memberSizes, hmembers]
    exact .nil
  | @placed info name memberType hc hinfo hmember hkind hmembers hsize =>
    obtain ⟨rooms, hlaid, hle⟩ := h id _ hinfo
    refine ⟨rooms ++ [t.byteSize memberType], hlaid.push hkind hmembers rfl hsize, ?_⟩
    rw [memberSizes_push hmembers]
    exact List.rel_append (forall₂_memberSizes hle hgrow rfl) (.cons (hgrow memberType) .nil)
  | @overflowed info name memberType hover hinfo hkind hmembers hsize =>
    obtain ⟨rooms, hlaid, hle⟩ := h id _ hinfo
    refine ⟨rooms ++ [0], hlaid.push hkind hmembers rfl hsize, ?_⟩
    rw [memberSizes_push hmembers]
    exact List.rel_append (forall₂_memberSizes hle hgrow rfl) (.cons (Nat.zero_le _) .nil)

theorem LaidOut.changeAll (h : t.LaidOut) (changes : List Change) : (t.changeAll changes).LaidOut := by
  induction changes generalizing t with
  | nil => exact h
  | cons c rest ih => exact ih (h.change c)

/-! ## 5. Types that are complete before they are used -/

/-- A change adds a member only to a type that is not yet that of a member, nor of this one. -/
def Orderly (t : TypeTable) : Change → Prop
  | .insertMember id _ memberType => memberType ≠ id ∧
      ∀ info ∈ t.types, ∀ m ∈ info.members, m.type ≠ id
  | .make .. | .insertMethod .. | .close .. => True

instance (t : TypeTable) : ∀ c, Decidable (t.Orderly c)
  | .insertMember id _ memberType => inferInstanceAs (Decidable (memberType ≠ id ∧
      ∀ info ∈ t.types, ∀ m ∈ info.members, m.type ≠ id))
  | .make .. | .insertMethod .. | .close .. => .isTrue trivial

/-- All changes of a sequence are of that kind, and all sizes can be told. -/
def OrderlyAll (t : TypeTable) : List Change → Prop
  | [] => True
  | c :: rest => t.Orderly c ∧ (t.change c).1 ≠ .sizeOverflow ∧ OrderlyAll (t.change c).2 rest

instance decidableOrderlyAll (t : TypeTable) : ∀ changes, Decidable (t.OrderlyAll changes)
  | [] => .isTrue trivial
  | c :: rest =>
    have := decidableOrderlyAll (t.change c).2 rest
    inferInstanceAs (Decidable (t.Orderly c ∧ (t.change c).1 ≠ .sizeOverflow ∧
      (t.change c).2.OrderlyAll rest))

/-- Every member has the room that its type needs, and its type is there. -/
structure Exact (t : TypeTable) : Prop where
  laid : ∀ id info, t.get? id = some info → info.Laid (t.memberSizes info)
  known : ∀ id info, t.get? id = some info → ∀ m ∈ info.members, (t.get? m.type).isSome = true

/-- Types of members keep their sizes through an orderly change. -/
theorem Exact.memberSizes_eq (h : t.Exact) {c : Change} (horderly : t.Orderly c) {id : TypeId}
    (hinfo : t.get? id = some info) : (t.change c).2.memberSizes info = t.memberSizes info := by
  refine List.map_congr_left fun m hm => ?_
  rw [Array.mem_toList_iff] at hm
  rcases byteSize_change c (h.known id info hinfo m hm) with heq | ⟨-, name, memberType, rfl⟩
  · exact heq
  · exact absurd rfl (horderly.2 info (Array.mem_of_getElem? hinfo) m hm)

/-- **One orderly change** gives every member the room that its type needs. -/
theorem Exact.change (h : t.Exact) {c : Change} (horderly : t.Orderly c)
    (hno : (t.change c).1 ≠ .sizeOverflow) : (t.change c).2.Exact := by
  constructor
  · intro id info' hinfo'
    cases t.laying_change c hinfo' with
    | @kept info hinfo hkind hsize hmembers =>
      have hsizes : (t.change c).2.memberSizes info' = t.memberSizes info := by
        rw [← h.memberSizes_eq horderly hinfo, memberSizes, memberSizes, hmembers]
      rw [hsizes]
      exact (h.laid id info hinfo).congr hkind hsize hmembers
    | made _ hmembers hsize =>
      rw [memberSizes, hmembers]
      exact .nil hmembers hsize
    | @placed info name memberType hc hinfo hmember hkind hmembers hsize =>
      have hroom : (t.change c).2.byteSize memberType = t.byteSize memberType := by
        rcases byteSize_change c hmember with heq | ⟨-, name', memberType', hc'⟩
        · exact heq
        · subst hc
          exact absurd (Change.insertMember.inj hc').1.symm horderly.1
      rw [memberSizes_push hmembers, h.memberSizes_eq horderly hinfo, hroom]
      exact (h.laid id info hinfo).push hkind hmembers rfl hsize
    | overflowed hover _ _ _ _ => exact absurd hover hno
  · intro id info' hinfo' m hm
    cases t.laying_change c hinfo' with
    | kept hinfo _ _ hmembers =>
      rw [hmembers] at hm
      exact t.isSome_change c (h.known id _ hinfo m hm)
    | made _ hmembers _ =>
      rw [hmembers] at hm
      exact absurd hm (Array.not_mem_empty m)
    | @placed info name memberType _ hinfo hmember _ hmembers _ =>
      rw [hmembers, Array.mem_push] at hm
      rcases hm with hold | rfl
      · exact t.isSome_change c (h.known id _ hinfo m hold)
      · exact t.isSome_change c hmember
    | overflowed hover _ _ _ _ => exact absurd hover hno

theorem Exact.changeAll (h : t.Exact) {changes : List Change} (horderly : t.OrderlyAll changes) :
    (t.changeAll changes).Exact := by
  induction changes generalizing t with
  | nil => exact h
  | cons c rest ih => exact ih (h.change horderly.1 horderly.2.1) horderly.2.2

/-! ## 6. The table to begin with -/

/-- Types without members. -/
def Plain (t : TypeTable) : Prop :=
  ∀ id info, t.get? id = some info → info.members = #[] ∧ info.size = info.kind.baseSize

theorem plain_initial (names : NameTable) : (initial names).1.Plain := by
  intro id info hinfo
  obtain ⟨kind, parent, name, rfl⟩ := fresh_of_mem_initial names (Array.mem_of_getElem? hinfo)
  exact ⟨rfl, rfl⟩

theorem Plain.exact (h : t.Plain) : t.Exact := by
  constructor
  · intro id info hinfo
    obtain ⟨hmembers, hsize⟩ := h id info hinfo
    rw [memberSizes, hmembers]
    exact .nil hmembers hsize
  · intro id info hinfo m hm
    rw [(h id info hinfo).1] at hm
    exact absurd hm (Array.not_mem_empty m)

theorem Exact.laidOut (h : t.Exact) : t.LaidOut := fun id info hinfo =>
  ⟨t.memberSizes info, h.laid id info hinfo, List.forall₂_same.2 fun _ _ => Nat.le_refl _⟩

/-! ## 7. All sequences of changes -/

/-- **The layout of instances**, over every sequence of changes, whatever their arguments and whether
they are accepted or refused.  The members of a type lie one after the other, in rooms that together
with the bytes of the kind make up its size.  The room of a member has the size that its type had when
the member was added, so by now the type may be larger; the layout is sound exactly if none is.  That is
so for all types if members were added only to types that were not yet those of members. -/
theorem changeAll_layout (texts : List String) (changes : List Change) :
    let t₀ := (initial (NameTable.initial.internAll texts).2).1
    let t := t₀.changeAll changes
    (∀ id info, t.get? id = some info → ∃ rooms, info.Laid rooms ∧
      List.Forall₂ (· ≤ ·) rooms (t.memberSizes info) ∧
      (t.SoundLayout info ↔ rooms = t.memberSizes info)) ∧
    (∀ c, (t.change c).1 ≠ .sizeOverflow → ∀ id info rooms, t.get? id = some info →
      info.Laid rooms → ∃ info', (t.change c).2.get? id = some info' ∧
        (info'.Laid rooms ∨ ∃ name memberType, c = .insertMember id name memberType ∧
          info'.Laid (rooms ++ [t.byteSize memberType]))) ∧
    (t₀.OrderlyAll changes → ∀ id info, t.get? id = some info → t.SoundLayout info) := by
  intro t₀ t
  have hexact : t₀.Exact := (plain_initial _).exact
  refine ⟨fun id info hinfo => ?_, fun c hno id info rooms hinfo hlaid =>
    laid_change hno hinfo hlaid, fun horderly id info hinfo =>
      soundLayout_of_laid ((hexact.changeAll horderly).laid id info hinfo)⟩
  obtain ⟨rooms, hlaid, hle⟩ := hexact.laidOut.changeAll changes id info hinfo
  exact ⟨rooms, hlaid, hle, soundLayout_iff hlaid hle⟩

/-- Two types, one of which gets a member of the other, which gets a member afterwards. -/
def outgrown : List Change :=
  [.make .object .baseObject ⟨12⟩, .make .object .baseObject ⟨13⟩,
   .insertMember ⟨12⟩ ⟨14⟩ ⟨11⟩, .insertMember ⟨11⟩ ⟨15⟩ .integer]

/-- The same changes, with the inner type complete before it is used. -/
def nested : List Change :=
  [.make .object .baseObject ⟨12⟩, .make .object .baseObject ⟨13⟩,
   .insertMember ⟨11⟩ ⟨15⟩ .integer, .insertMember ⟨12⟩ ⟨14⟩ ⟨11⟩]

/-- The order of the same changes matters: the outer type has 16 bytes with a member that needs 16 of
them, beside the 8 of every object, or it has 24. -/
theorem changeAll_layout_outgrown :
    let t₀ := (initial (NameTable.initial.internAll []).2).1
    (∃ info, (t₀.changeAll outgrown).get? ⟨12⟩ = some info ∧ info.size = 16 ∧
      (t₀.changeAll outgrown).memberSizes info = [16] ∧
      ¬ (t₀.changeAll outgrown).SoundLayout info) ∧
    t₀.OrderlyAll nested ∧
    ∃ info, (t₀.changeAll nested).get? ⟨12⟩ = some info ∧ info.size = 24 ∧
      (t₀.changeAll nested).SoundLayout info := by
  intro t₀
  have houter : ((t₀.changeAll outgrown).get? ⟨12⟩).map (fun info =>
      (info.size, info.kind, (t₀.changeAll outgrown).memberSizes info)) =
      some (16, .object, [16]) := by decide +kernel
  have hnested : ((t₀.changeAll nested).get? ⟨12⟩).map TypeInfo.size = some 24 := by
    decide +kernel
  have horderly : t₀.OrderlyAll nested := by decide +kernel
  refine ⟨?_, horderly, ?_⟩
  · obtain ⟨info, hinfo, hfacts⟩ := Option.map_eq_some_iff.1 houter
    simp only [Prod.mk.injEq] at hfacts
    obtain ⟨hsize, hkind, hsizes⟩ := hfacts
    obtain ⟨rooms, hlaid, -, hiff⟩ := (changeAll_layout [] outgrown).1 ⟨12⟩ info hinfo
    refine ⟨info, hinfo, hsize, hsizes, fun hsound => ?_⟩
    have hrooms := hlaid.size_eq
    rw [hiff.1 hsound, hsizes, hsize, hkind] at hrooms
    exact absurd hrooms (by decide)
  · obtain ⟨info, hinfo, hsize⟩ := Option.map_eq_some_iff.1 hnested
    exact ⟨info, hinfo, hsize, (changeAll_layout [] nested).2.2 horderly ⟨12⟩ info hinfo⟩

end TypeTable

end ScriptMachine
