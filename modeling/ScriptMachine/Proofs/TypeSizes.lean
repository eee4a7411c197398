/-
# Sizes of types, and where they end

A member gets the bytes that its type has at that moment, and the type of a member may be the very type
that takes it.  So one member can double a size, and a size that began with the 8 bytes of an object
passes 64 bits with the 61st member.  Nothing looks ahead: the member is on the list of its type before
the sum is found to be too large.

No faster growth is possible.  A type begins with 8 bytes or less, and no member makes the largest size
more than twice what it was.

* `TypeTable.change_of_takes`: what a type makes of a member that it takes;
* `TypeTable.Bounded.change`, `TypeTable.Bounded.changeAll`: how one change, and all of them, make types
  grow;
* `TypeTable.doubles`: a type that takes itself as a member again and again;
* `TypeTable.changeAll_sizes`: when a size overflows, for every sequence of changes.
-/
import ScriptMachine.Proofs.InstanceLayout

namespace ScriptMachine.TypeTable

variable {t : TypeTable} {id memberType : TypeId} {name : Name} {info memberInfo : TypeInfo}

/-! ## 1. One new member -/

/-- A type takes a member under this name: it is open and has none of that name. -/
structure Takes (info : TypeInfo) (name : Name) : Prop where
  isOpen : info.isSealed = false
  named : name.isEmpty = false
  absent : name ∉ info.members.toList.map Member.name

/-- **A type that takes a member** has it on its list in any case; the size grows only if the sum fits
in 64 bits. -/
theorem change_of_takes (hinfo : t.get? id = some info) (hmember : t.get? memberType = some memberInfo)
    (htakes : Takes info name) :
    ∃ info', (t.change (.insertMember id name memberType)).2.get? id = some info' ∧
      info'.isSealed = false ∧ info'.members = info.members.push ⟨name, memberType, info.size⟩ ∧
      ((info.size + memberInfo.size < sizeLimit ∧ info'.size = info.size + memberInfo.size ∧
          (t.change (.insertMember id name memberType)).1 = .accepted) ∨
        (sizeLimit ≤ info.size + memberInfo.size ∧ info'.size = info.size ∧
          (t.change (.insertMember id name memberType)).1 = .sizeOverflow)) := by
  have hnew : (info.members.any fun m => m.name = name) = false := by
    rw [← Array.any_toList, List.any_eq_false]
    simpa using htakes.absent
  have hcase : t.insertMember id name memberType =
      if info.size + memberInfo.size < sizeLimit then
        (.placed info.size, t.modify id (fun old =>
          { old with
            members := old.members.push ⟨name, memberType, info.size⟩
            size := old.size + memberInfo.size }) fun _ => rfl)
      else (.sizeOverflow, t.modify id (fun old =>
        { old with members := old.members.push ⟨name, memberType, info.size⟩ }) fun _ => rfl) := by
    rw [insertMember, hinfo, hmember]
    simp only [htakes.isOpen, htakes.named, hnew, Bool.or_self, Bool.false_eq_true, if_false,
      modify_modify]
    rfl
  by_cases hfits : info.size + memberInfo.size < sizeLimit
  · rw [if_pos hfits] at hcase
    refine ⟨{ info with
      members := info.members.push ⟨name, memberType, info.size⟩
      size := info.size + memberInfo.size }, ?_, htakes.isOpen, rfl, .inl ⟨hfits, rfl, ?_⟩⟩
    · rw [change, hcase, Prod.map_snd, id_eq, get?_modify, if_pos rfl, hinfo]
      rfl
    · rw [change, hcase]
      rfl
  · rw [if_neg hfits] at hcase
    refine ⟨{ info with members := info.members.push ⟨name, memberType, info.size⟩ }, ?_,
      htakes.isOpen, rfl, .inr ⟨Nat.le_of_not_lt hfits, rfl, ?_⟩⟩
    · rw [change, hcase, Prod.map_snd, id_eq, get?_modify, if_pos rfl, hinfo]
      rfl
    · rw [change, hcase]
      rfl

/-- Only requests for members overflow. -/
theorem Answer.ofResult_ne_sizeOverflow {α : Type} (result : Except Refusal α) :
    Answer.ofResult result ≠ .sizeOverflow := by
  cases result with
  | ok a => exact nofun
  | error why => exact nofun

/-- **When a size overflows**: a type takes a member, and the sum of the two sizes does not fit. -/
theorem change_sizeOverflow_iff (t : TypeTable) (c : Change) :
    (t.change c).1 = .sizeOverflow ↔ ∃ id name memberType info memberInfo,
      c = .insertMember id name memberType ∧ t.get? id = some info ∧
        t.get? memberType = some memberInfo ∧ Takes info name ∧
        sizeLimit ≤ info.size + memberInfo.size := by
  constructor
  · intro hover
    cases c with
    | insertMember id name memberType =>
      rcases t.insertMember_cases id name memberType with ⟨why, hrefused⟩ |
        ⟨info, memberInfo, hinfo, hmember, ⟨hopen, hnamed, habsent⟩, ⟨-, hplaced⟩ | ⟨hge, -⟩⟩
      · rw [change, hrefused] at hover
        cases hover
      · rw [change, hplaced] at hover
        cases hover
      · refine ⟨id, name, memberType, info, memberInfo, rfl, hinfo, hmember, ⟨hopen, hnamed, ?_⟩, hge⟩
        simpa using habsent
    | make kind parent name => exact absurd hover (Answer.ofResult_ne_sizeOverflow _)
    | insertMethod id callable location => exact absurd hover (Answer.ofResult_ne_sizeOverflow _)
    | close id => exact absurd hover (Answer.ofResult_ne_sizeOverflow _)
  · rintro ⟨id, name, memberType, info, memberInfo, rfl, hinfo, hmember, htakes, hge⟩
    obtain ⟨info', -, -, -, ⟨hlt, -⟩ | ⟨-, -, hover⟩⟩ := change_of_takes hinfo hmember htakes
    · omega
    · exact hover

/-! ## 2. How fast sizes grow -/

/-- Every size fits in 64 bits and is within a bound. -/
def Bounded (t : TypeTable) (bound : Nat) : Prop :=
  ∀ id info, t.get? id = some info → info.size < sizeLimit ∧ info.size ≤ bound

/-- Whether a change asks for a member. -/
def Change.isInsertion : Change → Bool
  | .insertMember _ _ _ => true
  | .make _ _ _ | .insertMethod _ _ _ | .close _ => false

/-- No kind of value has more than 8 bytes by itself. -/
theorem baseSize_le (kind : TypeKind) : kind.baseSize ≤ 8 := by cases kind <;> decide

theorem Bounded.byteSize_le {bound : Nat} (h : t.Bounded bound) (id : TypeId) :
    t.byteSize id ≤ bound := by
  rw [byteSize]
  cases hinfo : t.get? id with
  | none => exact Nat.zero_le _
  | some info => exact (h id info hinfo).2

/-- A size after a change fits if all sizes did before. -/
theorem size_lt_change (h : ∀ id info, t.get? id = some info → info.size < sizeLimit) (c : Change)
    (hinfo : (t.change c).2.get? id = some info) : info.size < sizeLimit := by
  cases t.laying_change c hinfo with
  | kept hold _ hsize _ => exact hsize ▸ h id _ hold
  | made _ _ hsize => exact hsize ▸ Nat.lt_of_le_of_lt (baseSize_le _) (by decide)
  | overflowed _ hold _ _ hsize => exact hsize ▸ h id _ hold
  | @placed old name memberType hc hold _ _ _ hsize =>
    subst hc
    rcases t.insertMember_cases id name memberType with ⟨why, hrefused⟩ |
      ⟨old', memberInfo, hold', hmember, -, ⟨hlt, -⟩ | ⟨-, hover⟩⟩
    · rw [change, hrefused] at hinfo
      exact h id info hinfo
    · obtain rfl := Option.some.inj (hold.symm.trans hold')
      rwa [hsize, byteSize_eq hmember]
    · rw [change, hover, Prod.map_snd, id_eq, get?_modify, if_pos rfl, hold] at hinfo
      obtain rfl := Option.some.inj hinfo
      exact h id old hold

/-- **One change** makes the largest size at most twice what it was, and only a member makes it
larger. -/
theorem Bounded.change {bound : Nat} (h : t.Bounded bound) (hbound : 8 ≤ bound) (c : Change) :
    (t.change c).2.Bounded (if c.isInsertion then 2 * bound else bound) := by
  intro id info hinfo
  refine ⟨size_lt_change (fun id info hinfo => (h id info hinfo).1) c hinfo, ?_⟩
  have hle : info.size ≤ bound ∨ (c.isInsertion = true ∧ info.size ≤ 2 * bound) := by
    cases t.laying_change c hinfo with
    | kept hold _ hsize _ => exact .inl (hsize ▸ (h id _ hold).2)
    | made _ _ hsize => exact .inl (hsize ▸ (baseSize_le _).trans hbound)
    | overflowed _ hold _ _ hsize => exact .inl (hsize ▸ (h id _ hold).2)
    | @placed old name memberType hc hold _ _ _ hsize =>
      have hself := (h id old hold).2
      have hmember := h.byteSize_le memberType
      exact .inr ⟨by rw [hc]; rfl, by omega⟩
  split
  · rcases hle with hle | ⟨-, hle⟩ <;> omega
  · next hother => exact hle.resolve_right fun hins => hother hins.1

/-- **Any number of changes** double the bound at most as often as they ask for a member. -/
theorem Bounded.changeAll {bound : Nat} (h : t.Bounded bound) (hbound : 8 ≤ bound)
    (changes : List Change) :
    (t.changeAll changes).Bounded (bound * 2 ^ changes.countP Change.isInsertion) := by
  induction changes generalizing t bound with
  | nil => simpa [changeAll] using h
  | cons c rest ih =>
    have hone := h.change hbound c
    rw [List.countP_cons]
    by_cases hc : c.isInsertion = true
    · rw [if_pos hc] at hone
      rw [if_pos hc, Nat.pow_succ', ← Nat.mul_assoc, Nat.mul_comm bound 2]
      exact ih hone (by omega)
    · rw [if_neg hc] at hone
      rw [if_neg hc]
      exact ih hone hbound

/-- The table to begin with has sizes of at most 8 bytes. -/
theorem bounded_initial (names : NameTable) : (initial names).1.Bounded 8 := by
  intro id info hinfo
  have hsize := (plain_initial names id info hinfo).2
  have hle := baseSize_le info.kind
  have hlimit : (8 : Nat) < sizeLimit := by decide
  omega

/-! ## 3. The fastest growth -/

/-- The changes that give a type members of its own type, under these names. -/
def selfMembers (id : TypeId) (names : List Name) : List Change :=
  names.map fun name => .insertMember id name id

/-- **A type doubles** with each member of its own type, as long as the size fits. -/
theorem doubles (hinfo : t.get? id = some info) {names : List Name} (hdistinct : names.Nodup)
    (htakes : ∀ name ∈ names, Takes info name) (hfits : info.size * 2 ^ names.length < sizeLimit) :
    ∃ info', (t.changeAll (selfMembers id names)).get? id = some info' ∧
      info'.size = info.size * 2 ^ names.length ∧ info'.isSealed = info.isSealed ∧
      info'.members.toList.map Member.name = info.members.toList.map Member.name ++ names := by
  induction names generalizing t info with
  | nil => exact ⟨info, hinfo, by simp, rfl, by simp⟩
  | cons name rest ih =>
    have hfirst := htakes name List.mem_cons_self
    rw [List.length_cons, Nat.pow_succ', ← Nat.mul_assoc, Nat.mul_comm info.size 2] at hfits ⊢
    have hsum : info.size + info.size < sizeLimit := by
      have := Nat.le_mul_of_pos_right (2 * info.size) (Nat.two_pow_pos rest.length)
      omega
    obtain ⟨info₁, hinfo₁, hopen₁, hmembers₁, ⟨-, hsize₁, -⟩ | ⟨hge, -⟩⟩ :=
      change_of_takes hinfo hinfo hfirst
    · have hnames₁ : info₁.members.toList.map Member.name =
          info.members.toList.map Member.name ++ [name] := by simp [hmembers₁]
      have htwice : info₁.size = 2 * info.size := by omega
      rw [List.nodup_cons] at hdistinct
      have htakes₁ : ∀ n ∈ rest, Takes info₁ n := by
        intro n hn
        have hold := htakes n (List.mem_cons_of_mem _ hn)
        refine ⟨hopen₁, hold.named, ?_⟩
        rw [hnames₁, List.mem_append, List.mem_singleton]
        rintro (hmem | rfl)
        · exact hold.absent hmem
        · exact hdistinct.1 hn
      obtain ⟨info', hinfo', hsize', hopen', hnames'⟩ :=
        ih hinfo₁ hdistinct.2 htakes₁ (by rwa [htwice])
      refine ⟨info', hinfo', by rw [hsize', htwice], by rw [hopen', hopen₁, hfirst.isOpen], ?_⟩
      rw [hnames', hnames₁, List.append_assoc, List.singleton_append]
    · omega

/-! ## 4. All sequences of changes -/

/-- **When sizes overflow**, over every sequence of changes, whatever their arguments.  Every recorded
size fits in 64 bits and is at most 8 bytes doubled as often as a member was asked for, so up to the
60th request no size overflows.  A request overflows exactly if the type takes the member and the two
sizes do not add up to 64 bits; then the member is on the list of its type all the same, and the size
stays behind.  A type that takes members of its own type doubles with each of them and overflows as soon
as the next double does not fit. -/
theorem changeAll_sizes (texts : List String) (changes : List Change) :
    let t := (initial (NameTable.initial.internAll texts).2).1.changeAll changes
    (∀ id info, t.get? id = some info →
      info.size < sizeLimit ∧ info.size ≤ 8 * 2 ^ changes.countP Change.isInsertion) ∧
    (changes.countP Change.isInsertion < 60 → ∀ c, (t.change c).1 ≠ .sizeOverflow) ∧
    (∀ c, (t.change c).1 = .sizeOverflow ↔ ∃ id name memberType info memberInfo,
      c = .insertMember id name memberType ∧ t.get? id = some info ∧
        t.get? memberType = some memberInfo ∧ Takes info name ∧
        sizeLimit ≤ info.size + memberInfo.size) ∧
    (∀ id name memberType info, (t.change (.insertMember id name memberType)).1 = .sizeOverflow →
      t.get? id = some info → ∃ info',
        (t.change (.insertMember id name memberType)).2.get? id = some info' ∧
        info'.members = info.members.push ⟨name, memberType, info.size⟩ ∧ info'.size = info.size) ∧
    (∀ id info names last, t.get? id = some info → (last :: names).Nodup →
      (∀ name ∈ last :: names, Takes info name) → info.size * 2 ^ names.length < sizeLimit →
      sizeLimit ≤ info.size * 2 ^ (names.length + 1) →
      ∃ info', (t.changeAll (selfMembers id names)).get? id = some info' ∧
        info'.size = info.size * 2 ^ names.length ∧
        ((t.changeAll (selfMembers id names)).change (.insertMember id last id)).1 =
          .sizeOverflow) := by
  intro t
  have hbounded : t.Bounded (8 * 2 ^ changes.countP Change.isInsertion) :=
    (bounded_initial _).changeAll (Nat.le_refl 8) changes
  refine ⟨hbounded, fun hfew c hover => ?_, t.change_sizeOverflow_iff,
    fun id name memberType info hover hinfo => ?_,
    fun id info names last hinfo hdistinct htakes hfits hnext => ?_⟩
  · obtain ⟨id, name, memberType, info, memberInfo, -, hinfo, hmember, -, hge⟩ :=
      (t.change_sizeOverflow_iff c).1 hover
    have hpow : 2 ^ changes.countP Change.isInsertion ≤ 2 ^ 59 :=
      Nat.pow_le_pow_right (by decide) (by omega)
    have hself := (hbounded id info hinfo).2
    have hother := (hbounded memberType memberInfo hmember).2
    simp only [sizeLimit] at hge
    omega
  · obtain ⟨id', name', memberType', info', memberInfo, hc, hinfo', hmember, htakes, hge⟩ :=
      (t.change_sizeOverflow_iff _).1 hover
    cases hc
    obtain rfl := Option.some.inj (hinfo.symm.trans hinfo')
    obtain ⟨after, hafter, -, hmembers, ⟨hlt, -⟩ | ⟨-, hsize, -⟩⟩ :=
      change_of_takes hinfo hmember htakes
    · omega
    · exact ⟨after, hafter, hmembers, hsize⟩
  · rw [List.nodup_cons] at hdistinct
    obtain ⟨info', hinfo', hsize, hopen, hnames⟩ := doubles hinfo hdistinct.2
      (fun name hname => htakes name (List.mem_cons_of_mem _ hname)) hfits
    have hlast := htakes last List.mem_cons_self
    have habsent : last ∉ info'.members.toList.map Member.name := by
      rw [hnames, List.mem_append]
      exact fun hmem => hmem.elim hlast.absent hdistinct.1
    refine ⟨info', hinfo', hsize, (change_sizeOverflow_iff _ _).2 ⟨id, last, id, info', info', rfl,
      hinfo', hinfo', ⟨hopen.trans hlast.isOpen, hlast.named, habsent⟩, ?_⟩⟩
    rw [Nat.pow_succ, ← Nat.mul_assoc, ← hsize] at hnext
    omega

/-- The table with one object type of its own. -/
def oneObject : TypeTable :=
  (initial (NameTable.initial.internAll []).2).1.changeAll [.make .object .baseObject ⟨12⟩]

/-- The new type has 2^63 bytes with 60 members of its own type, and the next one overflows. -/
theorem changeAll_sizes_doubling :
    let t := oneObject.changeAll (selfMembers ⟨11⟩ ((List.range 60).map fun i => ⟨i + 14⟩))
    ∃ info, t.get? ⟨11⟩ = some info ∧ info.size = 2 ^ 63 ∧
      (t.change (.insertMember ⟨11⟩ ⟨13⟩ ⟨11⟩)).1 = .sizeOverflow := by
  have hmade : (oneObject.get? ⟨11⟩).map (fun info => (info.size, info.isSealed, info.members)) =
      some (8, false, #[]) := by decide +kernel
  obtain ⟨info, hinfo, hfacts⟩ := Option.map_eq_some_iff.1 hmade
  simp only [Prod.mk.injEq] at hfacts
  obtain ⟨hsize, hopen, hmembers⟩ := hfacts
  have htakes : ∀ name : Name, name.isEmpty = false → Takes info name := fun name hname =>
    ⟨hopen, hname, by simp [hmembers]⟩
  obtain ⟨info', hinfo', hsize', hover⟩ :=
    (changeAll_sizes [] [.make .object .baseObject ⟨12⟩]).2.2.2.2 ⟨11⟩ info
      ((List.range 60).map fun i => ⟨i + 14⟩) ⟨13⟩ hinfo (by decide +kernel)
      (fun name hname => htakes name (by revert name; decide +kernel)) (by rw [hsize]; decide)
      (by rw [hsize]; decide)
  refine ⟨info', hinfo', ?_, hover⟩
  rw [hsize', hsize]
  decide

end ScriptMachine.TypeTable
