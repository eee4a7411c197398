/-
# Definitions of types

A host defines a type in three stages: the type is registered, it gets its members one after the
other, and it is bound in the global scope.  Each stage can be refused.  A type that is not
registered leaves no trace, and no refusal touches a binding.  But a type that was registered stays,
with the members it had got, when a member or its binding is refused; it has the name then, and the
name cannot be defined again.

* `Machine.Extends`: a type got some members, and nothing else happened but that texts were named;
* `Effect.addMember_cases`, `Effect.addMembers_cases`: one member, and members up to the first that
  is refused;
* `Machine.LeftBehind`, `Machine.StoppedAt`: what a definition leaves, and what it ended with;
* `Effect.defineType_cases`: all that a definition can come to;
* `Machine.defineType_refused`: what follows from a refusal.
-/
import ScriptMachine.Proofs.TypeTree
import ScriptMachine.Proofs.Conduct.Host

namespace ScriptMachine

/-! ## 1. Members as they are listed -/

namespace NameTable

/-- A member has the name of a text, and a type. -/
def Lists (names : NameTable) (member : Member) (listed : String × TypeId) : Prop :=
  names.texts[member.name.index]? = some listed.1 ∧ member.type = listed.2

end NameTable

/-! ## 2. Tables in which a name is taken -/

namespace TypeTable

variable {t : TypeTable} {id : TypeId} {name : Name}

/-- A name that is taken is refused, and for that reason if all else is in order. -/
theorem make_of_find (kind : TypeKind) (parent : TypeId) (hname : name.isEmpty = false)
    (hfind : t.find name = some id) :
    ∃ why, t.make kind parent name = (.error why, t) ∧
      ((t.get? parent).isSome = true → t.size < maxTypes → why = .keyAlreadyInTable) := by
  unfold make
  dsimp only
  split
  · next hfull => exact ⟨_, rfl, fun _ hroom => absurd hroom (Nat.not_lt.2 hfull)⟩
  · split
    · next hbad =>
      refine ⟨_, rfl, fun hparent _ => ?_⟩
      have hother : parent ≠ ⟨t.size⟩ := by
        rintro rfl
        exact Nat.lt_irrefl _ (isSome_get?_iff.1 hparent)
      rw [hname, decide_eq_false hother, Option.isNone_eq_false_iff.2 hparent] at hbad
      cases hbad
    · rw [if_pos (by rw [hfind]; rfl)]
      exact ⟨_, rfl, fun _ _ => rfl⟩

end TypeTable

/-! ## 3. Members, one after the other -/

namespace Machine

/-- A type got some members.  Texts may have been named; all else is as it was. -/
structure Extends (m m' : Machine) (type : TypeId) (added : List (String × TypeId)) : Prop where
  parts : ∃ names types, m' = { m with names, types }
  named : ∀ text name, m.names.get? text = some name → m'.names.get? text = some name
  texts : ∀ (i : Nat) (text : String), m.names.texts[i]? = some text →
    m'.names.texts[i]? = some text
  size_eq : m'.types.size = m.types.size
  others : ∀ id, id ≠ type → m'.types.get? id = m.types.get? id
  grown : ∀ info, m.types.get? type = some info → ∃ (members : Array Member) (size : Nat),
    m'.types.get? type = some { info with members := info.members ++ members, size } ∧
      List.Forall₂ m'.names.Lists members.toList added

variable {m m' m'' : Machine} {type : TypeId} {added added' : List (String × TypeId)}

namespace Extends

theorem refl (m : Machine) (type : TypeId) : m.Extends m type [] where
  parts := ⟨m.names, m.types, rfl⟩
  named := fun _ _ hget => hget
  texts := fun _ _ hget => hget
  size_eq := rfl
  others := fun _ _ => rfl
  grown := fun info hinfo => 
    ⟨#[], info.size, by rw [Array.append_empty]; exact hinfo, .nil⟩

theorem trans (h : m.Extends m' type added) (h' : m'.Extends m'' type added') :
    m.Extends m'' type (added ++ added') where
  parts := by
    obtain ⟨names, types, rfl⟩ := h.parts
    obtain ⟨names', types', rfl⟩ := h'.parts
    exact ⟨names', types', rfl⟩
  named := fun text name hget => h'.named text name (h.named text name hget)
  texts := fun i text hget => h'.texts i text (h.texts i text hget)
  size_eq := h'.size_eq.trans h.size_eq
  others := fun id hid => (h'.others id hid).trans (h.others id hid)
  grown := by
    intro info hinfo
    obtain ⟨members, size, hinfo', hlisted⟩ := h.grown info hinfo
    obtain ⟨members', size', hinfo'', hlisted'⟩ := h'.grown _ hinfo'
    refine ⟨members ++ members', size', ?_, ?_⟩
    · rw [hinfo'', Array.append_assoc]
    · rw [Array.toList_append]
      exact List.rel_append (hlisted.imp fun _ _ hx => ⟨h'.texts _ _ hx.1, hx.2⟩) hlisted'

/-- A text is named. -/
theorem intern (m : Machine) (type : TypeId) (text : String) :
    m.Extends (m.intern text).2 type [] where
  parts := ⟨(m.names.intern text).2, m.types, rfl⟩
  named := fun _ _ hget => NameTable.get?_intern text hget
  texts := fun _ _ hget => m.names.getElem?_texts_intern text hget
  size_eq := rfl
  others := fun _ _ => rfl
  grown := fun info hinfo =>
    ⟨#[], info.size, by rw [Array.append_empty]; exact hinfo, .nil⟩

theorem scopes_eq (h : m.Extends m' type added) : m'.scopes = m.scopes := by
  obtain ⟨names, types, rfl⟩ := h.parts
  rfl

/-- A member is placed. -/
theorem placed (m : Machine) (type : TypeId) {name : Name} {text : String}
    (hname : m.names.texts[name.index]? = some text) (memberType : TypeId) (offset bytes : Nat) :
    m.Extends { m with types := m.types.modify type (fun old =>
      { old with
        members := old.members.push ⟨name, memberType, offset⟩
        size := old.size + bytes }) fun _ => rfl } type [(text, memberType)] where
  parts := ⟨m.names, _, rfl⟩
  named := fun _ _ hget => hget
  texts := fun _ _ hget => hget
  size_eq := by simp [TypeTable.modify, TypeTable.size]
  others := fun id hid => by rw [TypeTable.get?_modify, if_neg hid]
  grown := by
    intro info hinfo
    refine ⟨#[⟨name, memberType, offset⟩], info.size + bytes, ?_, .cons ⟨hname, rfl⟩ .nil⟩
    rw [TypeTable.get?_modify, if_pos rfl, hinfo]
    rfl

end Extends

/-- What a definition ended with after its type was registered: a member that was refused, or the
binding. -/
inductive StoppedAt (m : Machine) (type : TypeId) (members : List (String × TypeId))
    (why : Refusal) : List (String × TypeId) → Prop
  | member {taken rest : List (String × TypeId)} {text : String} {memberType : TypeId}
      {name : Name} (hmembers : members = taken ++ (text, memberType) :: rest)
      (hname : m.names.get? text = some name)
      (hrefused : m.types.insertMember type name memberType = (.refused why, m.types)) :
      StoppedAt m type members why taken
  | binding {before : Machine} (hrefused : before.bindType type = (.error why, m)) :
      StoppedAt m type members why members

theorem StoppedAt.cons {members taken : List (String × TypeId)} {why : Refusal}
    {x : String × TypeId} (h : m.StoppedAt type members why taken) :
    m.StoppedAt type (x :: members) why (x :: taken) := by
  cases h with
  | member hmembers hname hrefused => exact .member (congrArg (x :: ·) hmembers) hname hrefused
  | binding hrefused => exact .binding hrefused

end Machine

namespace Effect

variable {m : Machine}

/-- **One member** is refused, and the machine is as it was; or it is added. -/
theorem addMember_cases {name : Name} {text : String}
    (hname : m.names.texts[name.index]? = some text) (type memberType : TypeId) :
    (∃ why, addMember type name memberType m = .done m (.error why) ∧
      m.types.insertMember type name memberType = (.refused why, m.types)) ∨
    (∃ m' offset, addMember type name memberType m = .done m' (.ok offset) ∧
      m.Extends m' type [(text, memberType)]) ∨
    ∃ m', addMember type name memberType m = .defect m' .sizeOverflow := by
  unfold addMember
  rcases m.types.insertMember_cases type name memberType with
    ⟨why, hinsert⟩ | ⟨info, memberInfo, -, -, -, ⟨-, hinsert⟩ | ⟨-, hinsert⟩⟩
  · rw [hinsert]
    exact .inl ⟨why, rfl, rfl⟩
  · rw [hinsert]
    exact .inr (.inl ⟨_, _, rfl, .placed m type hname memberType info.size memberInfo.size⟩)
  · rw [hinsert]
    exact .inr (.inr ⟨_, rfl⟩)

theorem addMembers_cons (type memberType : TypeId) (text : String)
    (rest : List (String × TypeId)) (m : Machine) :
    addMembers type ((text, memberType) :: rest) m =
      (addMember type (m.intern text).1 memberType (m.intern text).2).bind fun result =>
        match result with
        | .error why => (pure (.error why) : Effect (Except Refusal Unit))
        | .ok _ => addMembers type rest :=
  rfl

/-- **Members up to the first that is refused**: those before it are the type's, and stay. -/
theorem addMembers_cases (type : TypeId) (members : List (String × TypeId)) (m : Machine) :
    (∃ m', addMembers type members m = .done m' (.ok ()) ∧ m.Extends m' type members) ∨
    (∃ m' why taken, addMembers type members m = .done m' (.error why) ∧
      m.Extends m' type taken ∧ m'.StoppedAt type members why taken) ∨
    ∃ m' d, addMembers type members m = .defect m' d := by
  induction members generalizing m with
  | nil => exact .inl ⟨m, rfl, .refl m type⟩
  | cons x rest ih =>
    obtain ⟨text, memberType⟩ := x
    have hnamed := Machine.Extends.intern m type text
    have hget : (m.intern text).2.names.get? text = some (m.intern text).1 :=
      m.names.get?_intern_self text
    have hat : (m.intern text).2.names.texts[(m.intern text).1.index]? = some text :=
      m.names.getElem?_intern text
    rw [addMembers_cons]
    rcases addMember_cases hat type memberType with
      ⟨why, hadd, hrefused⟩ | ⟨m₁, offset, hadd, hplaced⟩ | ⟨m₁, hadd⟩
    · rw [hadd]
      exact .inr (.inl ⟨_, why, [], rfl, hnamed, .member rfl hget hrefused⟩)
    · rw [hadd]
      have hone : m.Extends m₁ type [(text, memberType)] := hnamed.trans hplaced
      rcases ih m₁ with ⟨m₂, hrest, hmore⟩ | ⟨m₂, why, taken, hrest, hmore, hstop⟩ | ⟨m₂, d, hrest⟩
      · exact .inl ⟨m₂, hrest, hone.trans hmore⟩
      · exact .inr (.inl ⟨m₂, why, _, hrest, hone.trans hmore, hstop.cons⟩)
      · exact .inr (.inr ⟨m₂, d, hrest⟩)
    · rw [hadd]
      exact .inr (.inr ⟨m₁, _, rfl⟩)

end Effect

/-! ## 4. The binding -/

theorem ScopeStack.bindAt_refused {s s' : ScopeStack} {position : Nat}
    {h : position < s.frames.size} {name : Name} {entry : Entry} {why : Refusal}
    (hbind : s.bindAt position h name entry = (.error why, s')) : s' = s := by
  unfold bindAt at hbind
  split at hbind
  · exact (Prod.mk.inj hbind).2.symm
  · split at hbind
    · exact (Prod.mk.inj hbind).2.symm
    · cases hbind

/-- A type that cannot be bound may take room on the heap. -/
theorem Machine.bindType_refused {m m' : Machine} {type : TypeId} {why : Refusal}
    (h : m.bindType type = (.error why, m')) : ∃ heap, m' = { m with heap } := by
  obtain ⟨heap, hheap⟩ := m.exists_heap_tryAllocate (.ofType type)
  unfold bindType installGlobal at h
  split at h
  · next hplaced =>
    obtain ⟨-, rfl⟩ := Prod.mk.inj h
    rw [hplaced] at hheap
    exact ⟨heap, hheap⟩
  · next hplaced =>
    rw [hplaced] at hheap
    subst hheap
    unfold bindGlobal ScopeStack.bindGlobal at h
    dsimp only at h
    generalize hbind : m.scopes.bindAt 0 _ _ _ = result at h
    obtain ⟨result, scopes⟩ := result
    cases result with
    | ok _ => cases h
    | error _ =>
      obtain ⟨-, rfl⟩ := Prod.mk.inj h
      obtain rfl := ScopeStack.bindAt_refused hbind
      exact ⟨heap, rfl⟩

/-! ## 5. Definitions -/

namespace Machine

/-- What is left of a definition that was refused after its type was registered: the type, with the
members it had got.  It is found under its name. -/
structure LeftBehind (m m' : Machine) (name : String) (parent : TypeId)
    (taken : List (String × TypeId)) : Prop where
  size_eq : m'.types.size = m.types.size + 1
  others : ∀ id, (m.types.get? id).isSome = true → m'.types.get? id = m.types.get? id
  left : ∃ info, m'.types.get? ⟨m.types.size⟩ = some info ∧ info.kind = .object ∧
    info.parent = parent ∧ m'.names.get? name = some info.name ∧ info.name.isEmpty = false ∧
    info.methods = [] ∧ info.isSealed = false ∧
    List.Forall₂ m'.names.Lists info.members.toList taken
  found : m'.findType name = some ⟨m.types.size⟩

variable {m m' : Machine}

/-- Room on the heap does not matter for it. -/
theorem LeftBehind.of_heap {name : String} {parent : TypeId} {taken : List (String × TypeId)}
    (h : m.LeftBehind m' name parent taken) (heap : Heap) :
    m.LeftBehind { m' with heap } name parent taken :=
  ⟨h.size_eq, h.others, h.left, h.found⟩

theorem Extends.leftBehind {name : String} {parent : TypeId} {taken : List (String × TypeId)}
    {made : TypeId} {types : TypeTable}
    (hmake : m.types.make .object parent (m.intern name).1 = (.ok made, types))
    (h : Machine.Extends { (m.intern name).2 with types } m' made taken) :
    m.LeftBehind m' name parent taken := by
  obtain ⟨hname, -, hnew, rfl, -⟩ := TypeTable.of_make_ok hmake
  have hthere (id : TypeId) : types.get? id =
      if id = ⟨m.types.size⟩ then some (.fresh .object parent (m.intern name).1)
      else m.types.get? id := TypeTable.get?_make hmake id
  have hkept (id : TypeId) (hid : id ≠ ⟨m.types.size⟩) : m'.types.get? id = m.types.get? id := by
    rw [h.others id hid, hthere, if_neg hid]
  obtain ⟨members, size, hinfo, hlisted⟩ := h.grown _ ((hthere _).trans (if_pos rfl))
  simp only [TypeInfo.fresh, Array.empty_append] at hinfo
  have hnamed : m'.names.get? name = some (m.intern name).1 :=
    h.named _ _ (m.names.get?_intern_self name)
  refine ⟨?_, fun id hid => hkept id ?_, ⟨_, hinfo, rfl, rfl, hnamed, hname, rfl, rfl, ?_⟩, ?_⟩
  · obtain ⟨-, -, -, -, rfl⟩ := TypeTable.of_make_ok hmake
    exact h.size_eq.trans (TypeTable.size_push hnew)
  · rintro rfl
    exact absurd (TypeTable.isSome_get?_iff.1 hid) (Nat.lt_irrefl _)
  · exact hlisted
  · rw [findType, hnamed]
    refine (TypeTable.find_eq_some_iff _ _ _).2 ⟨by rw [hinfo]; rfl, ?_⟩
    rw [TypeTable.nameOf, hinfo]

end Machine

namespace Effect

theorem defineType_eq (name : String) (parent : TypeId) (members : List (String × TypeId))
    (m : Machine) : defineType name parent members m =
      match m.types.make .object parent (m.intern name).1 with
      | (.error why, types) => .done { (m.intern name).2 with types } (.error why)
      | (.ok type, types) =>
        (addMembers type members { (m.intern name).2 with types }).bind fun result m =>
          match result with
          | .error why => .done m (.error why)
          | .ok () => .done (m.bindType type).2 ((m.bindType type).1.map fun _ => type) := by
  have hmake : (m.intern name).2.types.make .object parent (m.intern name).1 =
      m.types.make .object parent (m.intern name).1 := rfl
  simp only [defineType, intern, changeTypes, Bind.bind, Effect.bind, Step.bind, hmake]
  obtain ⟨answer, types⟩ := m.types.make .object parent (m.intern name).1
  cases answer with
  | error why => rfl
  | ok type =>
    show Step.bind (addMembers type members { (m.intern name).2 with types }) _ = _
    congr 1
    funext result
    cases result with
    | error why => rfl
    | ok _ => rfl

/-- **All that a definition can come to.**  Its type is not registered, and only the name may be new
to the machine; or the type is left behind, with no binding added; or the type is defined; or its
size cannot be told. -/
theorem defineType_cases (name : String) (parent : TypeId) (members : List (String × TypeId))
    (m : Machine) :
    (∃ why, defineType name parent members m = .done (m.intern name).2 (.error why) ∧
      m.types.make .object parent (m.intern name).1 = (.error why, m.types)) ∨
    (∃ m' why taken, defineType name parent members m = .done m' (.error why) ∧
      m'.scopes = m.scopes ∧ m.LeftBehind m' name parent taken ∧
      m'.StoppedAt ⟨m.types.size⟩ members why taken) ∨
    (∃ m', defineType name parent members m = .done m' (.ok ⟨m.types.size⟩)) ∨
    ∃ m' d, defineType name parent members m = .defect m' d := by
  rw [defineType_eq]
  rcases m.types.make_cases .object parent (m.intern name).1 with ⟨why, hmake⟩ | ⟨-, hmake⟩
  · rw [hmake]
    exact .inl ⟨why, rfl, rfl⟩
  · rw [hmake]
    generalize m.types.push _ = types at hmake
    dsimp only
    rcases addMembers_cases ⟨m.types.size⟩ members { (m.intern name).2 with types } with
      ⟨m₁, hadded, hextends⟩ | ⟨m₁, why, taken, hadded, hextends, hstop⟩ | ⟨m₁, d, hadded⟩
    · rw [hadded]
      have hscopes : m₁.scopes = m.scopes := hextends.scopes_eq
      have hleft := hextends.leftBehind hmake
      cases hbind : m₁.bindType ⟨m.types.size⟩ with
      | mk result m₂ =>
        cases result with
        | ok r =>
          refine .inr (.inr (.inl ⟨m₂, ?_⟩))
          simp only [Step.bind, hbind]
          rfl
        | error why =>
          obtain ⟨heap, rfl⟩ := Machine.bindType_refused hbind
          refine .inr (.inl ⟨{ m₁ with heap }, why, members, ?_, hscopes, hleft.of_heap heap,
            .binding hbind⟩)
          simp only [Step.bind, hbind]
          rfl
    · rw [hadded]
      exact .inr (.inl ⟨m₁, why, taken, rfl, hextends.scopes_eq, hextends.leftBehind hmake, hstop⟩)
    · rw [hadded]
      exact .inr (.inr (.inr ⟨m₁, d, rfl⟩))

/-- A name that is taken cannot be defined, and the machine is as it was. -/
theorem defineType_taken {m : Machine} {text : String} {name : Name} {id : TypeId}
    (hname : m.names.get? text = some name) (hnonempty : name.isEmpty = false)
    (hfind : m.types.find name = some id) (parent : TypeId) (members : List (String × TypeId)) :
    ∃ why, defineType text parent members m = .done m (.error why) ∧
      ((m.types.get? parent).isSome = true → m.types.size < TypeTable.maxTypes →
        why = .keyAlreadyInTable) := by
  have hintern : m.intern text = (name, m) := by
    rw [Machine.intern, NameTable.intern_of_get? hname]
  obtain ⟨why, hmake, hwhy⟩ := TypeTable.make_of_find .object parent hnonempty hfind
  refine ⟨why, ?_, hwhy⟩
  rw [defineType_eq, hintern, hmake]

end Effect

/-- The machine and the value of a run that ended with one. -/
def Outcome.value? {α : Type} : Outcome α → Option (Machine × α)
  | value m a => some (m, a)
  | fault _ _ | defect _ _ | outOfSteps _ => none

theorem Outcome.eq_of_value? {α : Type} {o : Outcome α} {m : Machine} {a : α}
    (h : o.value? = some (m, a)) : o = .value m a := by
  cases o with
  | value m' a' =>
    obtain ⟨rfl, rfl⟩ := Prod.mk.inj (Option.some.inj h)
    rfl
  | fault m' k => cases h
  | defect m' d => cases h
  | outOfSteps m' => cases h

namespace Machine

variable {m m' : Machine}

/-- **What follows from a refusal.**  No binding is added.  Either the type could not be registered,
and then the types are as they were; or the type stays, found under its name, with the members
before the one that was refused, or with all of them if it was the binding.  Its name is taken then:
the same definition, and every other of that name, is refused and changes nothing. -/
theorem defineType_refused {n : Nat} {name : String} {parent : TypeId}
    {members : List (String × TypeId)} {why : Refusal}
    (h : m.run n (Effect.defineType name parent members) = .value m' (.error why)) :
    m'.scopes = m.scopes ∧
    ((m.types.make .object parent (m.intern name).1 = (.error why, m.types) ∧ m'.types = m.types) ∨
      ∃ taken, m.LeftBehind m' name parent taken ∧
        m'.StoppedAt ⟨m.types.size⟩ members why taken ∧
        ∀ n' parent' members', ∃ why',
          m'.run n' (Effect.defineType name parent' members') = .value m' (.error why') ∧
          ((m'.types.get? parent').isSome = true → m'.types.size < TypeTable.maxTypes →
            why' = .keyAlreadyInTable)) := by
  unfold run at h
  rcases Effect.defineType_cases name parent members m with
    ⟨why₁, hdone, hmake⟩ | ⟨m₁, why₁, taken, hdone, hscopes, hleft, hstop⟩ | ⟨m₁, hdone⟩ |
      ⟨m₁, d, hdone⟩
  · rw [hdone] at h
    obtain ⟨rfl, rfl⟩ : (m.intern name).2 = m' ∧ why₁ = why := by simpa [Step.run] using h
    exact ⟨rfl, .inl ⟨hmake, rfl⟩⟩
  · rw [hdone] at h
    obtain ⟨rfl, rfl⟩ : m₁ = m' ∧ why₁ = why := by simpa [Step.run] using h
    refine ⟨hscopes, .inr ⟨taken, hleft, hstop, fun n' parent' members' => ?_⟩⟩
    obtain ⟨info, -, -, -, hname, hnonempty, -⟩ := hleft.left
    have hfind : m₁.types.find info.name = some ⟨m.types.size⟩ := by
      simpa [findType, hname] using hleft.found
    obtain ⟨why', hagain, hwhy'⟩ := Effect.defineType_taken hname hnonempty hfind parent' members'
    refine ⟨why', ?_, hwhy'⟩
    rw [run, hagain]
    rfl
  · rw [hdone] at h
    simp [Step.run] at h
  · rw [hdone] at h
    simp [Step.run] at h

/-- A type with a member of no type is left behind without members, and with the member put right it
is refused, while a machine that had not tried takes it. -/
theorem defineType_refused_unknown_member :
    let m := bare ⟨⟨0, true⟩, some 5, .terminal, false, .standard⟩ .initial
    let point (type : TypeId) := Effect.defineType "Point" .baseObject [("x", type)]
    ∃ m', m.run 0 (point ⟨99⟩) = .value m' (.error .invalidArgument) ∧
      m.findType "Point" = none ∧ m'.findType "Point" = some ⟨11⟩ ∧
      m'.run 0 (point .integer) = .value m' (.error .keyAlreadyInTable) ∧
      ∃ m'', m.run 0 (point .integer) = .value m'' (.ok ⟨11⟩) := by
  intro m point
  obtain ⟨hsize, hnone, hbase⟩ : m.types.size = 11 ∧ m.findType "Point" = none ∧
      (m.types.get? .baseObject).isSome = true := by decide +kernel
  have hrefused : (m.run 0 (point ⟨99⟩)).value?.map (fun x =>
      (x.2, x.1.findType "Point", x.1.types.size)) =
        some (.error .invalidArgument, some ⟨11⟩, 12) := by decide +kernel
  have hdefined : (m.run 0 (point .integer)).value?.map Prod.snd = some (.ok ⟨11⟩) := by
    decide +kernel
  obtain ⟨⟨m', result⟩, hvalue, hfacts⟩ := Option.map_eq_some_iff.1 hrefused
  simp only [Prod.mk.injEq] at hfacts
  obtain ⟨rfl, hfound, hsize'⟩ := hfacts
  have hrun := Outcome.eq_of_value? hvalue
  refine ⟨m', hrun, hnone, hfound, ?_, ?_⟩
  · obtain ⟨-, ⟨-, hsame⟩ | ⟨taken, hleft, -, hagain⟩⟩ := defineType_refused hrun
    · rw [hsame, hsize] at hsize'
      cases hsize'
    · obtain ⟨why', hrun', hwhy'⟩ := hagain 0 .baseObject [("x", .integer)]
      rw [← hleft.others .baseObject hbase] at hbase
      obtain rfl := hwhy' hbase (by rw [hsize']; decide)
      exact hrun'
  · obtain ⟨⟨m'', result⟩, hvalue', rfl⟩ := Option.map_eq_some_iff.1 hdefined
    exact ⟨m'', Outcome.eq_of_value? hvalue'⟩

end Machine

end ScriptMachine
