/-
# What a host can do to its machine

Besides having trees evaluated, a host brings in names, defines types with members and methods,
binds natives, and collects.  All of that, and the set-up of a new machine, comes down to five kinds
of acts.

* `TypeTable.Grows`: types stay, and what is sealed keeps its members;
* `Machine.HostAct`, `Machine.Prepares`: one act, and any number of them;
* `Machine.prepares_boot`: a new machine is a bare one that was prepared;
* `Machine.HostStep`, `Machine.Leads`: one step of a host, and any number of them.  Each is an
  evaluation or a preparation.
-/
import Mathlib.Logic.Relation
import ScriptMachine.Proofs.Conduct.Evaluation

namespace ScriptMachine

/-! ## 1. Tables that grow -/

/-- A type can get methods, and members until it is sealed. -/
structure TypeInfo.Grows (info info' : TypeInfo) : Prop where
  kind_eq : info'.kind = info.kind
  isSealed : info.isSealed = true → info'.isSealed = true
  members_eq : info.isSealed = true → info'.members = info.members

theorem TypeInfo.Grows.refl (info : TypeInfo) : info.Grows info := ⟨rfl, id, fun _ => rfl⟩

/-- Every type is still there, and has at most grown. -/
def TypeTable.Grows (t t' : TypeTable) : Prop :=
  ∀ id info, t.get? id = some info → ∃ info', t'.get? id = some info' ∧ info.Grows info'

namespace TypeTable.Grows

variable {t t' t'' : TypeTable}

theorem refl (t : TypeTable) : t.Grows t := fun _ info h => ⟨info, h, .refl info⟩

theorem trans (h : t.Grows t') (h' : t'.Grows t'') : t.Grows t'' := by
  intro id info hinfo
  obtain ⟨info', hinfo', hgrows⟩ := h id info hinfo
  obtain ⟨info'', hinfo'', hgrows'⟩ := h' id info' hinfo'
  refine ⟨info'', hinfo'', hgrows'.kind_eq.trans hgrows.kind_eq,
    fun hs => hgrows'.isSealed (hgrows.isSealed hs),
    fun hs => (hgrows'.members_eq (hgrows.isSealed hs)).trans (hgrows.members_eq hs)⟩

/-- A change of one type that lets it grow. -/
theorem modify (t : TypeTable) (id : TypeId) {f : TypeInfo → TypeInfo}
    (hname : ∀ info, (f info).name = info.name)
    (hf : ∀ info, t.get? id = some info → info.Grows (f info)) :
    t.Grows (t.modify id f hname) := by
  intro id' info hinfo
  rw [TypeTable.get?_modify, hinfo]
  split
  · next hid =>
    subst hid
    exact ⟨f info, rfl, hf info hinfo⟩
  · exact ⟨info, rfl, .refl info⟩

theorem insertMethod (t : TypeTable) (id : TypeId) (callable : Callable) (location : Location) :
    t.Grows (t.insertMethod id callable location).2 := by
  rcases t.insertMethod_cases id callable location with ⟨why, hinsert⟩ | ⟨-, hinsert⟩
  · rw [hinsert]
    exact refl t
  · rw [hinsert]
    refine modify t id ?_ ?_
    · exact fun _ => rfl
    · exact fun _ _ => ⟨rfl, fun hs => hs, fun _ => rfl⟩

theorem close (t : TypeTable) (id : TypeId) : t.Grows (t.close id).2 := by
  rcases t.close_cases id with ⟨why, hclose⟩ | ⟨-, hclose⟩
  · rw [hclose]
    exact refl t
  · rw [hclose]
    refine modify t id ?_ ?_
    · exact fun _ => rfl
    · exact fun _ _ => ⟨rfl, fun _ => rfl, fun _ => rfl⟩

theorem make (t : TypeTable) (kind : TypeKind) (parent : TypeId) (name : Name) :
    t.Grows (t.make kind parent name).2 := by
  rcases t.make_cases kind parent name with ⟨why, hmake⟩ | ⟨⟨-, -, hnew⟩, hmake⟩
  · rw [hmake]
    exact refl t
  · intro id info hinfo
    have hthere : id ≠ ⟨t.size⟩ := by
      rintro rfl
      exact Nat.lt_irrefl _ (TypeTable.isSome_get?_iff.1 (Option.isSome_of_eq_some hinfo))
    exact ⟨info, by rw [hmake, TypeTable.get?_push hnew, if_neg hthere, hinfo], .refl info⟩

/-- A sealed type takes no member, so a type that takes one may have any number of them. -/
theorem insertMember (t : TypeTable) (id : TypeId) (name : Name) (memberType : TypeId) :
    t.Grows (t.insertMember id name memberType).2 := by
  have hopened {f : TypeInfo → TypeInfo} {info : TypeInfo} (hinfo : t.get? id = some info)
      (hopen : info.isSealed = false) (hname : ∀ info, (f info).name = info.name)
      (hkind : (f info).kind = info.kind) : t.Grows (t.modify id f hname) := by
    refine modify t id hname fun info' hinfo' => ?_
    obtain rfl : info = info' := Option.some.inj (hinfo.symm.trans hinfo')
    refine ⟨hkind, fun hs => ?_, fun hs => ?_⟩
    · exact absurd hs (Bool.eq_false_iff.1 hopen)
    · exact absurd hs (Bool.eq_false_iff.1 hopen)
  rcases t.insertMember_cases id name memberType with
    ⟨why, hinsert⟩ | ⟨info, memberInfo, hinfo, -, ⟨hopen, -⟩, ⟨-, hinsert⟩ | ⟨-, hinsert⟩⟩
  · rw [hinsert]
    exact refl t
  · rw [hinsert]
    refine hopened hinfo hopen ?_ ?_
    · exact fun _ => rfl
    · rfl
  · rw [hinsert]
    refine hopened hinfo hopen ?_ ?_
    · exact fun _ => rfl
    · rfl

/-- What was registered is. -/
theorem isSome (h : t.Grows t') {id : TypeId} (hid : (t.get? id).isSome = true) :
    (t'.get? id).isSome = true := by
  obtain ⟨info, hinfo⟩ := Option.isSome_iff_exists.1 hid
  obtain ⟨info', hinfo', -⟩ := h id info hinfo
  rw [hinfo']
  rfl

end TypeTable.Grows

/-- A new module takes no other away. -/
theorem ModuleTable.contains_of_register {t t' : ModuleTable} {owner : Name}
    (h : t.register owner = .ok t') (name : Name) (hname : t.contains name = true) :
    t'.contains name = true := by
  unfold ModuleTable.register at h
  split at h
  · cases h
  · split at h
    · cases h
    · obtain rfl := Except.ok.inj h
      simp only [ModuleTable.contains, ModuleTable.get?, Option.isSome_map, List.find?_cons] at hname ⊢
      split
      · rfl
      · exact hname

/-- A new member takes no module away. -/
theorem ModuleTable.contains_of_insertMember {t t' : ModuleTable} {owner member : Name}
    {value : Ref} (h : t.insertMember owner member value = .ok t') (name : Name)
    (hname : t.contains name = true) : t'.contains name = true := by
  unfold ModuleTable.insertMember at h
  split at h
  · cases h
  · split at h
    · cases h
    · obtain rfl := Except.ok.inj h
      simp only [ModuleTable.contains, ModuleTable.get?, Option.isSome_map, List.find?_isSome,
        decide_eq_true_eq] at hname ⊢
      obtain ⟨module, hmem, hmodule⟩ := hname
      refine ⟨_, List.mem_map.2 ⟨module, hmem, rfl⟩, ?_⟩
      split
      · exact hmodule
      · exact hmodule

/-! ## 2. Acts of a host -/

namespace Machine

/-- The values that a host has placed on the heap of a machine. -/
inductive Supplies (m : Machine) : Value → Prop where
  | real (x : Double) : Supplies m (.ofReal x)
  | builtin (f : NativeFunction) : Supplies m (.ofBuiltin f)
  | type {type : TypeId} : (m.types.get? type).isSome = true → Supplies m (.ofType type)

/-- One act of a host, evaluation left aside. -/
inductive HostAct : Machine → Machine → Prop where
  | names (m : Machine) (names : NameTable) : HostAct m { m with names }
  | types {m : Machine} {types : TypeTable} : m.types.Grows types → HostAct m { m with types }
  | allocate {m : Machine} {v : Value} : m.Supplies v → HostAct m (m.tryAllocate v).2
  | bindGlobal (m : Machine) (name : Name) (value : Ref) (mutability : Mutability) :
      HostAct m (m.bindGlobal name value mutability).2
  | modules {m : Machine} {modules : ModuleTable} :
      (∀ name, m.modules.contains name = true → modules.contains name = true) →
      HostAct m { m with modules }

/-- Any number of acts of a host. -/
def Prepares : Machine → Machine → Prop := Relation.ReflTransGen HostAct

variable {m m' m'' : Machine}

theorem Prepares.refl (m : Machine) : m.Prepares m := Relation.ReflTransGen.refl

theorem Prepares.trans (h : m.Prepares m') (h' : m'.Prepares m'') : m.Prepares m'' :=
  Relation.ReflTransGen.trans h h'

theorem HostAct.prepares (h : m.HostAct m') : m.Prepares m' := Relation.ReflTransGen.single h

/-- Types only grow. -/
theorem HostAct.types_grows (h : m.HostAct m') : m.types.Grows m'.types := by
  cases h with
  | names _ => exact .refl _
  | types h => exact h
  | @allocate v _ =>
    obtain ⟨heap, hheap⟩ := m.exists_heap_tryAllocate v
    rw [hheap]
    exact .refl _
  | bindGlobal _ _ _ => exact .refl _
  | modules _ => exact .refl _

theorem Prepares.types_grows (h : m.Prepares m') : m.types.Grows m'.types := by
  induction h with
  | refl => exact .refl _
  | tail _ hact ih => exact ih.trans hact.types_grows

/-! ## 3. Names, natives and modules -/

theorem prepares_intern (m : Machine) (text : String) : m.Prepares (m.intern text).2 :=
  (HostAct.names m _).prepares

theorem prepares_installGlobal (m : Machine) (name : Name) {v : Value} (hv : m.Supplies v) :
    m.Prepares (m.installGlobal name v).2 := by
  have hplaced := (HostAct.allocate hv).prepares
  unfold installGlobal
  generalize m.tryAllocate v = result at hplaced
  obtain ⟨result, m'⟩ := result
  cases result with
  | error why => exact hplaced
  | ok r => exact hplaced.trans (HostAct.bindGlobal m' name r .immutable).prepares

theorem prepares_bindType (m : Machine) {type : TypeId} (h : (m.types.get? type).isSome = true) :
    m.Prepares (m.bindType type).2 :=
  m.prepares_installGlobal _ (.type h)

theorem prepares_registerNative (m : Machine) (spec : NativeSpec) :
    m.Prepares (m.registerNative spec).2 :=
  (m.prepares_intern spec.name).trans (prepares_installGlobal _ _ (.builtin _))

theorem prepares_installMethod (type : TypeId) (m : Machine) (spec : NativeSpec) :
    m.Prepares (m.installMethod type spec) :=
  (m.prepares_intern spec.name).trans (HostAct.types (.insertMethod _ _ _ _)).prepares

theorem prepares_adoptModules (m : Machine) {t : Except Refusal ModuleTable}
    (h : ∀ t', t = .ok t' → ∀ name, m.modules.contains name = true → t'.contains name = true) :
    m.Prepares (m.adoptModules t) := by
  cases t with
  | error why => exact .refl m
  | ok t' => exact (HostAct.modules (h t' rfl)).prepares

theorem prepares_installMember (owner : Name) (m : Machine) (member : String)
    {value : Name → Value} (hv : ∀ (m : Machine) name, m.Supplies (value name)) :
    m.Prepares (m.installMember owner member value) := by
  refine (m.prepares_intern member).trans ?_
  have hplaced := (HostAct.allocate (hv (m.intern member).2 (m.intern member).1)).prepares
  unfold installMember
  simp only
  generalize (m.intern member).2.tryAllocate (value (m.intern member).1) = result at hplaced ⊢
  obtain ⟨result, m'⟩ := result
  cases result with
  | error why => exact hplaced
  | ok r => exact hplaced.trans (m'.prepares_adoptModules fun _ ht =>
      ModuleTable.contains_of_insertMember ht)

/-- Preparations one after another. -/
theorem Prepares.foldl {β : Type} {f : Machine → β → Machine} (l : List β) (h : m.Prepares m')
    (hf : ∀ m₁ b, b ∈ l → m.Prepares m₁ → m₁.Prepares (f m₁ b)) : m.Prepares (l.foldl f m') :=
  List.foldlRecOn (motive := m.Prepares) l f h fun m₁ hm₁ b hb => hm₁.trans (hf m₁ b hb hm₁)

theorem prepares_installMathematics (m : Machine) : m.Prepares m.installMathematics := by
  refine (m.prepares_intern "math").trans ?_
  refine .foldl _ ?_ fun m₁ spec _ _ =>
    prepares_installMember _ m₁ spec.name fun _ _ => .builtin _
  exact (prepares_adoptModules _ fun _ ht => ModuleTable.contains_of_register ht).trans
    (prepares_installMember _ _ "pi" fun _ _ => .real _)

/-- **A new machine** is a bare one that was prepared. -/
theorem prepares_boot (settings : Settings) (names : NameTable) :
    (bare settings names).Prepares (boot settings names) := by
  let installed := NativeSpec.methodTables.foldl (fun m entry =>
    entry.2.foldl (installMethod entry.1) m) (bare settings names)
  have hmethods : (bare settings names).Prepares installed := by
    refine .foldl _ (.refl _) fun m x _ _ => ?_
    exact .foldl _ (.refl m) fun m₁ spec _ _ => prepares_installMethod _ m₁ spec
  have htypes : installed.Prepares ((List.range installed.types.size).foldl
      (fun m i => (m.bindType ⟨i⟩).2) installed) := by
    refine .foldl _ (.refl _) fun m i hi hm => prepares_bindType m (hm.types_grows.isSome ?_)
    simpa [TypeTable.get?, TypeTable.size] using hi
  have hglobals := (hmethods.trans htypes).trans (.foldl NativeSpec.globals (.refl _)
    fun m spec _ _ => m.prepares_registerNative spec)
  exact hglobals.trans (prepares_installMathematics _)

end Machine

/-! ## 4. Definitions of types -/

/-- A computation that asked for nothing and only prepared the machine. -/
def Step.Prepared {α : Type} (m : Machine) : Step α → Prop
  | .done m' _ | .fault m' _ | .defect m' _ => m.Prepares m'
  | .call _ _ _ => False

namespace Step.Prepared

variable {α β : Type} {m m' : Machine}

theorem of_prepares (hm : m.Prepares m') {s : Step α} (h : s.Prepared m') : s.Prepared m := by
  cases s with
  | done m₁ a => exact hm.trans h
  | fault m₁ k => exact hm.trans h
  | defect m₁ d => exact hm.trans h
  | call m₁ q resume => exact h.elim

theorem bind {x : Effect α} {f : α → Effect β} (hx : (x m).Prepared m)
    (hf : ∀ a m', (f a m').Prepared m') : ((x >>= f) m).Prepared m := by
  show (Step.bind (x m) f).Prepared m
  generalize x m = s at hx
  cases s with
  | done m₁ a => exact of_prepares hx (hf a m₁)
  | fault m₁ k => exact hx
  | defect m₁ d => exact hx
  | call m₁ q resume => exact hx.elim

theorem changeTypes {f : TypeTable → α × TypeTable} {g : α → Effect β}
    (hf : m.types.Grows (f m.types).2)
    (hg : (g (f m.types).1 { m with types := (f m.types).2 }).Prepared
      { m with types := (f m.types).2 }) : ((Effect.changeTypes f >>= g) m).Prepared m :=
  of_prepares (Machine.HostAct.types hf).prepares hg

end Step.Prepared

namespace Effect

theorem prepared_addMember (type : TypeId) (name : Name) (memberType : TypeId) (m : Machine) :
    (addMember type name memberType m).Prepared m := by
  have hact : m.Prepares { m with types := (m.types.insertMember type name memberType).2 } :=
    (Machine.HostAct.types (.insertMember _ _ _ _)).prepares
  unfold addMember
  generalize m.types.insertMember type name memberType = result at hact
  obtain ⟨result, types⟩ := result
  cases result with
  | placed offset => exact hact
  | refused why => exact hact
  | sizeOverflow => exact hact

theorem prepared_addMembers (type : TypeId) (members : List (String × TypeId)) (m : Machine) :
    (addMembers type members m).Prepared m := by
  induction members generalizing m with
  | nil => exact .refl m
  | cons x rest ih =>
    refine .bind (m.prepares_intern x.1) fun name m₁ => ?_
    refine .bind (prepared_addMember type name x.2 m₁) fun result m₂ => ?_
    cases result with
    | error why => exact .refl m₂
    | ok offset => exact ih m₂

/-- The type whose members were added is still there when it is bound. -/
theorem prepared_defineType (name : String) (parent : TypeId) (members : List (String × TypeId))
    (m : Machine) : (defineType name parent members m).Prepared m := by
  refine .bind (m.prepares_intern name) fun name m₁ => ?_
  refine .changeTypes (.make m₁.types .object parent name) ?_
  generalize hmake : m₁.types.make .object parent name = made
  obtain ⟨answer, types⟩ := made
  cases answer with
  | error why => exact .refl _
  | ok type =>
    have hthere : (types.get? type).isSome = true := by
      rw [TypeTable.get?_make hmake, if_pos rfl]
      rfl
    have hmembers := prepared_addMembers type members { m₁ with types }
    show Step.Prepared _ (Step.bind (addMembers type members { m₁ with types }) _)
    generalize addMembers type members { m₁ with types } = s at hmembers
    cases s with
    | fault m₂ k => exact hmembers
    | defect m₂ d => exact hmembers
    | call m₂ q resume => exact hmembers.elim
    | done m₂ result =>
      cases result with
      | error why => exact hmembers
      | ok _ =>
        exact .trans hmembers (m₂.prepares_bindType (hmembers.types_grows.isSome hthere))

end Effect

/-! ## 5. Steps of a host -/

namespace Machine

/-- One step of a host.  An evaluation may be looked at after any number of its own steps, and not
only at its end. -/
inductive HostStep : Machine → Machine → Prop where
  | intern (m : Machine) (text : String) : HostStep m (m.intern text).2
  | evaluate (m : Machine) (n : Nat) (node : Node) : HostStep m (m.evaluate n node).machine
  | defineType {m m' : Machine} {n : Nat} {name : String} {parent : TypeId}
      {members : List (String × TypeId)} {result : Except Refusal TypeId} :
      m.run n (Effect.defineType name parent members) = .value m' result → HostStep m m'
  | insertMember (m : Machine) (type : TypeId) (name : Name) (memberType : TypeId) :
      HostStep m { m with types := (m.types.insertMember type name memberType).2 }
  | insertMethod (m : Machine) (type : TypeId) (callable : Callable) (location : Location) :
      HostStep m { m with types := (m.types.insertMethod type callable location).2 }
  | registerNative (m : Machine) (spec : NativeSpec) : HostStep m (m.registerNative spec).2
  | collectGarbage (m : Machine) : HostStep m m.collectGarbage.2

/-- Any number of steps of a host. -/
def Leads : Machine → Machine → Prop := Relation.ReflTransGen HostStep

variable {m m' : Machine}

/-- **A step of a host** is the moment of an evaluation, or a preparation. -/
theorem HostStep.passes_or_prepares (h : m.HostStep m') : m.Passes m' ∨ m.Prepares m' := by
  cases h with
  | intern text => exact .inr (m.prepares_intern text)
  | evaluate n node => exact .inl (run_passes (.eval node) m n)
  | @defineType _ n name parent members result hrun =>
    have hprepared := Effect.prepared_defineType name parent members m
    unfold Machine.run at hrun
    generalize Effect.defineType name parent members m = s at hprepared hrun
    cases s with
    | done m₁ a =>
      obtain ⟨rfl, -⟩ : m₁ = m' ∧ a = result := by simpa [Step.run] using hrun
      exact .inr hprepared
    | fault m₁ k => simp [Step.run] at hrun
    | defect m₁ d => simp [Step.run] at hrun
    | call m₁ q resume => exact hprepared.elim
  | insertMember type name memberType =>
    exact .inr (HostAct.types (.insertMember _ _ _ _)).prepares
  | insertMethod type callable location =>
    exact .inr (HostAct.types (.insertMethod _ _ _ _)).prepares
  | registerNative spec => exact .inr (m.prepares_registerNative spec)
  | collectGarbage =>
    refine .inl ?_
    unfold Machine.collectGarbage
    cases hcollect : m.collectGarbage? with
    | none => exact .refl m
    | some result => exact (Act.collect hcollect).passes

end Machine

end ScriptMachine
