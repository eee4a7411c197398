/-
# Tables over time

Whatever a host does to its machine, what the tables of the machine say stays true: a text that has a
name keeps it, the names of the machine's own methods and its digest do not change, the table of types
is changed by the four changes of a table and by nothing else, and the heap stays in order.

* `Machine.Develops`: all of that, from one machine to a later one;
* `Machine.Act.develops`, `Machine.HostStep.develops`: one act of a computation, one step of a host;
* `Machine.Leads.develops`: all that a host does over time.
-/
import ScriptMachine.Proofs.Copies.Additions
import ScriptMachine.Proofs.Twin.Host
import ScriptMachine.Proofs.TypeDefinition
import ScriptMachine.Proofs.Typing

namespace ScriptMachine

/-! ## 1. Later tables -/

/-- Every text that has a name in one table has it in the other. -/
def NameTable.Within (names names' : NameTable) : Prop :=
  ∀ text name, names.get? text = some name → names'.get? text = some name

namespace NameTable

variable {names names' names'' : NameTable} {text text' : String} {name : Name}

theorem Within.refl (names : NameTable) : names.Within names := fun _ _ h => h

theorem Within.trans (h : names.Within names') (h' : names'.Within names'') :
    names.Within names'' :=
  fun text name hname => h' text name (h text name hname)

theorem within_intern (names : NameTable) (s : String) : names.Within (names.intern s).2 :=
  fun _ _ hname => get?_intern s hname

/-- **Different texts have different names.** -/
theorem text_eq_of_get? (h : names.get? text = some name) (h' : names.get? text' = some name) :
    text = text' :=
  Option.some.inj ((get?_eq_some_iff.1 h).symm.trans (get?_eq_some_iff.1 h'))

/-- The names that texts were given are theirs from then on. -/
theorem forall₂_internAll (names : NameTable) (texts : List String) :
    names.Within (names.internAll texts).2 ∧
      List.Forall₂ (fun text name => (names.internAll texts).2.get? text = some name) texts
        (names.internAll texts).1 := by
  induction texts generalizing names with
  | nil => exact ⟨.refl names, .nil⟩
  | cons text rest ih =>
    obtain ⟨hwithin, hrest⟩ := ih (names.intern text).2
    exact ⟨(names.within_intern text).trans hwithin,
      .cons (hwithin _ _ (names.get?_intern_self text)) hrest⟩

end NameTable

/-- One table comes from another by changes. -/
def TypeTable.Becomes (t t' : TypeTable) : Prop := ∃ changes, t' = t.changeAll changes

namespace TypeTable

variable {t t' t'' : TypeTable}

theorem Becomes.refl (t : TypeTable) : t.Becomes t := ⟨[], rfl⟩

theorem Becomes.trans (h : t.Becomes t') (h' : t'.Becomes t'') : t.Becomes t'' := by
  obtain ⟨changes, rfl⟩ := h
  obtain ⟨changes', rfl⟩ := h'
  exact ⟨changes ++ changes', by rw [changeAll, changeAll, changeAll, List.foldl_append]⟩

theorem Becomes.change (t : TypeTable) (c : Change) : t.Becomes (t.change c).2 := ⟨[c], rfl⟩

theorem Becomes.make (t : TypeTable) (kind : TypeKind) (parent : TypeId) (name : Name) :
    t.Becomes (t.make kind parent name).2 :=
  .change t (.make kind parent name)

theorem Becomes.insertMember (t : TypeTable) (id : TypeId) (name : Name) (memberType : TypeId) :
    t.Becomes (t.insertMember id name memberType).2 :=
  .change t (.insertMember id name memberType)

theorem Becomes.insertMethod (t : TypeTable) (id : TypeId) (callable : Callable)
    (location : Location) : t.Becomes (t.insertMethod id callable location).2 :=
  .change t (.insertMethod id callable location)

theorem Becomes.close (t : TypeTable) (id : TypeId) : t.Becomes (t.close id).2 :=
  .change t (.close id)

theorem Becomes.tree (h : t.Becomes t') (ht : t.Tree) : t'.Tree := by
  obtain ⟨changes, rfl⟩ := h
  exact ht.changeAll changes

end TypeTable

/-! ## 2. Heaps in order -/

namespace Heap.WellFormed

variable {m m' : Machine}

theorem tryAllocate (hw : m.heap.WellFormed) (v : Value) :
    (m.tryAllocate v).2.heap.WellFormed := by
  obtain ⟨h, -, ht, ⟨a, h', htry, hw', -⟩ | ⟨htry, -⟩⟩ := Machine.tryAllocate_eq hw v
  · rw [htry]
    exact hw'
  · rw [htry]
    exact ht.wellFormed

theorem modifyPayload (hw : m.heap.WellFormed) (r : Ref) (f : Payload → Payload) :
    (m.modifyPayload r f).heap.WellFormed := by
  cases r with
  | nil => exact hw
  | bool b => exact hw
  | heap a =>
    obtain ⟨used, free, hl⟩ := hw
    exact ⟨used, free, hl.write a fun v => { v with payload := f v.payload }⟩

theorem setEnabled {h : Heap} (hw : h.WellFormed) (enabled : Bool) :
    (h.setEnabled enabled).WellFormed := by
  obtain ⟨used, free, hl⟩ := hw
  exact ⟨used, free, hl.setEnabled enabled⟩

theorem collectGarbage? (hw : m.heap.WellFormed) {freed : Nat}
    (h : m.collectGarbage? = some (freed, m')) : m'.heap.WellFormed := by
  obtain ⟨n, heap, hcollect, htrimmed⟩ := hw.collect m.roots
  obtain ⟨swept, hswept, hm'⟩ := Option.map_eq_some_iff.1 h
  obtain rfl : (n, heap) = swept := Option.some.inj (hcollect.symm.trans hswept)
  obtain ⟨-, rfl⟩ := Prod.mk.inj hm'
  exact htrimmed.wellFormed

end Heap.WellFormed

/-! ## 3. From one machine to a later one -/

namespace Machine

/-- What a later machine has of an earlier one. -/
structure Develops (m m' : Machine) : Prop where
  methods_eq : m'.methods = m.methods
  digest_eq : m'.digest = m.digest
  names : m.names.Within m'.names
  types : m.types.Becomes m'.types
  wellFormed : m.heap.WellFormed → m'.heap.WellFormed

variable {m m' m'' : Machine} {rooting : Bool}

namespace Develops

theorem refl (m : Machine) : m.Develops m := ⟨rfl, rfl, .refl _, .refl _, id⟩

theorem trans (h : m.Develops m') (h' : m'.Develops m'') : m.Develops m'' :=
  ⟨h'.methods_eq.trans h.methods_eq, h'.digest_eq.trans h.digest_eq, h.names.trans h'.names,
    h.types.trans h'.types, fun hw => h'.wellFormed (h.wellFormed hw)⟩

/-- The other parts of a machine do not matter. -/
theorem of_eq (hmethods : m'.methods = m.methods) (hdigest : m'.digest = m.digest)
    (hnames : m'.names = m.names) (htypes : m'.types = m.types) (hheap : m'.heap = m.heap) :
    m.Develops m' :=
  ⟨hmethods, hdigest, hnames ▸ .refl _, htypes ▸ .refl _, hheap ▸ id⟩

theorem of_heap {heap : Heap} (hw : m.heap.WellFormed → heap.WellFormed) :
    m.Develops { m with heap } :=
  ⟨rfl, rfl, .refl _, .refl _, hw⟩

theorem of_types {types : TypeTable} (h : m.types.Becomes types) : m.Develops { m with types } :=
  ⟨rfl, rfl, .refl _, h, id⟩

theorem tryAllocate (m : Machine) (v : Value) : m.Develops (m.tryAllocate v).2 := by
  have hw := fun hw : m.heap.WellFormed => hw.tryAllocate v
  obtain ⟨heap, hheap⟩ := m.exists_heap_tryAllocate v
  rw [hheap] at hw ⊢
  exact of_heap hw

theorem modifyPayload (m : Machine) (r : Ref) (f : Payload → Payload) :
    m.Develops (m.modifyPayload r f) := by
  have hw := fun hw : m.heap.WellFormed => hw.modifyPayload r f
  obtain ⟨heap, hheap⟩ := m.exists_heap_modifyPayload r f
  rw [hheap] at hw ⊢
  exact of_heap hw

theorem collectGarbage? {freed : Nat} (h : m.collectGarbage? = some (freed, m')) :
    m.Develops m' := by
  have hw := fun hw : m.heap.WellFormed => hw.collectGarbage? h
  obtain ⟨swept, -, hm'⟩ := Option.map_eq_some_iff.1 h
  obtain ⟨-, rfl⟩ := Prod.mk.inj hm'
  exact of_heap hw

theorem intern (m : Machine) (text : String) : m.Develops (m.intern text).2 :=
  ⟨rfl, rfl, m.names.within_intern text, .refl _, id⟩

theorem installGlobal (m : Machine) (name : Name) (v : Value) :
    m.Develops (m.installGlobal name v).2 := by
  have hplaced := tryAllocate m v
  unfold Machine.installGlobal
  generalize m.tryAllocate v = result at hplaced
  obtain ⟨result, m'⟩ := result
  cases result with
  | error why => exact hplaced
  | ok r => exact hplaced.trans (of_eq rfl rfl rfl rfl rfl)

theorem registerNative (m : Machine) (spec : NativeSpec) :
    m.Develops (m.registerNative spec).2 :=
  (intern m spec.name).trans (installGlobal _ _ _)

end Develops

/-! ## 4. Evaluation -/

/-- **One act** of a computation. -/
theorem Act.develops (h : m.Act m') : m.Develops m' := by
  cases h with
  | allocate _ => exact .tryAllocate m _
  | collect h => exact .collectGarbage? h
  | store r position v => exact .modifyPayload m r _
  | append r v => exact .modifyPayload m r _
  | bind name entry => exact .of_eq rfl rfl rfl rfl rfl
  | assign name v => exact .of_eq rfl rfl rfl rfl rfl
  | addMethod type callable location => exact .of_types (.insertMethod _ _ _ _)
  | close type => exact .of_types (.close _ _)
  | report kind location => exact .of_eq rfl rfl rfl rfl rfl
  | write text => exact .of_eq rfl rfl rfl rfl rfl
  | switch enabled => exact .of_heap fun hw => hw.setEnabled enabled

theorem Proceeds.develops (h : m.Proceeds rooting m') : m.Develops m' := by
  induction h with
  | refl m => exact .refl m
  | trans _ _ ih ih' => exact ih.trans ih'
  | act h => exact h.develops
  | root m r =>
    cases r with
    | nil => exact .refl m
    | bool b => exact .refl m
    | heap a => exact .of_eq rfl rfl rfl rfl rfl
  | released _ ih => exact ih.trans (.of_eq rfl rfl rfl rfl rfl)
  | scope h _ ih => exact ⟨ih.methods_eq, ih.digest_eq, ih.names, ih.types, ih.wellFormed⟩
  | call h _ ih => exact ⟨ih.methods_eq, ih.digest_eq, ih.names, ih.types, ih.wellFormed⟩
  | rendering _ ih => exact ⟨ih.methods_eq, ih.digest_eq, ih.names, ih.types, ih.wellFormed⟩

/-- **At every moment** of a computation. -/
theorem Passes.develops (h : m.Passes m') : m.Develops m' := by
  induction h with
  | proceeds h => exact h.develops
  | trans _ _ ih ih' => exact ih.trans ih'
  | scope m h => exact .of_eq rfl rfl rfl rfl rfl
  | call _ => exact .of_eq rfl rfl rfl rfl rfl
  | rendering m => exact .of_eq rfl rfl rfl rfl rfl
  | unwound _ ih => exact ih.trans (.of_eq rfl rfl rfl rfl rfl)

/-! ## 5. Hosts -/

theorem develops_of_addMember {type memberType : TypeId} {name : Name}
    {result : Except Refusal Nat} (h : Effect.addMember type name memberType m = .done m' result) :
    m.Develops m' := by
  have htypes := TypeTable.Becomes.insertMember m.types type name memberType
  unfold Effect.addMember at h
  generalize m.types.insertMember type name memberType = inserted at h htypes
  obtain ⟨answer, types⟩ := inserted
  cases answer with
  | placed offset =>
    obtain ⟨rfl, -⟩ := Step.done.inj h
    exact .of_types htypes
  | refused why =>
    obtain ⟨rfl, -⟩ := Step.done.inj h
    exact .of_types htypes
  | sizeOverflow => cases h

theorem develops_of_addMembers {type : TypeId} {members : List (String × TypeId)}
    {result : Except Refusal Unit} (h : Effect.addMembers type members m = .done m' result) :
    m.Develops m' := by
  induction members generalizing m with
  | nil =>
    obtain ⟨rfl, -⟩ := Step.done.inj h
    exact .refl m
  | cons x rest ih =>
    obtain ⟨text, memberType⟩ := x
    rw [Effect.addMembers_cons] at h
    cases hadd : Effect.addMember type (m.intern text).1 memberType (m.intern text).2 with
    | done m₁ added =>
      have hone := (Develops.intern m text).trans (develops_of_addMember hadd)
      rw [hadd] at h
      cases added with
      | error why =>
        obtain ⟨rfl, -⟩ := Step.done.inj h
        exact hone
      | ok offset => exact hone.trans (ih h)
    | fault m₁ k => rw [hadd] at h; cases h
    | defect m₁ d => rw [hadd] at h; cases h
    | call m₁ q resume => rw [hadd] at h; cases h

theorem develops_of_defineType {name : String} {parent : TypeId} {members : List (String × TypeId)}
    {result : Except Refusal TypeId}
    (h : Effect.defineType name parent members m = .done m' result) : m.Develops m' := by
  have hmade := (Develops.intern m name).trans
    (.of_types (.make (m.intern name).2.types .object parent (m.intern name).1))
  rw [Effect.defineType_eq] at h
  change m.Develops { (m.intern name).2 with
    types := (m.types.make .object parent (m.intern name).1).2 } at hmade
  generalize m.types.make .object parent (m.intern name).1 = made at h hmade
  obtain ⟨answer, types⟩ := made
  cases answer with
  | error why =>
    obtain ⟨rfl, -⟩ := Step.done.inj h
    exact hmade
  | ok type =>
    dsimp only at h
    cases hadd : Effect.addMembers type members { (m.intern name).2 with types } with
    | done m₁ added =>
      have hmembers := hmade.trans (develops_of_addMembers hadd)
      rw [hadd] at h
      cases added with
      | error why =>
        obtain ⟨rfl, -⟩ := Step.done.inj h
        exact hmembers
      | ok _ =>
        obtain ⟨rfl, -⟩ := Step.done.inj h
        exact hmembers.trans (.installGlobal _ _ _)
    | fault m₁ k => rw [hadd] at h; cases h
    | defect m₁ d => rw [hadd] at h; cases h
    | call m₁ q resume => rw [hadd] at h; cases h

/-- A definition that comes to an answer comes to it at once. -/
theorem defineType_of_run {n : Nat} {name : String} {parent : TypeId}
    {members : List (String × TypeId)} {result : Except Refusal TypeId}
    (h : m.run n (Effect.defineType name parent members) = .value m' result) :
    Effect.defineType name parent members m = .done m' result := by
  have hdone : ∀ m₁ result₁, Effect.defineType name parent members m = .done m₁ result₁ →
      Effect.defineType name parent members m = .done m' result := by
    intro m₁ result₁ heq
    rw [Machine.run, heq] at h
    obtain ⟨rfl, rfl⟩ := Outcome.value.inj h
    exact heq
  rcases Effect.defineType_cases name parent members m with
    ⟨why, heq, -⟩ | ⟨m₁, why, taken, heq, -⟩ | ⟨m₁, heq⟩ | ⟨m₁, d, heq⟩
  · exact hdone _ _ heq
  · exact hdone _ _ heq
  · exact hdone _ _ heq
  · rw [Machine.run, heq] at h
    cases h

/-- **One step** of a host. -/
theorem HostStep.develops (h : m.HostStep m') : m.Develops m' := by
  cases h with
  | intern text => exact .intern m text
  | evaluate n node => exact (run_passes (.eval node) m n).develops
  | defineType h => exact develops_of_defineType (defineType_of_run h)
  | insertMember type name memberType => exact .of_types (.insertMember _ _ _ _)
  | insertMethod type callable location => exact .of_types (.insertMethod _ _ _ _)
  | registerNative spec => exact .registerNative m spec
  | collectGarbage =>
    unfold Machine.collectGarbage
    cases hcollect : m.collectGarbage? with
    | none => exact .refl m
    | some result => exact .collectGarbage? hcollect

/-- **All that a host does over time.** -/
theorem Leads.develops (h : m.Leads m') : m.Develops m' := by
  induction h with
  | refl => exact .refl _
  | tail _ hstep ih => exact ih.trans hstep.develops

end Machine

end ScriptMachine
