/-
# Built-in methods

The types of a new machine come with tables of native methods.  Anyone can put other methods in their
place, but where no one has, a look-up finds what the tables list: from a type the nearest ancestor
whose table has the name.

* `NativeSpec.builtin?`: what the tables list for a type and a text;
* `Machine.Standard`: a type still has of its own what the tables list for it;
* `Machine.standard_boot`: on a new machine that is so of every type and text;
* `Machine.Arises`: a machine at any moment of what a host does, from a new machine on;
* `Machine.Regular`: what holds of each of them (`Machine.Arises.regular`);
* `Machine.Regular.lookupMethod`: the method that is found.
-/
import ScriptMachine.Proofs.Conduct.Tables
import ScriptMachine.Proofs.Copies.Isomorphism
import ScriptMachine.Proofs.Dispatch

namespace ScriptMachine

/-! ## 1. The tables -/

deriving instance DecidableEq for NativeSpec

namespace NativeSpec

/-- All native methods, each with the type it is installed on. -/
def installed : List (TypeId × NativeSpec) :=
  methodTables.flatMap fun x => x.2.map fun spec => (x.1, spec)

/-- The place of a native method in the tables. -/
def place (x : TypeId × NativeSpec) : TypeId × String := (x.1, x.2.name)

/-- The native method that the tables list for a type and a text. -/
def builtin? (type : TypeId) (text : String) : Option NativeSpec :=
  (installed.find? fun x => place x = (type, text)).map Prod.snd

/-- The entry that a native method has in the table of a type. -/
def entry (spec : NativeSpec) (name : Name) : MethodEntry :=
  ⟨.native (spec.function name), .builtin⟩

/-- No place is listed twice. -/
theorem nodup_installed : (installed.map place).Nodup := by decide +kernel

/-- Native methods are installed on built-in types. -/
theorem index_le_of_installed :
    ∀ x ∈ installed, x.1.index ≤ TypeTable.builtins.length := by decide +kernel

/-- Native methods have names. -/
theorem name_ne_of_installed : ∀ x ∈ installed, x.2.name ≠ "" := by decide +kernel

theorem builtin?_eq_some {type : TypeId} {text : String} {spec : NativeSpec}
    (h : builtin? type text = some spec) : (type, spec) ∈ installed ∧ spec.name = text := by
  obtain ⟨x, hx, rfl⟩ := Option.map_eq_some_iff.1 h
  obtain ⟨rfl, hname⟩ : x.1 = type ∧ x.2.name = text := by
    simpa [place] using List.find?_some hx
  exact ⟨List.mem_of_find?_eq_some hx, hname⟩

theorem builtin?_eq_none {type : TypeId} {text : String}
    (h : ∀ x ∈ installed, x.2.name = text → x.1 ≠ type) : builtin? type text = none := by
  refine Option.eq_none_iff_forall_ne_some.2 fun spec hspec => ?_
  obtain ⟨hinstalled, hname⟩ := builtin?_eq_some hspec
  exact h _ hinstalled hname rfl

theorem isSome_builtin? {type : TypeId} {spec : NativeSpec} (h : (type, spec) ∈ installed) :
    (builtin? type spec.name).isSome = true := by
  rw [builtin?, Option.isSome_map, List.find?_isSome]
  exact ⟨_, h, by simp [place]⟩

end NativeSpec

/-! ## 2. Installation -/

namespace Machine

variable {m m' : Machine}

/-- The types of a machine have the native methods of a list, and no others. -/
structure Offers (m : Machine) (specs : List (TypeId × NativeSpec)) : Prop where
  listed : ∀ x ∈ specs, ∃ name, m.names.get? x.2.name = some name ∧
    m.types.ownMethodOf name x.1 = some (x.2.entry name)
  only : ∀ type name, (m.types.ownMethodOf name type).isSome = true →
    ∃ spec, (type, spec) ∈ specs ∧ m.names.get? spec.name = some name

/-- **A native method is accepted** on a type that is there. -/
theorem insertMethod_installMethod {type : TypeId} (htype : (m.types.get? type).isSome = true)
    {spec : NativeSpec} (hname : spec.name ≠ "") :
    m.types.insertMethod type (.native (spec.function (m.intern spec.name).1)) .builtin =
      (.ok (), (Machine.installMethod type m spec).types) := by
  let method : Callable := .native (spec.function (m.intern spec.name).1)
  have hnamed : method.name.isEmpty = false :=
    NameTable.isEmpty_eq_false (m.names.getElem?_intern spec.name) hname
  have hinsert : (m.types.insertMethod type method .builtin).1 = .ok () := by
    rw [TypeTable.insertMethod_eq hnamed htype]
  exact Prod.ext hinsert rfl

/-- One more method. -/
theorem Offers.installMethod {specs : List (TypeId × NativeSpec)} (hm : m.Offers specs)
    {type : TypeId} {spec : NativeSpec} (htype : (m.types.get? type).isSome = true)
    (hname : spec.name ≠ "")
    (hnew : NativeSpec.place (type, spec) ∉ specs.map NativeSpec.place) :
    (Machine.installMethod type m spec).Offers (specs ++ [(type, spec)]) := by
  have hwithin := m.names.within_intern spec.name
  have hself := m.names.get?_intern_self spec.name
  have hown := TypeTable.ownMethodOf_insertMethod (insertMethod_installMethod htype hname)
  constructor
  · intro x hx
    rcases List.mem_append.1 hx with hold | hlast
    · obtain ⟨name, hname, hentry⟩ := hm.listed x hold
      refine ⟨name, hwithin _ _ hname, (hown name x.1).trans ?_⟩
      rw [if_neg, hentry]
      -- the new entry would replace one of the same type and text, and there is none
      rintro ⟨htype', rfl⟩
      have htext := NameTable.text_eq_of_get? (hwithin _ _ hname) hself
      exact hnew (List.mem_map.2 ⟨x, hold, by rw [NativeSpec.place, htype', htext, NativeSpec.place]⟩)
    · obtain rfl := List.mem_singleton.1 hlast
      exact ⟨_, hself, (hown _ type).trans (if_pos ⟨rfl, rfl⟩)⟩
  · intro type' name hsome
    rw [show (Machine.installMethod type m spec).types.ownMethodOf name type' = _ from
      hown name type'] at hsome
    split at hsome
    · next hboth =>
      obtain ⟨rfl, rfl⟩ := hboth
      exact ⟨spec, by simp, hself⟩
    · obtain ⟨spec', hmem, hname⟩ := hm.only type' name hsome
      exact ⟨spec', by simp [hmem], hwithin _ _ hname⟩

/-- Methods one after the other. -/
theorem Offers.foldl {specs : List (TypeId × NativeSpec)} (hm : m.Offers specs)
    (rest : List (TypeId × NativeSpec)) (htypes : ∀ x ∈ rest, (m.types.get? x.1).isSome = true)
    (hnames : ∀ x ∈ rest, x.2.name ≠ "")
    (hnodup : ((specs ++ rest).map NativeSpec.place).Nodup) :
    (rest.foldl (fun m x => Machine.installMethod x.1 m x.2) m).Offers (specs ++ rest) := by
  induction rest generalizing m specs with
  | nil => simpa using hm
  | cons x rest ih =>
    rw [List.append_cons] at hnodup ⊢
    have hhere := htypes x List.mem_cons_self
    have hnew : NativeSpec.place x ∉ specs.map NativeSpec.place := by
      rw [List.map_append, List.map_append, List.append_assoc, List.map_singleton] at hnodup
      exact fun hmem => (List.nodup_append.1 hnodup).2.2 _ hmem _ List.mem_cons_self rfl
    refine ih (hm.installMethod hhere (hnames x List.mem_cons_self) hnew) (fun y hy => ?_)
      (fun y hy => hnames y (List.mem_cons_of_mem x hy)) hnodup
    have hsize := installMethod_types_size x.1 m x.2
    have hthere := TypeTable.isSome_get?_iff.1 (htypes y (List.mem_cons_of_mem x hy))
    exact TypeTable.isSome_get?_iff.2 (hsize ▸ hthere)

/-- The types to begin with have no methods. -/
theorem ownMethodOf_bare (settings : Settings) (names : NameTable) (name : Name) (type : TypeId) :
    (bare settings names).types.ownMethodOf name type = none := by
  rw [TypeTable.ownMethodOf]
  cases hget : (bare settings names).types.get? type with
  | none => rfl
  | some info =>
    obtain ⟨kind, parent, name', rfl⟩ :=
      TypeTable.fresh_of_mem_initial names (Array.mem_of_getElem? hget)
    rfl

theorem withMethods_eq (settings : Settings) (names : NameTable) :
    withMethods settings names =
      NativeSpec.installed.foldl (fun m x => installMethod x.1 m x.2) (bare settings names) := by
  rw [NativeSpec.installed, List.foldl_flatMap, withMethods]
  simp only [List.foldl_map]

theorem offers_withMethods (settings : Settings) (names : NameTable) :
    (withMethods settings names).Offers NativeSpec.installed := by
  have hbare : (bare settings names).Offers [] := by
    refine ⟨nofun, fun type name hsome => ?_⟩
    rw [ownMethodOf_bare] at hsome
    cases hsome
  have htypes : ∀ x ∈ NativeSpec.installed,
      ((bare settings names).types.get? x.1).isSome = true := fun x hx =>
    (wellTyped_bare settings names).builtins x.1.index (NativeSpec.index_le_of_installed x hx)
  rw [withMethods_eq]
  exact hbare.foldl _ htypes NativeSpec.name_ne_of_installed NativeSpec.nodup_installed

/-- The rest of the installation leaves the types as they are, and gives out more names. -/
structure Furnishes (m m' : Machine) : Prop where
  types_eq : m'.types = m.types
  methods_eq : m'.methods = m.methods
  digest_eq : m'.digest = m.digest
  names : m.names.Within m'.names

namespace Furnishes

variable {m'' : Machine}

theorem refl (m : Machine) : m.Furnishes m := ⟨rfl, rfl, rfl, .refl _⟩

theorem trans (h : m.Furnishes m') (h' : m'.Furnishes m'') : m.Furnishes m'' :=
  ⟨h'.types_eq.trans h.types_eq, h'.methods_eq.trans h.methods_eq,
    h'.digest_eq.trans h.digest_eq, h.names.trans h'.names⟩

theorem foldl {β : Type} {f : Machine → β → Machine} (items : List β) (h : m.Furnishes m')
    (hf : ∀ (m : Machine) (x : β), m.Furnishes (f m x)) : m.Furnishes (items.foldl f m') :=
  List.foldlRecOn (motive := m.Furnishes) items f h fun m₁ hm₁ x _ => hm₁.trans (hf m₁ x)

theorem intern (m : Machine) (text : String) : m.Furnishes (m.intern text).2 :=
  ⟨rfl, rfl, rfl, m.names.within_intern text⟩

theorem tryAllocate (m : Machine) (v : Value) : m.Furnishes (m.tryAllocate v).2 := by
  obtain ⟨heap, hheap⟩ := m.exists_heap_tryAllocate v
  rw [hheap]
  exact ⟨rfl, rfl, rfl, .refl _⟩

theorem installGlobal (m : Machine) (name : Name) (v : Value) :
    m.Furnishes (m.installGlobal name v).2 := by
  have hplaced := tryAllocate m v
  unfold Machine.installGlobal
  generalize m.tryAllocate v = result at hplaced
  obtain ⟨result, m'⟩ := result
  cases result with
  | error why => exact hplaced
  | ok r => exact hplaced.trans ⟨rfl, rfl, rfl, .refl _⟩

theorem adoptModules (m : Machine) (result : Except Refusal ModuleTable) :
    m.Furnishes (m.adoptModules result) := by
  cases result with
  | error why => exact refl m
  | ok modules => exact ⟨rfl, rfl, rfl, .refl _⟩

theorem installMember (owner : Name) (m : Machine) (member : String) (value : Name → Value) :
    m.Furnishes (installMember owner m member value) := by
  have hplaced := (intern m member).trans (tryAllocate _ (value (m.intern member).1))
  unfold Machine.installMember
  simp only
  generalize (m.intern member).2.tryAllocate (value (m.intern member).1) = result at hplaced ⊢
  obtain ⟨result, m'⟩ := result
  cases result with
  | error why => exact hplaced
  | ok r => exact hplaced.trans (adoptModules m' _)

theorem installMathematics (m : Machine) : m.Furnishes m.installMathematics := by
  refine (intern m "math").trans ?_
  refine .foldl _ ?_ fun m₁ spec => installMember _ m₁ spec.name _
  exact (adoptModules _ _).trans (installMember _ _ "pi" _)

theorem boot (settings : Settings) (names : NameTable) :
    (withMethods settings names).Furnishes (Machine.boot settings names) := by
  refine trans ?_ (installMathematics _)
  refine .foldl _ ?_ fun m₁ spec => (intern m₁ spec.name).trans (installGlobal _ _ _)
  exact .foldl _ (refl _) fun m₁ i => installGlobal m₁ _ _

end Furnishes

/-- A type has of its own, under a text, what the tables list for it. -/
def Standard (m : Machine) (type : TypeId) (text : String) : Prop :=
  ∀ name, m.names.get? text = some name →
    m.types.ownMethodOf name type = (NativeSpec.builtin? type text).map (NativeSpec.entry · name)

/-- Whether an entry is that of a native function. -/
def isNative (f : NativeFunction) (entry : MethodEntry) : Bool :=
  match entry.callable with
  | .native g => g = f ∧ entry.location = .builtin
  | .user _ => false

theorem isNative_iff {f : NativeFunction} {entry : MethodEntry} :
    isNative f entry = true ↔ entry = ⟨.native f, .builtin⟩ := by
  obtain ⟨callable, location⟩ := entry
  cases callable with
  | native g => simp [isNative]
  | user g => simp [isNative]

/-- Whether the entry of a type under a text is the one that the tables list. -/
def isStandard (m : Machine) (type : TypeId) (text : String) : Bool :=
  match m.names.get? text with
  | none => true
  | some name =>
    match m.types.ownMethodOf name type, NativeSpec.builtin? type text with
    | some entry, some spec => isNative (spec.function name) entry
    | none, none => true
    | _, _ => false

theorem isStandard_iff {type : TypeId} {text : String} :
    m.isStandard type text = true ↔ m.Standard type text := by
  unfold isStandard Standard
  cases m.names.get? text with
  | none => simp
  | some name =>
    simp only [Option.some.injEq, forall_eq']
    cases m.types.ownMethodOf name type with
    | none => cases NativeSpec.builtin? type text <;> simp
    | some entry =>
      cases NativeSpec.builtin? type text with
      | none => simp
      | some spec => simp [isNative_iff, NativeSpec.entry]

instance (type : TypeId) (text : String) : Decidable (m.Standard type text) :=
  decidable_of_iff _ isStandard_iff

/-- **A new machine is standard** throughout. -/
theorem standard_boot (settings : Settings) (names : NameTable) (type : TypeId) (text : String) :
    (boot settings names).Standard type text := by
  have hoffers := offers_withMethods settings names
  have hboot := Furnishes.boot settings names
  intro name hname
  rw [hboot.types_eq]
  cases hbuiltin : NativeSpec.builtin? type text with
  | some spec =>
    obtain ⟨hmem, rfl⟩ := NativeSpec.builtin?_eq_some hbuiltin
    obtain ⟨name', hname', hentry⟩ := hoffers.listed _ hmem
    obtain rfl : name' = name := Option.some.inj ((hboot.names _ _ hname').symm.trans hname)
    exact hentry
  | none =>
    refine Option.not_isSome_iff_eq_none.1 fun hsome => ?_
    obtain ⟨spec, hmem, hname'⟩ := hoffers.only type name hsome
    obtain rfl : spec.name = text := NameTable.text_eq_of_get? (hboot.names _ _ hname') hname
    have hthere := NativeSpec.isSome_builtin? hmem
    rw [hbuiltin] at hthere
    cases hthere

end Machine

/-! ## 3. The names of methods -/

/-- The names that a machine uses for methods are those of their texts. -/
structure MethodNames.Spelled (n : MethodNames) (names : NameTable) : Prop where
  binary : ∀ op text, op.method? = some text →
    ∃ name, n.binary? op = some name ∧ names.get? text = some name
  unary : ∀ op : UnaryOp, names.get? op.method = some (n.unary op)
  hash : names.get? "hash" = some n.hash
  new : names.get? "new" = some n.new

namespace MethodNames

theorem Spelled.within {n : MethodNames} {names names' : NameTable} (h : n.Spelled names)
    (hwithin : names.Within names') : n.Spelled names' where
  binary op text htext := by
    obtain ⟨name, hbinary, hname⟩ := h.binary op text htext
    exact ⟨name, hbinary, hwithin _ _ hname⟩
  unary op := hwithin _ _ (h.unary op)
  hash := hwithin _ _ h.hash
  new := hwithin _ _ h.new

/-- The texts of the names, in the order of the fields. -/
def texts : List String :=
  ["add", "sub", "mul", "div", "mod", "pow", "eq", "ne", "lt", "le", "gt", "ge", "neg", "not", "index",
    "str", "hash", "dbg", "len", "new", "self"]

/-- The names in the order of the fields. -/
def toList (n : MethodNames) : List Name :=
  [n.add, n.sub, n.mul, n.div, n.mod, n.pow, n.eq, n.ne, n.lt, n.le, n.gt, n.ge, n.neg, n.not, n.index,
    n.str, n.hash, n.dbg, n.len, n.new, n.self]

theorem spelled_of_texts {n : MethodNames} {names : NameTable}
    (h : List.Forall₂ (fun text name => names.get? text = some name) texts n.toList) :
    n.Spelled names := by
  simp only [texts, toList, List.forall₂_cons] at h
  obtain ⟨hadd, hsub, hmul, hdiv, hmod, hpow, heq, hne, hlt, hle, hgt, hge, hneg, hnot, -, -, hhash,
    -, -, hnew, -⟩ := h
  refine ⟨fun op text htext => ?_, fun op => ?_, hhash, hnew⟩
  · cases op with
    | add => exact ⟨_, rfl, Option.some.inj htext ▸ hadd⟩
    | sub => exact ⟨_, rfl, Option.some.inj htext ▸ hsub⟩
    | mul => exact ⟨_, rfl, Option.some.inj htext ▸ hmul⟩
    | div => exact ⟨_, rfl, Option.some.inj htext ▸ hdiv⟩
    | mod => exact ⟨_, rfl, Option.some.inj htext ▸ hmod⟩
    | pow => exact ⟨_, rfl, Option.some.inj htext ▸ hpow⟩
    | eq => exact ⟨_, rfl, Option.some.inj htext ▸ heq⟩
    | ne => exact ⟨_, rfl, Option.some.inj htext ▸ hne⟩
    | lt => exact ⟨_, rfl, Option.some.inj htext ▸ hlt⟩
    | le => exact ⟨_, rfl, Option.some.inj htext ▸ hle⟩
    | gt => exact ⟨_, rfl, Option.some.inj htext ▸ hgt⟩
    | ge => exact ⟨_, rfl, Option.some.inj htext ▸ hge⟩
    | and => cases htext
    | or => cases htext
  · cases op with
    | neg => exact hneg
    | not => exact hnot

theorem spelled_intern (names : NameTable) :
    (MethodNames.intern names).1.Spelled (MethodNames.intern names).2 :=
  spelled_of_texts (names.forall₂_internAll texts).2

end MethodNames

/-! ## 4. The machines that come about -/

namespace TypeTable

variable {t t' : TypeTable}

/-- Types keep their parents and names, and others come after them. -/
theorem Becomes.shape (h : t.Becomes t') : ∃ added, t'.shape = t.shape ++ added := by
  obtain ⟨changes, rfl⟩ := h
  induction changes generalizing t with
  | nil => exact ⟨[], (List.append_nil _).symm⟩
  | cons c rest ih =>
    obtain ⟨added, hadded⟩ := ih (t := (t.change c).2)
    rcases t.change_cases c with hsame | ⟨parent, name, -, -, -, happend⟩
    · exact ⟨added, hadded.trans (by rw [hsame])⟩
    · exact ⟨(parent, name) :: added, hadded.trans (by rw [happend, List.append_assoc]; rfl)⟩

/-- The built-in types are right below the root. -/
def Rooted (t : TypeTable) : Prop :=
  ∀ i ≤ builtins.length, ∃ name, t.shape[i]? = some (.baseObject, name)

theorem Rooted.of_shape (h : t.Rooted) (hshape : t'.shape = t.shape) : t'.Rooted := by
  rw [Rooted, hshape]
  exact h

theorem Tree.of_shape (h : t.Tree) (hshape : t'.shape = t.shape) : t'.Tree := by
  obtain ⟨hroot, hbelow, hnamed⟩ := h
  rw [← hshape] at hroot hbelow hnamed
  exact ⟨hroot, hbelow, hnamed⟩

theorem Rooted.becomes (h : t.Rooted) (hbecomes : t.Becomes t') : t'.Rooted := by
  obtain ⟨added, hadded⟩ := hbecomes.shape
  intro i hi
  obtain ⟨name, hname⟩ := h i hi
  obtain ⟨hlt, -⟩ := List.getElem?_eq_some_iff.1 hname
  exact ⟨name, by rw [hadded, List.getElem?_append_left hlt, hname]⟩

theorem Labelled.rooted {names : NameTable} (h : t.Labelled names initialTexts) : t.Rooted := by
  intro i hi
  have hlength := congrArg List.length h.labels
  rw [List.length_map, List.length_map] at hlength
  have hlt : i < t.shape.length := hlength ▸ Nat.lt_succ_of_le hi
  refine ⟨t.shape[i].2, ?_⟩
  rw [List.getElem?_eq_getElem hlt, ← h.parents _ (List.getElem_mem hlt)]

/-- The chain of a built-in type. -/
theorem Tree.chain_builtin (h : t.Tree) (hrooted : t.Rooted) {id : TypeId}
    (hle : id.index ≤ builtins.length) (hne : id ≠ .baseObject) :
    t.chain id = [id, .baseObject] := by
  obtain ⟨name, hname⟩ := hrooted id.index hle
  rw [getElem?_shape] at hname
  obtain ⟨info, hinfo, hparts⟩ := Option.map_eq_some_iff.1 hname
  obtain ⟨hparent, -⟩ := Prod.mk.inj hparts
  rw [h.chain_of hinfo hne, hparent, h.chain_root]

end TypeTable

namespace Machine

variable {m m' : Machine}

/-- A machine at some moment of what a host does with a new machine, whatever names it brought in
before. -/
def Arises (m : Machine) : Prop :=
  ∃ settings texts m₀,
    (boot settings (NameTable.initial.internAll texts).2).Leads m₀ ∧ m₀.Passes m

/-- What holds of each machine that comes about. -/
structure Regular (m : Machine) : Prop where
  wellFormed : m.heap.WellFormed
  wellTyped : m.WellTyped
  tree : m.types.Tree
  rooted : m.types.Rooted
  spelled : m.methods.Spelled m.names

/-- Methods change neither the tree of types nor the names that were given out. -/
theorem kept_installMethods (specs : List (TypeId × NativeSpec)) (m : Machine) :
    (specs.foldl (fun m x => installMethod x.1 m x.2) m).types.shape = m.types.shape ∧
      m.names.Within (specs.foldl (fun m x => installMethod x.1 m x.2) m).names ∧
      (specs.foldl (fun m x => installMethod x.1 m x.2) m).methods = m.methods ∧
      (specs.foldl (fun m x => installMethod x.1 m x.2) m).digest = m.digest := by
  induction specs generalizing m with
  | nil => exact ⟨rfl, .refl _, rfl, rfl⟩
  | cons x rest ih =>
    obtain ⟨hshape, hnames, hmethods, hdigest⟩ := ih (installMethod x.1 m x.2)
    have hone : (installMethod x.1 m x.2).types.shape = m.types.shape :=
      m.types.shape_insertMethod x.1 _ _
    exact ⟨hshape.trans hone, (m.names.within_intern x.2.name).trans hnames, hmethods, hdigest⟩

/-- A new machine has the digest that its host chose. -/
theorem digest_boot (settings : Settings) (names : NameTable) :
    (boot settings names).digest = settings.digest := by
  have hkept := (kept_installMethods NativeSpec.installed (bare settings names)).2.2.2
  rw [← withMethods_eq] at hkept
  exact (Furnishes.boot settings names).digest_eq.trans hkept

/-- **A new machine is regular.** -/
theorem regular_boot (settings : Settings) (names : NameTable) :
    (boot settings names).Regular := by
  have hboot := Furnishes.boot settings names
  obtain ⟨hkept, hnames, hmethods, -⟩ :=
    kept_installMethods NativeSpec.installed (bare settings names)
  rw [← withMethods_eq] at hkept hnames hmethods
  have hshape : (boot settings names).types.shape = (TypeTable.initial names).1.shape :=
    (congrArg TypeTable.shape hboot.types_eq).trans hkept
  have hspelled := (MethodNames.spelled_intern (TypeTable.initial names).2).within
    (hnames.trans hboot.names)
  exact {
    wellFormed := (Reached.boot settings names).sound.wellFormed
    wellTyped := (prepares_boot settings names).wellTyped (wellTyped_bare settings names)
    tree := (TypeTable.tree_initial names).of_shape hshape
    rooted := (TypeTable.labelled_initial names).rooted.of_shape hshape
    spelled := (hboot.methods_eq.trans hmethods).symm ▸ hspelled }

theorem Develops.regular (h : m.Develops m') (hm : m.Regular) (hm' : m'.WellTyped) : m'.Regular where
  wellFormed := h.wellFormed hm.wellFormed
  wellTyped := hm'
  tree := h.types.tree hm.tree
  rooted := hm.rooted.becomes h.types
  spelled := h.methods_eq ▸ hm.spelled.within h.names

/-- **Every machine that comes about is regular.** -/
theorem Arises.regular (h : m.Arises) : m.Regular := by
  obtain ⟨settings, texts, m₀, hleads, hpasses⟩ := h
  have hboot := regular_boot settings (NameTable.initial.internAll texts).2
  exact (hleads.develops.trans hpasses.develops).regular hboot
    (hpasses.wellTyped (hleads.wellTyped hboot.wellTyped))

/-- Only the types that are there have methods, and the tables list none for others. -/
theorem Regular.standard (hm : m.Regular) {text : String}
    (h : ∀ i < m.types.size, m.Standard ⟨i⟩ text) (type : TypeId) : m.Standard type text := by
  by_cases hlt : type.index < m.types.size
  · exact h type.index hlt
  · intro name _
    have hnone : m.types.get? type = none := by
      rwa [← TypeTable.isSome_get?_iff, Option.not_isSome_iff_eq_none] at hlt
    have hbuiltin : NativeSpec.builtin? type text = none := by
      refine NativeSpec.builtin?_eq_none ?_
      rintro x hinstalled - rfl
      exact hlt (TypeTable.isSome_get?_iff.1
        (hm.wellTyped.builtins x.1.index (NativeSpec.index_le_of_installed x hinstalled)))
    rw [TypeTable.ownMethodOf, hnone, hbuiltin]
    rfl

/-! ## 5. The methods that are found -/

/-- On a descending walk with standard types the nearest listed method is found. -/
theorem finds_standard {name : Name} {text : String} (hname : m.names.get? text = some name)
    (hstandard : ∀ type, m.Standard type text) {stops : List TypeId}
    {outcome : Except Refusal Resolved} (h : m.types.Finds name stops outcome)
    (hdesc : stops.Pairwise fun a b => b.index < a.index)
    (hlisted : ∃ x ∈ stops, (NativeSpec.builtin? x text).isSome = true) :
    ∃ owner spec, outcome = .ok ⟨owner, spec.entry name⟩ ∧
      NativeSpec.builtin? owner text = some spec ∧ owner ∈ stops ∧
      ∀ x ∈ stops, (NativeSpec.builtin? x text).isSome = true → x.index ≤ owner.index := by
  -- along the walk; the numbers of types go down on it, so the first hit has the largest
  induction h with
  | nowhere =>
    obtain ⟨x, hx, -⟩ := hlisted
    cases hx
  | @here id later entry hentry =>
    rw [hstandard id name hname] at hentry
    obtain ⟨spec, hspec, rfl⟩ := Option.map_eq_some_iff.1 hentry
    refine ⟨id, spec, rfl, hspec, List.mem_cons_self, fun x hx _ => ?_⟩
    rcases List.mem_cons.1 hx with rfl | hlater
    · exact Nat.le_refl _
    · exact Nat.le_of_lt ((List.pairwise_cons.1 hdesc).1 x hlater)
  | @further id later outcome hnone _ ih =>
    rw [hstandard id name hname, Option.map_eq_none_iff] at hnone
    obtain ⟨x, hx, hsome⟩ := hlisted
    have hlater : ∀ y ∈ id :: later, (NativeSpec.builtin? y text).isSome = true → y ∈ later := by
      intro y hy hy'
      rcases List.mem_cons.1 hy with rfl | hy
      · rw [hnone] at hy'
        cases hy'
      · exact hy
    obtain ⟨owner, spec, houtcome, hspec, howner, hnearest⟩ :=
      ih (List.pairwise_cons.1 hdesc).2 ⟨x, hlater x hx hsome, hsome⟩
    exact ⟨owner, spec, houtcome, hspec, List.mem_cons_of_mem id howner,
      fun y hy hy' => hnearest y (hlater y hy hy') hy'⟩

/-- **The method that is found** from a type, where every object has one of the text and nothing was
replaced: the one that the tables list for the nearest ancestor. -/
theorem Regular.lookupMethod (hm : m.Regular) {name : Name} {text : String}
    (hname : m.names.get? text = some name) (hstandard : ∀ type, m.Standard type text)
    (hobject : (NativeSpec.builtin? .baseObject text).isSome = true) {id : TypeId}
    (hid : (m.types.get? id).isSome = true) :
    ∃ owner spec, m.types.lookupMethod id name = .ok ⟨owner, spec.entry name⟩ ∧
      NativeSpec.builtin? owner text = some spec ∧ owner ∈ m.types.chain id ∧
      ∀ x ∈ m.types.chain id, (NativeSpec.builtin? x text).isSome = true →
        x.index ≤ owner.index := by
  obtain ⟨-, hlast, hdesc, -⟩ := hm.tree.chain_descends hid
  exact finds_standard hname hstandard (m.types.finds_lookupMethod id name) hdesc
    ⟨.baseObject, List.mem_of_getLast? hlast, hobject⟩

/-- A method that a type has of its own is found there. -/
theorem Regular.lookupMethod_own (hm : m.Regular) {name : Name} {text : String}
    (hname : m.names.get? text = some name) {id : TypeId} (hstandard : m.Standard id text)
    {spec : NativeSpec} (hspec : NativeSpec.builtin? id text = some spec)
    (hid : (m.types.get? id).isSome = true) :
    m.types.lookupMethod id name = .ok ⟨id, spec.entry name⟩ := by
  obtain ⟨hhead, -⟩ := hm.tree.chain_descends hid
  obtain ⟨rest, hchain⟩ := List.head?_eq_some_iff.1 hhead
  refine TypeTable.lookupMethod_eq hchain (.here ?_)
  rw [hstandard name hname, hspec]
  rfl

end Machine

end ScriptMachine
