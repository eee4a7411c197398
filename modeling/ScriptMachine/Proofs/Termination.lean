/-
# Programs without loops end

A program without loops can still call itself, through functions, methods, operators, renderings and
native bodies that call back, and the functions it calls may be declared while it runs.  But each
call is one more on the stack of calls, which has a limit, and within a call the nodes that are
evaluated get smaller.  So there is a measure: the calls that there is room for, and then the size
of the node.

* `Node.isLoopFree`, `Machine.LoopFree`: no loop in a tree, nor in any body that a machine holds;
* `Machine.Moves.loopFree`: what a computation does itself brings no loop in;
* `Step.Confined.settles`: a computation ends if all it asks for does;
* `CallStack.serves`: every request ends, by the measure;
* `Machine.evaluate_ends`: the evaluation of a tree without loops ends.
-/
import ScriptMachine.Proofs.Conduct.Confinement
import ScriptMachine.Proofs.Runs
import ScriptMachine.Proofs.Safety
import ScriptMachine.Proofs.Typing

namespace ScriptMachine

/-! ## 1. Trees without loops -/

namespace Node

mutual

/-- No loop in a tree, the bodies of the functions that it declares included. -/
def isLoopFree : Node → Bool
  | mk k cs _ => isLoopFreeKind k && isLoopFreeAll cs

/-- No loop in a list of trees. -/
def isLoopFreeAll : List Node → Bool
  | [] => true
  | n :: ns => isLoopFree n && isLoopFreeAll ns

/-- No loop in a kind. -/
def isLoopFreeKind : NodeKind Name Node → Bool
  | .loop => false
  | .function r => isLoopFreeRoutine r
  | .method _ r => isLoopFreeRoutine r
  | .program | .block | .literal _ | .symbol _ | .vector | .declare _ _ | .assign _ | .binary _
  | .unary _ | .call | .methodCall _ | .member _ | .index | .branch | .importModule _ => true

/-- No loop in the body of a function. -/
def isLoopFreeRoutine : Routine Name Node → Bool
  | ⟨_, _, _, body⟩ => isLoopFree body

end

theorem isLoopFree_of_mem {nodes : List Node} (h : isLoopFreeAll nodes = true) {n : Node}
    (hn : n ∈ nodes) : n.isLoopFree = true := by
  induction nodes with
  | nil => cases hn
  | cons node rest ih =>
    rw [isLoopFreeAll, Bool.and_eq_true] at h
    rcases List.mem_cons.1 hn with rfl | hrest
    · exact h.1
    · exact ih h.2 hrest

variable {node : Node}

/-- The nodes below have no loops. -/
theorem isLoopFree_child (h : node.isLoopFree = true) {n : Node} (hn : n ∈ node.children) :
    n.isLoopFree = true := by
  obtain ⟨kind, cs, l⟩ := node
  rw [isLoopFree, Bool.and_eq_true] at h
  exact isLoopFree_of_mem h.2 hn

/-- Nor has the body of the function that is declared. -/
theorem isLoopFree_routine (h : node.isLoopFree = true) {routine : FunctionDef}
    (hroutine : node.routine? = some routine) : routine.body.isLoopFree = true := by
  obtain ⟨kind, cs, l⟩ := node
  rw [isLoopFree, Bool.and_eq_true] at h
  cases kind with
  | function r =>
    obtain rfl := Option.some.inj hroutine
    rw [isLoopFreeKind, isLoopFreeRoutine] at h
    exact h.1
  | method t r =>
    obtain rfl := Option.some.inj hroutine
    rw [isLoopFreeKind, isLoopFreeRoutine] at h
    exact h.1
  | _ => cases hroutine

theorem kind_ne_loop (h : node.isLoopFree = true) : node.kind ≠ .loop := by
  obtain ⟨kind, cs, l⟩ := node
  rintro rfl
  cases h

/-- The nodes below are smaller. -/
theorem sizeOf_child {n : Node} (hn : n ∈ node.children) : sizeOf n < sizeOf node := by
  obtain ⟨kind, cs, l⟩ := node
  have hlt := List.sizeOf_lt_of_mem hn
  simp only [mk.sizeOf_spec, children] at hlt ⊢
  omega

end Node

namespace Machine

/-! ## 2. Machines without loops -/

/-- The routine of a function that a callable is. -/
def routineOf : Callable → Option FunctionDef
  | .user f => some f.routine
  | .native _ => none

/-- The routines of the functions on the heap. -/
def heapRoutines (m : Machine) : List FunctionDef :=
  m.heap.slots.toList.filterMap fun
    | .live record => record.value.payload.callable?.bind routineOf
    | _ => none

/-- The routines of the functions in the method tables. -/
def methodRoutines (m : Machine) : List FunctionDef :=
  m.types.types.toList.flatMap fun info => info.methods.filterMap fun (_, entry) =>
    routineOf entry.callable

/-- No loop in any body that the machine holds, on the heap or in a method table. -/
def LoopFree (m : Machine) : Prop :=
  ∀ routine ∈ m.heapRoutines ++ m.methodRoutines, routine.body.isLoopFree = true

instance (m : Machine) : Decidable m.LoopFree :=
  inferInstanceAs (Decidable (∀ routine ∈ m.heapRoutines ++ m.methodRoutines, _))

/-- The bodies that a machine holds are those of its functions. -/
theorem loopFree_iff (m : Machine) :
    m.LoopFree ↔ ∀ f, m.Holds (.user f) → f.routine.body.isLoopFree = true := by
  constructor
  · rintro hfree f (⟨h, v, hv, hf⟩ | ⟨id, info, name, entry, hinfo, hentry, hf⟩)
    · obtain ⟨record, hrecord, rfl⟩ := Option.map_eq_some_iff.1 hv
      unfold Heap.record? at hrecord
      split at hrecord
      · next record' hslot =>
        split at hrecord
        · obtain rfl := Option.some.inj hrecord
          refine hfree _ (List.mem_append_left _ (List.mem_filterMap.2 ⟨.live record', ?_, ?_⟩))
          · exact Array.mem_toList_iff.2 (Array.mem_of_getElem? hslot)
          · simp only [hf, Option.bind_some, routineOf]
        · cases hrecord
      · cases hrecord
      · cases hrecord
    · refine hfree _ (List.mem_append_right _ (List.mem_flatMap.2 ⟨info, ?_, ?_⟩))
      · exact Array.mem_toList_iff.2 (Array.mem_of_getElem? hinfo)
      · exact List.mem_filterMap.2 ⟨(name, entry), hentry, by simp only [hf, routineOf]⟩
  · intro hfree routine hroutine
    have hof : ∀ c, m.Holds c → routineOf c = some routine → routine.body.isLoopFree = true := by
      intro c hc hroutine
      cases c with
      | native f => cases hroutine
      | user f =>
        obtain rfl := Option.some.inj hroutine
        exact hfree f hc
    rcases List.mem_append.1 hroutine with hheap | hmethod
    · obtain ⟨slot, hslot, hroutine⟩ := List.mem_filterMap.1 hheap
      cases slot with
      | free g next c => cases hroutine
      | live record =>
        obtain ⟨c, hc, hroutine⟩ := Option.bind_eq_some_iff.1 hroutine
        obtain ⟨i, hi⟩ := List.mem_iff_getElem?.1 hslot
        refine hof c (.inl ⟨⟨i, record.generation⟩, record.value, ?_, hc⟩) hroutine
        rw [Array.getElem?_toList] at hi
        simp [Heap.get?, Heap.record?, hi]
    · obtain ⟨info, hinfo, hmethod⟩ := List.mem_flatMap.1 hmethod
      obtain ⟨⟨name, entry⟩, hentry, hroutine⟩ := List.mem_filterMap.1 hmethod
      obtain ⟨i, hi⟩ := List.mem_iff_getElem?.1 hinfo
      rw [Array.getElem?_toList] at hi
      exact hof entry.callable (.inr ⟨⟨i⟩, info, name, entry, hi, hentry, rfl⟩) hroutine

/-! ## 3. Moves bring no loop in -/

variable {given : FunctionDef → Prop} {m m' : Machine}

/-- Another element does not make a value a callable, nor change the one that it is. -/
theorem holds_of_modifyPayload {r : Ref} {f : Payload → Payload} {c : Callable}
    (hf : ∀ p, (f p).callable? = p.callable?) (h : (m.modifyPayload r f).Holds c) : m.Holds c := by
  cases r with
  | nil => exact h
  | bool b => exact h
  | heap a =>
    rcases h with ⟨b, w, hw, hc⟩ | hmethod
    · rw [modifyPayload, Heap.modifyPayload, Heap.get?_modifyValue] at hw
      split at hw
      · obtain ⟨v, hv, rfl⟩ := Option.map_eq_some_iff.1 hw
        exact .inl ⟨b, v, hv, (hf _).symm.trans hc⟩
      · exact .inl ⟨b, w, hw, hc⟩
    · exact .inr hmethod

/-- A change of one type adds no callable but the new ones of its method table. -/
theorem holds_of_modifyType {id : TypeId} {f : TypeInfo → TypeInfo}
    {hname : ∀ info, (f info).name = info.name} {c : Callable}
    (hf : ∀ info name entry, (name, entry) ∈ (f info).methods → entry.callable = c →
      (name, entry) ∈ info.methods)
    (h : Machine.Holds { m with types := m.types.modify id f hname } c) : m.Holds c := by
  rcases h with hheap | ⟨id', info, name, entry, hinfo, hentry, hc⟩
  · exact .inl hheap
  · simp only [TypeTable.get?, TypeTable.modify, Array.getElem?_modify] at hinfo
    split at hinfo
    · obtain ⟨info', hinfo', rfl⟩ := Option.map_eq_some_iff.1 hinfo
      exact .inr ⟨id', info', name, entry, hinfo', hf info' name entry hentry hc, hc⟩
    · exact .inr ⟨id', info, name, entry, hinfo, hentry, hc⟩

theorem eq_function_of_callable? {p : Payload} {f : UserFunction}
    (h : p.callable? = some (.user f)) : p = .function f := by
  cases p with
  | function g =>
    obtain rfl := Callable.user.inj (Option.some.inj h)
    rfl
  | _ => cases h

/-- **One move** brings in no function but those of given routines. -/
theorem Move.holds (h : m.Move given m') {f : UserFunction} (hf : m'.Holds (.user f)) :
    m.Holds (.user f) ∨ given f.routine := by
  cases h with
  | @allocate v hv =>
    rcases hf with ⟨a, w, hw, hc⟩ | hmethod
    · rcases m.get?_tryAllocate v hw with rfl | hold
      · exact hv f (eq_function_of_callable? hc)
      · exact .inl (.inl ⟨a, w, hold, hc⟩)
    · obtain ⟨heap, hheap⟩ := m.exists_heap_tryAllocate v
      rw [hheap] at hmethod
      exact .inl (.inr hmethod)
  | collect hcollect =>
    rcases hf with ⟨a, w, hw, hc⟩ | hmethod
    · exact .inl (.inl ⟨a, w, get?_collectKeeping hcollect hw, hc⟩)
    · obtain ⟨swept, -, hm⟩ := Option.map_eq_some_iff.1 hcollect
      obtain ⟨-, rfl⟩ := Prod.mk.inj hm
      exact .inl (.inr hmethod)
  | store r position v =>
    refine .inl (holds_of_modifyPayload (fun p => ?_) hf)
    cases p with
    | _ => rfl
  | append r v =>
    refine .inl (holds_of_modifyPayload (fun p => ?_) hf)
    cases p with
    | _ => rfl
  | @addMethod type g location hg =>
    by_cases hgiven : given f.routine
    · exact .inr hgiven
    · rcases m.types.insertMethod_cases type (.user g) location with ⟨why, hinsert⟩ | ⟨-, hinsert⟩
      · rw [hinsert] at hf
        exact .inl hf
      · simp only [hinsert] at hf
        refine .inl (holds_of_modifyType (fun info name entry hentry hc => ?_) hf)
        rcases List.mem_cons.1 hentry with hnew | hold
        · -- the entry that is new is of a given routine
          obtain ⟨rfl, rfl⟩ := Prod.mk.inj hnew
          obtain rfl := Callable.user.inj hc
          exact (hgiven hg).elim
        · exact List.mem_of_mem_filter hold
  | close type =>
    rcases m.types.close_cases type with ⟨why, hclose⟩ | ⟨-, hclose⟩
    · rw [hclose] at hf
      exact .inl hf
    · simp only [hclose] at hf
      refine .inl (holds_of_modifyType ?_ hf)
      exact fun _ _ _ hentry _ => hentry
  | _ => exact .inl hf

/-- **Any number of moves** of a computation whose given routines have no loops. -/
theorem Moves.loopFree (h : m.Moves given m')
    (hgiven : ∀ routine, given routine → routine.body.isLoopFree = true) (hm : m.LoopFree) :
    m'.LoopFree := by
  induction h with
  | refl => exact hm
  | tail _ hmove ih =>
    rw [loopFree_iff] at ih ⊢
    intro f hf
    rcases hmove.holds hf with hold | hnew
    · exact ih f hold
    · exact hgiven _ hnew

/-! ## 4. Computations that end -/

/-- A machine with certain calls under way, and without loops. -/
structure Fit (calls : CallStack) (m : Machine) : Prop where
  calls_eq : m.calls = calls
  loopFree : m.LoopFree

theorem Fit.moves {calls : CallStack} (hm : m.Fit calls) (h : m.Moves given m')
    (hgiven : ∀ routine, given routine → routine.body.isLoopFree = true) : m'.Fit calls :=
  ⟨h.untouched.2.trans hm.calls_eq, h.loopFree hgiven hm.loopFree⟩

end Machine

/-- The outcomes of a run that ends on a fit machine, or with a defect. -/
def Outcome.Fits (calls : CallStack) : Outcome Ref → Prop
  | .value m _ | .fault m _ => m.Fit calls
  | .defect _ _ => True
  | .outOfSteps _ => False

/-- A computation that ends, with certain calls under way. -/
def Step.Settles (calls : CallStack) (s : Step Turn) : Prop :=
  ∃ outcome, (Run.mk s []).Ends outcome ∧ outcome.Fits calls

namespace Step

variable {α β γ : Type} {calls calls' : CallStack} {m : Machine}

theorem settles_value (hm : m.Fit calls) (r : Ref) : (Step.done m (.value r)).Settles calls :=
  ⟨.value m r, Run.ends_of_inl rfl, hm⟩

theorem settles_fault (hm : m.Fit calls) (k : FaultKind) :
    (Step.fault m k : Step Turn).Settles calls :=
  ⟨.fault m k, Run.ends_of_inl rfl, hm⟩

theorem settles_defect (m : Machine) (d : Defect) :
    (Step.defect m d : Step Turn).Settles calls :=
  ⟨.defect m d, Run.ends_of_inl rfl, trivial⟩

/-- A request that ends, and a computation that ends with every answer to it. -/
theorem settles_call {q : Request} {resume : Continuation} (hq : (q.perform m).Settles calls)
    (hresume : ∀ m' r, m'.Fit calls → (resume m' r).Settles calls') :
    (Step.call m q resume).Settles calls' := by
  obtain ⟨outcome, hends, hfits⟩ := hq
  have hnext : (Run.mk (.call m q resume) []).next = .inr ⟨q.perform m, [] ++ [resume]⟩ := rfl
  have hanswer : ∀ m' answer, m'.Fit calls →
      (Run.mk (q.perform m) []).Ends (.answered m' answer) →
      (Step.call m q resume).Settles calls' := by
    intro m' answer hm' hends
    obtain ⟨outcome', hends', hfits'⟩ := hresume m' answer hm'
    exact ⟨outcome', Run.ends_of_inr hnext (hends.answer resume hends'), hfits'⟩
  cases outcome with
  | value m' r => exact hanswer m' (.ok r) hfits hends
  | fault m' k => exact hanswer m' (.error k) hfits hends
  | defect m' d => exact ⟨_, Run.ends_of_inr hnext (hends.defect [resume]), trivial⟩
  | outOfSteps m' => exact hfits.elim

/-- **A confined computation ends if all it asks for does**, and what comes after it ends.  The
induction is on the computation: it has finitely many stops, whatever the answers. -/
theorem Confined.settles {given : FunctionDef → Prop} {asks : Node → Prop} {P : α → Prop}
    {s : Step α} (hs : s.Confined given asks m) (hcomes : s.Comes P) (hm : m.Fit calls)
    (hgiven : ∀ routine, given routine → routine.body.isLoopFree = true)
    (hrequests : ∀ (m' : Machine) (q : Request), m'.Fit calls → q.Permitted asks m' →
      (q.perform m').Settles calls)
    {f : Except FaultKind α → Machine → Step Turn}
    (herror : ∀ m' k, m'.Fit calls → (f (.error k) m').Settles calls')
    (hok : ∀ m' a, m'.Fit calls → P a → (f (.ok a) m').Settles calls') :
    (s.attempt.bind f).Settles calls' := by
  induction s generalizing m with
  | done m' a => exact hok m' a (hm.moves hs hgiven) hcomes
  | fault m' k => exact herror m' k (hm.moves hs hgiven)
  | defect m' d => exact settles_defect m' d
  | call m' q resume ih =>
    obtain ⟨hmoves, hpermitted, hresume⟩ := hs
    refine settles_call (hrequests m' q (hm.moves hmoves hgiven) hpermitted) fun m'' r hm'' => ?_
    exact ih m'' r (hresume m'' r) (hcomes m'' r) hm''

theorem comes_any (s : Step α) : s.Comes fun _ => True := by
  induction s with
  | done m a => trivial
  | fault m k => trivial
  | defect m d => trivial
  | call m q resume ih => exact fun m' r => ih m' r

theorem bind_assoc (s : Step α) (f : α → Machine → Step β) (g : β → Machine → Step γ) :
    (s.bind f).bind g = s.bind fun a m => (f a m).bind g := by
  induction s with
  | done m a => rfl
  | fault m k => rfl
  | defect m d => rfl
  | call m q resume ih =>
    simp only [Step.bind]
    congr 1
    funext m' r
    exact ih m' r

end Step

/-! ## 5. Requests end -/

open Effect

/-- Every request ends that is made with certain calls under way. -/
def CallStack.Serves (calls : CallStack) : Prop :=
  (∀ m callable args location, m.Fit calls → m.Holds callable →
    ((Request.call callable args location).perform m).Settles calls) ∧
  ∀ m node, m.Fit calls → node.isLoopFree = true →
    ((Request.eval node).perform m).Settles calls

namespace CallStack

variable {calls : CallStack}

/-- A call ends if, with one more call under way, every request does. -/
theorem settles_inCall {given : FunctionDef → Prop} {asks : Node → Prop} {m : Machine}
    (hm : m.Fit calls) (frame : CallFrame)
    (hserves : ∀ calls', calls.push frame = (.ok (), calls') → calls'.Serves) {x : Effect Ref}
    (hx : x.Confined given asks)
    (hgiven : ∀ routine, given routine → routine.body.isLoopFree = true)
    (hasks : ∀ node, asks node → node.isLoopFree = true) :
    ((inCall frame x >>= fun v => pure (Turn.value v)) m).Settles calls := by
  obtain ⟨rfl, hfree⟩ := hm
  rcases m.calls.push_cases frame with ⟨limit, -, -, hpush⟩ | ⟨calls', hpush, hframes, -⟩
  · have hbegin : beginCall frame m = .fault m (.recursionLimit limit) := by
      unfold beginCall
      rw [hpush]
    show (Step.bind (Step.bind (beginCall frame m) _) _).Settles _
    rw [hbegin]
    exact Step.settles_fault ⟨rfl, hfree⟩ _
  · have hbegin : beginCall frame m = .done { m with calls := calls' } () := by
      unfold beginCall
      rw [hpush]
    show (Step.bind (Step.bind (beginCall frame m) _) _).Settles _
    rw [hbegin]
    show (Step.bind (Step.bind (Step.attempt (x { m with calls := calls' })) _) _).Settles _
    refine Eq.mpr (congrArg (Step.Settles m.calls) (Step.bind_assoc _ _ _)) ?_
    -- the body runs with one more call under way, which ends whatever the outcome
    have hend : ∀ m' : Machine, m'.Fit calls' →
        endCall m' = .done { m' with calls := m.calls } () := by
      intro m' hm'
      unfold endCall
      rw [hm'.calls_eq, if_neg (by simp [isEmpty, hframes]), pop_of_push hpush]
    have hfit : Machine.Fit calls' { m with calls := calls' } := ⟨rfl, hfree⟩
    refine (hx { m with calls := calls' }).settles (Step.comes_any _) hfit hgiven ?_ ?_ ?_
    · intro m' q hm' hq
      cases q with
      | eval node => exact (hserves calls' hpush).2 m' node hm' (hasks node hq)
      | call callable args location =>
        exact (hserves calls' hpush).1 m' callable args location hm' hq
    · intro m' k hm'
      show (Step.bind (Step.bind (endCall m') _) _).Settles _
      rw [hend m' hm']
      exact Step.settles_fault (m := { m' with calls := m.calls }) ⟨rfl, hm'.loopFree⟩ k
    · intro m' v hm' _
      show (Step.bind (Step.bind (endCall m') _) _).Settles _
      rw [hend m' hm']
      exact Step.settles_value (m := { m' with calls := m.calls }) ⟨rfl, hm'.loopFree⟩ v

/-- A call of what the machine holds ends. -/
theorem settles_perform_call
    (hserves : ∀ frame calls', calls.push frame = (.ok (), calls') → calls'.Serves)
    (m : Machine) (callable : Callable) (args : List Ref) (location : Location) (hm : m.Fit calls)
    (hholds : m.Holds callable) :
    ((Request.call callable args location).perform m).Settles calls := by
  cases callable with
  | native f =>
    show ((enterNative f args location (f.procedure.run args) >>= _) m).Settles calls
    unfold enterNative
    split
    · have hbody : Confined (fun _ => False) (fun _ => False) (f.procedure.run args) := .run _ args
      exact settles_inCall hm _ (hserves _) hbody nofun nofun
    · exact Step.settles_fault hm _
  | user f =>
    show ((enterUser f args location >>= _) m).Settles calls
    unfold enterUser
    split
    · have hbody : Confined (fun _ => False) (· ∈ f.routine.body.children) _ := .userBody f args
      have hfree := (Machine.loopFree_iff m).1 hm.loopFree f hholds
      exact settles_inCall hm _ (hserves _) hbody nofun fun _ => Node.isLoopFree_child hfree
    · exact Step.settles_fault hm _

/-- A node without loops ends, if every call does.  The induction is on the size of the node. -/
theorem settles_perform_eval
    (hcalls : ∀ m callable args location, m.Fit calls → m.Holds callable →
      ((Request.call callable args location).perform m).Settles calls)
    (m : Machine) (node : Node) (hm : m.Fit calls) (hnode : node.isLoopFree = true) :
    ((Request.eval node).perform m).Settles calls := by
  obtain ⟨size, hsize⟩ : ∃ size, sizeOf node = size := ⟨_, rfl⟩
  induction size using Nat.strongRecOn generalizing m node with
  | ind size ih =>
    show (Step.bind (Step.attempt (evalNode node m)) _).Settles calls
    refine (Confined.evalNode node m).settles (Comes.evalNode node m) hm ?_ ?_ ?_ ?_
    · intro routine hroutine
      exact Node.isLoopFree_routine hnode hroutine
    · intro m' q hm' hq
      cases q with
      | eval child =>
        exact ih _ (hsize ▸ Node.sizeOf_child hq) m' child hm' (Node.isLoopFree_child hnode hq) rfl
      | call callable args location => exact hcalls m' callable args location hm' hq
    · intro m' k hm'
      have hreport : (m'.report k node.location).Fit calls := ⟨hm'.calls_eq, hm'.loopFree⟩
      exact Step.settles_value hreport .nil
    · intro m' turn hm' hturn
      cases turn with
      | value r => exact Step.settles_value hm' r
      | again node' => exact (Node.kind_ne_loop hnode hturn.2).elim

/-- **Every request ends**, by induction on the room that there is for calls. -/
theorem serves {limit : Nat} (hlimit : calls.limit = some limit) : calls.Serves := by
  obtain ⟨room, hroom⟩ : ∃ room, limit - calls.depth = room := ⟨_, rfl⟩
  induction room using Nat.strongRecOn generalizing calls with
  | ind room ih =>
    have hserves : ∀ frame calls', calls.push frame = (.ok (), calls') → calls'.Serves := by
      intro frame calls' hpush
      obtain ⟨hframes, hlimit'⟩ := of_push_ok hpush
      have hdepth : calls'.depth = calls.depth + 1 := by simp [depth, hframes]
      have hwithin := calls'.within limit (hlimit'.trans hlimit)
      rw [show calls'.frames.size = calls'.depth from rfl] at hwithin
      exact ih _ (by omega) (hlimit'.trans hlimit) rfl
    exact ⟨settles_perform_call hserves, settles_perform_eval (settles_perform_call hserves)⟩

end CallStack

/-! ## 6. Evaluation ends -/

namespace Machine

/-- **Programs without loops end.**  On a machine with a limit on calls, whose functions on the heap
and in method tables have no loops in their bodies, the evaluation of a tree without loops ends:
there is an outcome that every run with steps enough comes to.  It is a value, on a machine whose
functions have no loops either, or a defect; and on a machine that a host comes to, the only defect
is that all slots of the heap are in use. -/
theorem evaluate_ends {m : Machine} {limit : Nat} (hlimit : m.calls.limit = some limit)
    (hfree : m.LoopFree) {node : Node} (hnode : node.isLoopFree = true) :
    ∃ needed outcome, (∀ extra, m.evaluate (needed + extra) node = outcome) ∧
      match outcome with
      | .value m' _ => m'.LoopFree ∧ m'.calls = m.calls
      | .defect m' d => m.Reached → d = .heapExhausted .allocFailed ∧ Heap.maxSlots ≤ m'.heap.live
      | .fault _ _ | .outOfSteps _ => False := by
  obtain ⟨outcome, hends, hfits⟩ := (CallStack.serves hlimit).2 m node ⟨rfl, hfree⟩ hnode
  obtain ⟨needed, hneeded⟩ := evaluate_of_ends hends
  refine ⟨needed, _, hneeded, ?_⟩
  cases outcome with
  | value m' r => exact ⟨hfits.loopFree, hfits.calls_eq⟩
  | fault m' k => exact (m.evaluate_ne_fault needed node m' k (hneeded 0)).elim
  | defect m' d =>
    intro hreached
    have hsafe := hreached.sound.evaluate (needed + 0) node
    rw [hneeded 0] at hsafe
    exact hsafe
  | outOfSteps m' => exact hfits

/-- A function that calls itself, and a call of it. -/
def runaway : Node :=
  let f : Name := ⟨1000⟩
  let call : Node := ⟨.call, [⟨.symbol f, [], .builtin⟩], .builtin⟩
  let body : Node := ⟨.block, [call], .builtin⟩
  ⟨.program, [⟨.function ⟨f, [], false, body⟩, [], .builtin⟩, call], .builtin⟩

/-- A new machine with room for three calls. -/
def shallow : Machine := boot ⟨⟨0, false⟩, some 3, .terminal, false, .standard⟩ .initial

/-- The function on the machine: its evaluation ends. -/
theorem evaluate_ends_runaway :
    (shallow.calls.limit = some 3 ∧ shallow.LoopFree ∧ runaway.isLoopFree = true) ∧
      ∃ needed outcome, ∀ extra, shallow.evaluate (needed + extra) runaway = outcome := by
  have hshallow : shallow.calls.limit = some 3 ∧ shallow.LoopFree ∧ runaway.isLoopFree = true := by
    decide +kernel
  obtain ⟨needed, outcome, hends, -⟩ := evaluate_ends hshallow.1 hshallow.2.1 hshallow.2.2
  exact ⟨hshallow, needed, outcome, hends⟩

end Machine

end ScriptMachine
