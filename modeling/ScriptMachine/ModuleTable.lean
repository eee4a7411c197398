/-
# Modules

Named groups of members, set up by the host.  A program imports a module to reach its members; the
members stay alive as long as the machine.
-/
import ScriptMachine.Value

namespace ScriptMachine

/-- The members of a module. -/
structure ModuleInfo where
  members : List (Name × Ref)
deriving Inhabited

namespace ModuleInfo

/-- The value of a member. -/
def get? (m : ModuleInfo) (name : Name) : Option Ref :=
  (m.members.find? fun (n, _) => n = name).map Prod.snd

/-- How many members there are. -/
def size (m : ModuleInfo) : Nat := m.members.length

/-- Holds of a module without members. -/
def isEmpty (m : ModuleInfo) : Bool := m.members.isEmpty

end ModuleInfo

/-- All modules by name. -/
structure ModuleTable where
  modules : List (Name × ModuleInfo)
deriving Inhabited

namespace ModuleTable

/-- No module is known. -/
def initial : ModuleTable := ⟨[]⟩

/-- The module of a name. -/
def get? (t : ModuleTable) (name : Name) : Option ModuleInfo :=
  (t.modules.find? fun (n, _) => n = name).map Prod.snd

/-- Whether there is a module of this name. -/
def contains (t : ModuleTable) (name : Name) : Bool := (t.get? name).isSome

/-- Add a module without members. -/
def register (t : ModuleTable) (name : Name) : Except Refusal ModuleTable :=
  if name.isEmpty then .error .invalidArgument
  else if t.contains name then .error .keyAlreadyInTable
  else .ok ⟨(name, ⟨[]⟩) :: t.modules⟩

/-- Add a member to a module. -/
def insertMember (t : ModuleTable) (name member : Name) (value : Ref) :
    Except Refusal ModuleTable :=
  match t.get? name with
  | none => .error .keyNotInTable
  | some m =>
    if (m.get? member).isSome then .error .keyAlreadyInTable
    else
      .ok ⟨t.modules.map fun (n, m) =>
        if n = name then (n, ⟨(member, value) :: m.members⟩) else (n, m)⟩

/-- The handles held by any module. -/
def refs (t : ModuleTable) : List Handle :=
  t.modules.flatMap fun (_, m) => m.members.filterMap fun (_, v) => v.handle?

end ModuleTable

end ScriptMachine
