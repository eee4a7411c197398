/-
# Finding methods

The only dynamic dispatch there is: a name is looked up in the method table of a type, then in its
parent's, and so on up to the root.  Each type has one parent, so the first entry found is the only
candidate.
-/
import ScriptMachine.Types.Basic

namespace ScriptMachine

/-- A method that was found, and the type whose table held it. -/
structure Resolved where
  owner : TypeId
  entry : MethodEntry

namespace TypeTable

/-- The method of a type, its own or inherited. -/
def lookupMethod (t : TypeTable) (id : TypeId) (name : Name) : Except Refusal Resolved :=
  match (t.chain id).findSome? fun owner =>
      ((t.get? owner).bind fun info => info.ownMethod name).map (Resolved.mk owner) with
  | some resolved => .ok resolved
  | none => .error .methodNotFound

end TypeTable

end ScriptMachine
