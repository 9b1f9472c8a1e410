import Warrant.Cache.Loader
import Warrant.Engine.Site
import Warrant.Entity.Address
import Warrant.Rehearsal.Script

/-!
# Stand-ins for answers

Which given answers fit which calls. Where a list is due, names stand for its members; privileges
are counted only, so that any names stand for as many of them.
-/

namespace Warrant.Rehearsal

/-- A decision, left open by no answer. -/
def asDecision : StandIn → Option Bool
  | .flag b => some b
  | .names ws => some !ws.isEmpty
  | .nothing => none

/-- A list of names; no answer stands for no names. -/
def asNames : StandIn → Option (List String)
  | .names ws => some ws.eraseDups
  | .nothing | .flag false => some []
  | .flag true => none

/-- As many privileges as there are names. -/
def asPrivileges (p : Principal) (a : StandIn) : Option (List Privilege) := do
  let names ← asNames a
  let e ← (Entity.instance? Entity.defaultInstance).toOption
  return names.map fun _ => ⟨p, e, .all⟩

instance : Scriptable Cache.Loader.Call := ⟨fun _ a => some (asDecision a)⟩

/-- The answer to a call of the policy backend that an answer stands for. -/
def asPolicyAnswer : (c : Backend.Call) → StandIn → Option c.Answer
  | .authorize .., a => some (asDecision a)
  | .listPrivileges p, a => asPrivileges p a
  | .listRoles _, a => asNames a
  | .listAllRoles, a => asNames a
  | .createRole _, _ => some ()
  | .dropRole _, _ => some ()
  | .attach .., _ => some ()
  | .detach .., _ => some ()
  | .grant .., _ => some ()
  | .revoke .., _ => some ()
  | .revokeAllOn _, _ => some ()

instance : Scriptable Engine.Call :=
  ⟨fun c a => match c with
    | .policy c => asPolicyAnswer c a
    | .groupsOf _ => asNames a⟩

end Warrant.Rehearsal
