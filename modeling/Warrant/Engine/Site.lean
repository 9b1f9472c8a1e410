import Warrant.Engine.Operation
import Warrant.World

/-!
# Sites

A site is where an engine runs: a policy backend with its roles, and the service that knows the
groups of users, if there is one.
-/

namespace Warrant.Engine

/-- The remote services of an engine. -/
structure Site where
  backend : Backend.Setup
  /-- The backend refuses everything but authorizations. -/
  readOnly : Bool
  identity : Option Identity
  store : RoleStore

namespace Site

/-- Carries a call out on the roles, past a guard. -/
def direct (s : Site) (c : Backend.Call) : Audit.Logging Site c.Answer :=
  (Backend.serve s.backend c).onPart Site.store fun store s => { s with store }

/-- Carries a call of the policy backend out, through the guard if there is one. -/
def policy (s : Site) (c : Backend.Call) : Audit.Logging Site c.Answer :=
  if s.readOnly then
    (Backend.serveReadOnly s.backend c).onPart Site.store fun store s => { s with store }
  else s.direct c

def serve (s : Site) : (c : Call) → Audit.Logging Site c.Answer
  | .policy c => s.policy c
  | .groupsOf user => return (s.identity.map fun i => i.groupsOf user).getD []

instance : Server Call Site := ⟨fun c s => (s, s.serve c)⟩

/-- The shadow roles at the site, sorted, with the entities that own them. -/
def shadowRoles (r : Resolver) (s : Site) : List (String × Option Entity) :=
  ((Text.sortedDistinct s.store.names).filter ShadowRole.isReserved).map fun role =>
    (role, ShadowRole.owner? r role)

end Site

end Warrant.Engine
