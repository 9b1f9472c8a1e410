import Warrant.Engine.Enforce
import Warrant.Engine.Grant
import Warrant.Engine.Revoke
import Warrant.Engine.Roles

/-!
# Operations of the engine

The operations that callers run on the engine, as data, so that sequences of them can be spoken of.
-/

namespace Warrant.Engine

/-- An operation that answers nothing when it succeeds. -/
inductive Operation
  | enforce (e : Entity) (p : Principal) (actions : List Action)
  | grant (e : Entity) (p : Principal) (actions : List Action)
  | revoke (e : Entity) (p : Principal) (actions : List Action)
  | revokeAll (e : Entity)
  | createRole (role : String)
  | dropRole (role : String)
  | addMember (role : String) (p : Principal)
  | removeMember (role : String) (p : Principal)
  deriving DecidableEq

def perform (E : Engine) : Operation → Task Unit
  | .enforce e p actions => E.enforce e p actions
  | .grant e p actions => E.grant e p actions
  | .revoke e p actions => E.revoke e p actions
  | .revokeAll e => E.revokeAll e
  | .createRole role => createRole role
  | .dropRole role => dropRole role
  | .addMember role p => addMember role p
  | .removeMember role p => removeMember role p

end Warrant.Engine
