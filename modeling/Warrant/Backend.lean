import Warrant.Audit.Log
import Warrant.Identity
import Warrant.Procedure
import Warrant.Resolver
import Warrant.RoleStore

/-!
# The policy backend

A policy backend decides authorizations and administers roles. The one here keeps its roles in a
`RoleStore`; guarded as read-only it still decides, and refuses everything else.
-/

namespace Warrant

/-- An action on an entity that a principal holds. -/
structure Privilege where
  principal : Principal
  entity : Entity
  action : Action
  deriving DecidableEq

/-- What can be asked of a policy backend. -/
inductive Backend.Call
  | authorize (principal : Principal) (path : Path) (action : Action)
  | createRole (role : String)
  | dropRole (role : String)
  | attach (role : String) (principal : Principal)
  | detach (role : String) (principal : Principal)
  | grant (path : Path) (role : String) (actions : List Action)
  | revoke (path : Path) (role : String) (actions : List Action)
  | revokeAllOn (path : Path)
  | listPrivileges (principal : Principal)
  | listRoles (principal : Principal)
  | listAllRoles
  deriving DecidableEq

namespace Backend

open Audit.Logging

/-- What a policy backend answers; it may leave an authorization open. -/
@[reducible] def Call.Answer : Call → Type
  | .authorize .. => Option Bool
  | .listPrivileges _ => List Privilege
  | .listRoles _ => List String
  | .listAllRoles => List String
  | _ => Unit

def Call.name : Call → String
  | .authorize .. => "authorize"
  | .createRole _ => "create_role"
  | .dropRole _ => "drop_role"
  | .attach .. => "attach_principal_to_role"
  | .detach .. => "detach_principal_from_role"
  | .grant .. => "grant"
  | .revoke .. => "revoke"
  | .revokeAllOn _ => "revoke_all_on_resource"
  | .listPrivileges _ => "list_privileges"
  | .listRoles _ => "list_roles"
  | .listAllRoles => "list_all_roles"

instance : Remote Call := ⟨Call.Answer, Call.name⟩

/-- What the backend is told once: how it finds the groups of a user, and which entities the paths
in its grants lead to. -/
structure Setup where
  identity : Identity
  resolver : Resolver

/-- A step of the backend, which may fail after it has changed the roles. -/
abbrev Service (α : Type) : Type := Audit.Logging RoleStore α

/-- The principals whose memberships count for a user or group: itself and, for a user, the groups
of the user. -/
def candidates (setup : Setup) (p : Principal) : Except Malformed (List Principal) := do
  match p.kind with
  | .user => return p :: (← (setup.identity.groupsOf p.name).mapM Principal.group?)
  | _ => return [p]

/-- The roles that a principal acts in: a role in itself, a user or group in those that it is a
member of. -/
def rolesFor (setup : Setup) (p : Principal) (s : RoleStore) : Except Malformed (List String) := do
  match p.kind with
  | .role => return if s.roles.contains p.name then [p.name] else []
  | _ => return s.rolesOfAny (← candidates setup p)

/-- The principal may perform the action on the path. -/
def authorizes (setup : Setup) (p : Principal) (path : Path) (action : Action) (s : RoleStore) :
    Except Malformed Bool := do
  return s.permits (← rolesFor setup p s) path action

def privilegesOf (setup : Setup) (p : Principal) (r : Role) : Except Fault (List Privilege) := do
  let each ← r.grants.entries.mapM fun (path, held) => do
    let e ← setup.resolver.entityOf? path
    return held.map fun a => (⟨p, e, a⟩ : Privilege)
  return each.flatten

/-- The distinct privileges of a principal. -/
def privileges (setup : Setup) (p : Principal) (s : RoleStore) : Except Fault (List Privilege) := do
  let names ← rolesFor setup p s
  let each ← (s.roles.entries.filter fun (name, _) => decide (name ∈ names)).mapM fun (_, r) =>
    privilegesOf setup p r
  return each.flatten.eraseDups

/-- Decides and reports whether the principal may perform the action on the path. -/
def authorize (setup : Setup) (p : Principal) (path : Path) (action : Action) : Service Bool := do
  let granted ← inspect fun s => (authorizes setup p path action s).mapError .malformed
  report (.authorizationChecked p.text path.text action granted)
  return granted

/-- Carries a call out on the role store. -/
def serve (setup : Setup) : (c : Call) → Service c.Answer
  | .authorize p path action => some <$> authorize setup p path action
  | .createRole role => do
    update fun s => s.create role
    report (.roleCreated role)
  | .dropRole role => do
    update fun s => s.drop role
    report (.roleDropped role)
  | .attach role p => do
    update fun s => s.change role (Role.attach p)
    report (.principalAttached role p.text)
  | .detach role p => do
    update fun s => s.change role (Role.detach p)
    report (.principalDetached role p.text)
  | .grant path role actions => do
    update fun s => s.change role (Role.grant path actions)
    report (.privilegesGranted path.text role actions)
  | .revoke path role actions => do
    update fun s => s.change role (Role.revoke path actions)
    report (.privilegesRevoked path.text role actions)
  | .revokeAllOn path => do
    let affected ← inspect fun s => .ok (s.affected path)
    update fun s => .ok (s.clear path)
    report (.resourceCleared path.text affected)
  | .listPrivileges p => inspect (privileges setup p)
  | .listRoles p => inspect fun s => (rolesFor setup p s).mapError .malformed
  | .listAllRoles => inspect fun s => .ok s.names

/-- Carries a call out if it asks for an authorization, and refuses it otherwise. An authorization
is recorded by the guarded backend and by the guard. -/
def serveReadOnly (setup : Setup) : (c : Call) → Service c.Answer
  | .authorize p path action => do
    let granted ← authorize setup p path action
    report (.authorizationChecked p.text path.text action granted)
    return some granted
  | c => do
    report (.operationRejected c.name)
    throw (.unsupportedOperation c.name)

end Backend

end Warrant
