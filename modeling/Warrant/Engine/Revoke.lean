import Warrant.Engine.Shadow

/-!
# Revoking

Actions are revoked from a role directly, from a user or group through the shadow role of the pair,
which is dropped once it holds nothing. When an entity is deleted, everything granted on it goes and
so do all shadow roles that it owns.
-/

namespace Warrant.Engine

open Procedure

/-- Drops the shadow role unless privileges remain. -/
def collect (role : String) (remaining : List Privilege) : Task Unit := do
  if remaining.isEmpty then
    let _ ← dropRoleFor "no_remaining_privileges" role
  else report (.shadowRoleRetained role remaining.length)

/-- Lists what the role of the name holds. -/
def privilegesOfRole (role : String) : Task (List Privilege) := do
  let principal ← (Principal.make? .role role : Except Malformed Principal)
  policy (.listPrivileges principal)

/-- Revokes the actions through the shadow role of the pair and gives its name. If the role is not
there nothing was ever granted to the pair. -/
def revokeThrough (E : Engine) (e : Entity) (path : Path) (p : Principal) (actions : List Action) :
    Task String := do
  let role ← ShadowRole.name? E.resolver e p
  match ← outcome (policy (.revoke path role actions)) with
  | .error (.roleNotFound _) => return role
  | .error f => throw f
  | .ok () =>
    let remaining ← privilegesOfRole role
    collect role remaining
    return role

/-- Revokes the actions and gives the name of the role that held them. -/
def revokeOn (E : Engine) (e : Entity) (path : Path) (p : Principal) (actions : List Action) :
    Task String := do
  if p.kind = .role then
    policy (.revoke path p.name actions)
    return p.name
  else locked ⟨e, p⟩ (E.revokeThrough e path p actions)

/-- Revokes the actions on an entity from a principal. -/
def revoke (E : Engine) (e : Entity) (p : Principal) (actions : List Action) : Task Unit := do
  let requested := Action.distinct actions
  let path ← E.resolver.resolve e
  let _ ← Cache.invalidateSubtree e
  let role ← (E.revokeOn e path p requested).onFault fun f =>
    report (.revokeFailed p.text e.text requested f)
  let _ ← Cache.invalidateSubtree e
  report (.revokeApplied p.text e.text requested role)

/-- Drops those of the roles that the entity owns and counts them. -/
def dropOwned (E : Engine) (e : Entity) : List String → Task Nat
  | [] => return 0
  | role :: rest => do
    let owned ← ShadowRole.isOwnedBy? E.resolver role e
    let dropped ← if owned then dropRoleFor "entity_revoked" role else pure false
    let more ← E.dropOwned e rest
    return if dropped then more + 1 else more

/-- Revokes everything on a path and drops the shadow roles of its entity. -/
def revokeAllOn (E : Engine) (e : Entity) (path : Path) : Task Nat := do
  policy (.revokeAllOn path)
  let roles ← policy .listAllRoles
  E.dropOwned e (Text.sortedDistinct roles)

/-- Revokes every privilege on an entity that is being deleted. -/
def revokeAll (E : Engine) (e : Entity) : Task Unit := do
  let path ← E.resolver.resolve e
  let _ ← Cache.invalidateSubtree e
  let dropped ← (E.revokeAllOn e path).onFault fun f => report (.entityRevokeFailed e.text f)
  let _ ← Cache.invalidateSubtree e
  report (.entityRevoked e.text dropped)

end Warrant.Engine
