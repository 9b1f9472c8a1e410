import Warrant.Engine.Shadow

/-!
# Granting

A role is granted actions directly, a user or group through the shadow role of the pair, whose
members are the groups that stand for the principal. Cached decisions on the entity and below it are
dropped before the grant, and again after it, because an enforcement that ran in between may have
cached the old ones.
-/

namespace Warrant.Engine

open Procedure

/-- The names of the groups that stand for a user or group. -/
def standIns (E : Engine) (p : Principal) : Task (List String) :=
  if p.kind = .user then E.groupsOf p.name else return [p.name]

/-- Grants the actions through the shadow role of the pair and gives its name. -/
def grantThrough (E : Engine) (e : Entity) (path : Path) (p : Principal) (actions : List Action) :
    Task String := do
  let role ← ShadowRole.name? E.resolver e p
  ensureRole role
  let groups ← E.standIns p
  attachGroups role (Text.sortedDistinct groups)
  policy (.grant path role actions)
  return role

/-- Grants the actions and gives the name of the role that holds them. -/
def grantOn (E : Engine) (e : Entity) (path : Path) (p : Principal) (actions : List Action) :
    Task String := do
  if p.kind = .role then
    policy (.grant path p.name actions)
    return p.name
  else locked ⟨e, p⟩ (E.grantThrough e path p actions)

/-- Grants the actions on an entity to a principal; nothing is done for no action. -/
def grant (E : Engine) (e : Entity) (p : Principal) (actions : List Action) : Task Unit := do
  let requested := Action.distinct actions
  if requested.isEmpty then return ()
  let path ← E.resolver.resolve e
  let _ ← Cache.invalidateSubtree e
  let role ← (E.grantOn e path p requested).onFault fun f =>
    report (.grantFailed p.text e.text requested f)
  let _ ← Cache.invalidateSubtree e
  report (.grantApplied p.text e.text requested role)

end Warrant.Engine
