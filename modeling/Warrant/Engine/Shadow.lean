import Warrant.Engine.Basic

/-!
# Keeping shadow roles

A shadow role may be created, dropped or re-created by others between two calls, so every step copes
with finding it there or gone.
-/

namespace Warrant.Engine

open Procedure

/-- Creates a shadow role, or goes on with the one that is there. -/
def ensureRole (role : String) : Task Unit := do
  let created ← outcome do
    policy (.createRole role)
    report (.shadowRoleCreated role)
  match created with
  | .error (.roleAlreadyExists _) => handling (report (.shadowRoleReused role))
  | result => conclude result

/-- Makes a group a member of a shadow role. If the role is gone it is created again, once. -/
def attachGroup (role : String) (group : Principal) : Task Unit := do
  match ← outcome (policy (.attach role group)) with
  | .error (.roleNotFound _) => handling do
    ensureRole role
    policy (.attach role group)
  | result => conclude result

/-- Makes the groups of the given names members of a shadow role. -/
def attachGroups (role : String) : List String → Task Unit
  | [] => return ()
  | name :: rest => do
    let group ← (Principal.group? name : Except Malformed Principal)
    attachGroup role group
    attachGroups role rest

/-- Drops a shadow role and tells whether it was there. -/
def dropRoleFor (reason role : String) : Task Bool := do
  match ← outcome (policy (.dropRole role)) with
  | .error (.roleNotFound _) => return false
  | .error f => throw f
  | .ok () =>
    report (.shadowRoleDropped role reason)
    return true

end Warrant.Engine
