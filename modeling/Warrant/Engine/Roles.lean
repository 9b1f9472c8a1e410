import Warrant.Engine.Basic

/-!
# Roles of the callers

Roles that callers administer by name. Names that carry the marker of shadow roles are refused. A
change that can take privileges away or give them drops every cached decision.
-/

namespace Warrant.Engine

open Procedure

/-- Refuses the names of shadow roles. -/
def checkRoleName (role : String) : Task Unit :=
  if ShadowRole.isReserved role then throw (.reservedRoleName role) else return ()

/-- Refuses roles as principals of the operation. -/
def checkMember (operation : String) (p : Principal) : Task Unit :=
  if p.kind = .role then throw (.invalidPrincipalKind p operation) else return ()

/-- Runs an operation on a role and reports how it ended. -/
def roleOperation (operation role : String) (p : Option Principal) (run : Task Unit) :
    Task Unit := do
  run.onFault fun f => report (.roleOperationFailed operation role f)
  report (.roleOperationCompleted operation role (p.map Principal.text))

def createRole (role : String) : Task Unit := do
  checkRoleName role
  roleOperation "create_role" role none (policy (.createRole role))

def dropRole (role : String) : Task Unit := do
  checkRoleName role
  roleOperation "drop_role" role none (policy (.dropRole role))
  let _ ← Cache.clear

def addMember (role : String) (p : Principal) : Task Unit := do
  checkRoleName role
  checkMember "add_principal_to_role" p
  roleOperation "add_principal_to_role" role (some p) (policy (.attach role p))
  let _ ← Cache.clear

def removeMember (role : String) (p : Principal) : Task Unit := do
  checkRoleName role
  checkMember "remove_principal_from_role" p
  roleOperation "remove_principal_from_role" role (some p) (policy (.detach role p))
  let _ ← Cache.clear

/-- Lists the roles that a user or group is a member of. -/
def listRoles (p : Principal) : Task (List String) := do
  checkMember "list_roles" p
  policy (.listRoles p)

/-- Lists every role, shadow roles included. -/
def listAllRoles : Task (List String) := policy .listAllRoles

/-- Lists what a principal holds. -/
def listPrivileges (p : Principal) : Task (List Privilege) := policy (.listPrivileges p)

end Warrant.Engine
