import Warrant.Engine.Basic

/-!
# Enforcement

A user passes when every requested action is allowed. Superusers and members of the admin group pass
without a check. Every denied action is reported, not only the first one; a decision that is left
open denies.
-/

namespace Warrant.Engine

open Procedure

/-- Why a user passes without a check, if so. -/
def bypass (E : Engine) (user : String) : Task (Option String) := do
  if user ∈ E.superusers then return some "superuser"
  match E.adminGroup with
  | none => return none
  | some admins =>
    let groups ← E.groupsOf user
    return if admins ∈ groups then some "admin_group" else none

/-- The actions among the given ones that are denied; each is decided, in the given order. -/
def deniedAmong (E : Engine) (e : Entity) (p : Principal) : List Action → Task (List Action)
  | [] => return []
  | a :: rest => do
    let allowed ← E.decision ⟨p, e, a⟩
    let denied ← E.deniedAmong e p rest
    return if allowed = some true then denied else a :: denied

/-- What is found out about a request. -/
inductive Finding
  | bypassed
  | decided (denied : List Action)

/-- Decides a request, and reports when it passes without a check. -/
def judge (E : Engine) (e : Entity) (p : Principal) (actions : List Action) : Task Finding := do
  match ← E.bypass p.name with
  | some reason =>
    report (.enforceBypassed p.text e.text reason)
    return .bypassed
  | none => return .decided (← E.deniedAmong e p actions)

/-- Checks that a user may perform all of the actions on an entity; fails with those that are
denied. -/
def enforce (E : Engine) (e : Entity) (p : Principal) (actions : List Action) : Task Unit := do
  if p.kind ≠ .user then throw (.invalidPrincipalKind p "enforce")
  let requested := Action.distinct actions
  let _ ← E.resolver.resolve e
  match ← (E.judge e p requested).onFault fun f => report (.enforceFailed p.text e.text f) with
  | .bypassed => return ()
  | .decided [] => report (.enforceAllowed p.text e.text requested)
  | .decided denied =>
    report (.enforceDenied p.text e.text denied)
    throw (.unauthorized p e denied)

end Warrant.Engine
