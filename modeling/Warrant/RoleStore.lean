import Warrant.Fault
import Warrant.Path
import Warrant.Table

/-!
# The role store

Roles with their members and with the actions granted to them on paths. An operation on a role that
is not there, or the creation of one that is, is refused and changes nothing.
-/

namespace Warrant

/-- The members of a role and the actions granted to it on each path. -/
structure Role where
  members : List Principal
  grants : Table Path (List Action)
  deriving DecidableEq

/-- The roles by their names. -/
structure RoleStore where
  roles : Table String Role
  deriving DecidableEq

namespace Role

def empty : Role := ⟨[], .empty⟩

def attach (p : Principal) (r : Role) : Role :=
  { r with members := if p ∈ r.members then r.members else r.members ++ [p] }

def detach (p : Principal) (r : Role) : Role :=
  { r with members := r.members.filter fun q => decide (q ≠ p) }

/-- The actions on exactly the path. -/
def heldOn (path : Path) (r : Role) : List Action := (r.grants.get? path).getD []

/-- The role with more actions on the path. -/
def grant (path : Path) (actions : List Action) (r : Role) : Role :=
  let held := r.heldOn path
  { r with grants := r.grants.put path (Action.distinct (held ++ actions)) }

/-- The role without the actions on the path; a path without actions is not kept. -/
def revoke (path : Path) (actions : List Action) (r : Role) : Role :=
  match r.grants.get? path with
  | none => r
  | some held =>
    match held.filter fun a => decide (a ∉ actions) with
    | [] => { r with grants := r.grants.erase path }
    | rest => { r with grants := r.grants.put path rest }

/-- The role without actions on exactly the path. -/
def clear (path : Path) (r : Role) : Role := { r with grants := r.grants.erase path }

/-- Some path that covers the given one has the action, or the one that stands for all. -/
def permits (path : Path) (action : Action) (r : Role) : Bool :=
  r.grants.entries.any fun (p, held) =>
    p.covers path && (decide (action ∈ held) || decide (Action.all ∈ held))

end Role

namespace RoleStore

def empty : RoleStore := ⟨.empty⟩

instance : Inhabited RoleStore := ⟨empty⟩

def names (s : RoleStore) : List String := s.roles.keys

def create (name : String) (s : RoleStore) : Except Fault RoleStore :=
  if s.roles.contains name then .error (.roleAlreadyExists name)
  else .ok ⟨s.roles.put name .empty⟩

def find (name : String) (s : RoleStore) : Except Fault Role :=
  match s.roles.get? name with
  | some role => .ok role
  | none => .error (.roleNotFound name)

def drop (name : String) (s : RoleStore) : Except Fault RoleStore := do
  let _ ← s.find name
  return ⟨s.roles.erase name⟩

/-- The store with the role changed. -/
def change (name : String) (f : Role → Role) (s : RoleStore) : Except Fault RoleStore := do
  let role ← s.find name
  return ⟨s.roles.put name (f role)⟩

/-- The number of roles that have an entry for exactly the path. -/
def affected (path : Path) (s : RoleStore) : Nat :=
  s.roles.values.countP fun r => r.grants.contains path

/-- The store without actions on exactly the path. -/
def clear (path : Path) (s : RoleStore) : RoleStore := ⟨s.roles.mapValues (Role.clear path)⟩

/-- The roles that have one of the principals as a member. -/
def rolesOfAny (principals : List Principal) (s : RoleStore) : List String :=
  (s.roles.entries.filter fun (_, r) => r.members.any fun p => decide (p ∈ principals)).map Prod.fst

/-- Some of the roles permits the action on the path. -/
def permits (names : List String) (path : Path) (action : Action) (s : RoleStore) : Bool :=
  s.roles.entries.any fun (name, r) => decide (name ∈ names) && r.permits path action

end RoleStore

end Warrant
