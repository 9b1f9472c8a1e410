import Warrant.Table

/-!
# Groups of users
-/

namespace Warrant

/-- How the groups of a user are found. -/
inductive Identity
  /-- Every user has one group, which carries the user's name. -/
  | userNamed
  /-- The groups are listed; a user without any has the group of the user's own name if `fallback`
  is set. -/
  | listed (memberships : Table String (List String)) (fallback : Bool)
  /-- Another directory of users, of which only the answers are known. -/
  | directory (groups : String → List String)

def Identity.groupsOf : Identity → String → List String
  | userNamed, user => [user]
  | listed memberships fallback, user =>
    match (memberships.get? user).getD [] with
    | [] => if fallback then [user] else []
    | groups => groups
  | directory groups, user => groups user

end Warrant
