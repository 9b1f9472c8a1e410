import Warrant.Backend
import Warrant.Cache.Consult
import Warrant.ShadowRole
import Warrant.Text.Sorted

/-!
# The authorization engine

What the engine is told once, and the remote calls that it makes: to the policy backend and to the
service that knows the groups of users.
-/

namespace Warrant

/-- The engine: the entities it serves, who passes without a check, and what it has at hand. -/
structure Engine where
  resolver : Resolver
  superusers : List String
  adminGroup : Option String
  /-- There is a service that knows the groups of users. -/
  looksUpGroups : Bool
  /-- Decisions are cached. -/
  caches : Bool

namespace Engine

/-- The remote calls of the engine. -/
inductive Call
  | policy (c : Backend.Call)
  | groupsOf (user : String)
  deriving DecidableEq

/-- What a remote call answers. -/
@[reducible] def Call.Answer : Call → Type
  | policy c => c.Answer
  | groupsOf _ => List String

def Call.method : Call → String
  | policy c => c.name
  | groupsOf _ => "groups_of"

instance : Remote Call := ⟨Call.Answer, Call.method⟩

/-- What the engine does, step by step. -/
abbrev Task (α : Type) : Type := Procedure Call α

open Procedure

def policy (c : Backend.Call) : Task c.Answer := call (Call.policy c)

/-- The groups that stand for a user: those that are looked up, or else the one of the user's
name. -/
def groupsOf (E : Engine) (user : String) : Task (List String) := do
  if E.looksUpGroups then
    let groups ← call (Call.groupsOf user)
    return if groups.isEmpty then [user] else groups
  else return [user]

/-- The decision of the policy backend. -/
def loadDecision (E : Engine) (k : Cache.Key) : Task (Option Bool) := do
  let path ← E.resolver.resolve k.entity
  policy (.authorize k.principal path k.action)

/-- The decision on a key, from the cache or from the policy backend. -/
def decision (E : Engine) (k : Cache.Key) : Task (Option Bool) :=
  Cache.consult E.caches E.loadDecision k

end Engine

end Warrant
