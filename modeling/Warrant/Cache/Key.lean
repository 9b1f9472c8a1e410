import Warrant.Action
import Warrant.Entity.Basic
import Warrant.Principal

/-!
# Keys of the decision cache
-/

namespace Warrant.Cache

/-- The question that a cached decision answers. -/
structure Key where
  principal : Principal
  entity : Entity
  action : Action
  deriving DecidableEq

/-- A part of the cache that an invalidation is aimed at. -/
inductive Scope
  | key (k : Key)
  /-- The decisions on one entity. -/
  | entity (e : Entity)
  /-- The decisions on an entity and on everything below it. -/
  | subtree (e : Entity)
  | everything
  deriving DecidableEq

/-- The decision lies in the scope. -/
def Scope.covers : Scope → Key → Bool
  | .key k, j => decide (j = k)
  | .entity e, j => decide (j.entity = e)
  | .subtree e, j => decide (j.entity = e) || j.entity.isBelow e
  | .everything, _ => true

end Warrant.Cache
