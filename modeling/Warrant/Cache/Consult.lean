import Warrant.Procedure

/-!
# Consulting the cache

The procedures on the decision cache. `consult` serves a decision from the cache or loads and keeps
it; the other ones drop decisions and report how many.
-/

namespace Warrant.Cache

variable {C : Type} [Remote C]

/-- Keeps a decision and reports those that made room. -/
def store (k : Key) (allowed : Option Bool) : Procedure C Unit := do
  let evicted ← Procedure.ask (.keep k allowed)
  evicted.forM fun j => Procedure.report (.entryEvicted j)

/-- Loads a decision. A failing load is reported. -/
def load (loader : Key → Procedure C (Option Bool)) (k : Key) : Procedure C (Option Bool) :=
  (loader k).onFault fun fault => Procedure.report (.cacheLoadFailed k fault)

/-- The decision on a key, none if it is left open: from the cache, or loaded and then kept. Without
a cache every decision is loaded. -/
def consult (enabled : Bool) (loader : Key → Procedure C (Option Bool)) (k : Key) :
    Procedure C (Option Bool) := do
  if enabled then
    match ← Procedure.ask (.find k) with
    | some allowed => do
      Procedure.report (.cacheHit k allowed)
      return some allowed
    | none => do
      Procedure.report (.cacheMiss k)
      let allowed ← load loader k
      store k allowed
      return allowed
  else load loader k

/-- Drops the decision on a key and tells whether there was one. -/
def invalidate (k : Key) : Procedure C Bool := do
  let n ← Procedure.ask (.forget (.key k))
  return decide (0 < n)

/-- Drops decisions on or below an entity and reports how many there were. -/
def invalidateOn (scope : Entity → Scope) (e : Entity) : Procedure C Nat := do
  let n ← Procedure.ask (.forget (scope e))
  Procedure.report (.entriesInvalidated e.text n)
  return n

def invalidateEntity (e : Entity) : Procedure C Nat := invalidateOn .entity e

/-- Drops the decisions on an entity and on everything below it. -/
def invalidateSubtree (e : Entity) : Procedure C Nat := invalidateOn .subtree e

def clear : Procedure C Nat := do
  let n ← Procedure.ask (.forget .everything)
  Procedure.report (.cacheCleared n)
  return n

end Warrant.Cache
