import Warrant.Cache.Consult
import Warrant.World

/-!
# Loaders of constant decisions

A remote service that answers every question alike, for a cache on its own.
-/

namespace Warrant.Cache

/-- A service that loads decisions: what it answers, and how often it was asked. -/
structure Loader where
  decision : Bool
  loads : Nat

namespace Loader

/-- Asks for the decision on a key. -/
inductive Call
  | load (k : Key)

instance : Remote Call := ⟨fun _ => Option Bool, fun _ => "load"⟩

/-- A load counts from its beginning and answers what held then. -/
instance : Server Call Loader :=
  ⟨fun _ s =>
    ({ s with loads := s.loads + 1 }, (pure (some s.decision) : Audit.Logging Loader (Option Bool)))⟩

def load (k : Key) : Procedure Call (Option Bool) := Procedure.call (Call.load k)

end Loader

end Warrant.Cache
