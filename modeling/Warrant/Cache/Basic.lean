import Warrant.Cache.Key
import Warrant.Malformed
import Warrant.Table

/-!
# The decision cache

Decisions, denials included, are kept for a fixed time after they were written, and when there are
too many the least recently used one goes. The entries are listed in the order of their last use, so
the first one is the next to go. A decision that was left open is kept like the others, but a look-up
does not serve it. Time may be any type with addition and a decidable order.
-/

namespace Warrant

namespace Cache

variable {τ : Type}

/-- How many decisions are kept, and for how long. -/
structure Limits (τ : Type) where
  maxEntries : Nat
  lifetime : τ

/-- The limits of the given size and lifetime; the size is looked at first. The text is the lifetime
as it was given. -/
def Limits.make? [LE τ] [DecidableLE τ] [OfNat τ 0] (maxEntries : Int) (lifetime : τ)
    (given : String) : Except Malformed (Limits τ) :=
  if maxEntries < 0 then .error (.negativeSize (toString maxEntries))
  else if lifetime ≤ 0 then .error (.lifetimeNotPositive given)
  else .ok ⟨maxEntries.toNat, lifetime⟩

/-- A cache of no entries is switched off. -/
def Limits.enabled (l : Limits τ) : Bool := decide (0 < l.maxEntries)

/-- A decision, none if it was left open, and the time from which on it no longer counts. -/
structure Slot (τ : Type) where
  allowed : Option Bool
  expires : τ
  deriving DecidableEq

end Cache

/-- The decisions held, the least recently used one first. -/
structure Cache (τ : Type) where
  slots : Table Cache.Key (Cache.Slot τ)

namespace Cache

variable {τ : Type}

def empty : Cache τ := ⟨.empty⟩

def size (c : Cache τ) : Nat := c.slots.size

section Expiry

variable [LE τ] [DecidableLE τ]

/-- A decision counts strictly before it expires. -/
def Slot.isExpired (now : τ) (s : Slot τ) : Bool := decide (s.expires ≤ now)

def prune (now : τ) (c : Cache τ) : Cache τ :=
  ⟨c.slots.filter fun (_, s) => !s.isExpired now⟩

/-- Looks a decision up. A decision that counts becomes the most recently used one, also if it was
left open; an expired one is dropped. -/
def find (now : τ) (k : Key) (c : Cache τ) : Option Bool × Cache τ :=
  match c.slots.get? k with
  | none => (none, c)
  | some s =>
    if s.isExpired now then (none, ⟨c.slots.erase k⟩)
    else (s.allowed, ⟨c.slots.putLast k s⟩)

/-- Writes a decision as the most recently used one. If there are too many then, expired decisions
go first and after them the least recently used ones, whose keys are returned in that order. -/
def keep [Add τ] (limits : Limits τ) (now : τ) (k : Key) (allowed : Option Bool)
    (c : Cache τ) : List Key × Cache τ :=
  let c : Cache τ := ⟨c.slots.putLast k ⟨allowed, now + limits.lifetime⟩⟩
  let c := if limits.maxEntries < c.size then c.prune now else c
  let excess := c.size - limits.maxEntries
  (c.slots.keys.take excess, ⟨c.slots.drop excess⟩)

/-- The decisions that count, in the order of their last use, once the expired ones are dropped. -/
def snapshot (now : τ) (c : Cache τ) : List (Key × Option Bool) × Cache τ :=
  let c := c.prune now
  (c.slots.entries.map fun (k, s) => (k, s.allowed), c)

/-- The number of decisions that count, once the expired ones are dropped. -/
def count (now : τ) (c : Cache τ) : Nat × Cache τ :=
  let c := c.prune now
  (c.size, c)

end Expiry

/-- Drops the decisions in a scope, expired or not, and tells how many there were. -/
def forget (scope : Scope) (c : Cache τ) : Nat × Cache τ :=
  let rest := c.slots.filter fun (k, _) => !scope.covers k
  (c.slots.size - rest.size, ⟨rest⟩)

end Cache

end Warrant
