import Warrant.Audit.Event
import Warrant.Dialogue

/-!
# Procedures

A procedure is a dialogue with the surroundings of the engine that may fail. It calls a remote
service, whose calls a class `Remote` describes, reports events, reads and writes the decision
cache, and takes and gives back the lock of a pair. While a remote call is pending other procedures
may run.
-/

namespace Warrant

/-- The calls of a remote service and what they answer. -/
class Remote (C : Type) where
  /-- What a call answers. -/
  Answer : C → Type
  /-- The name of the method that is called. -/
  method : C → String

/-- The entity and principal whose shadow role is being changed. -/
structure Pair where
  entity : Entity
  principal : Principal
  deriving DecidableEq

/-- What a procedure asks of its own process. -/
inductive Chore
  | report (e : Audit.Event)
  /-- Looks a decision up in the cache. -/
  | find (k : Cache.Key)
  /-- Writes a decision, or that none was made, to the cache; the answer lists the decisions that
  made room. -/
  | keep (k : Cache.Key) (allowed : Option Bool)
  /-- Drops decisions from the cache; the answer is their number. -/
  | forget (scope : Cache.Scope)
  /-- Waits for the lock of a pair. -/
  | acquire (pair : Pair)
  | release (pair : Pair)
  deriving DecidableEq

/-- What the process answers. -/
@[reducible] def Chore.Reply : Chore → Type
  | report _ => Except Fault Unit
  | find _ => Option Bool
  | keep _ _ => List Cache.Key
  | forget _ => Nat
  | acquire _ => Unit
  | release _ => Unit

/-- The process may have to wait before it can do the chore. -/
def Chore.waits : Chore → Bool
  | acquire _ => true
  | _ => false

/-- What a procedure asks of its surroundings. -/
inductive Request (C : Type)
  /-- Calls the remote service and waits for the answer. -/
  | call (c : C)
  | chore (q : Chore)

/-- What the surroundings answer. -/
@[reducible] def Request.Reply {C : Type} [Remote C] : Request C → Type
  | call c => Except Fault (Remote.Answer c)
  | chore q => q.Reply

/-- A dialogue that ends in a result or a fault. -/
abbrev Procedure (C : Type) [Remote C] (α : Type) : Type :=
  ExceptT Fault (Dialogue (Request C) Request.Reply) α

namespace Procedure

variable {C : Type} [Remote C] {α : Type}

def ask (q : Chore) : Procedure C q.Reply := ExceptT.lift (Dialogue.query (Request.chore q))

def call (c : C) : Procedure C (Remote.Answer c) := ExceptT.mk (Dialogue.query (Request.call c))

def report (e : Audit.Event) : Procedure C Unit := ExceptT.mk (Dialogue.query (Request.chore (.report e)))

/-- Goes on with a value that may have been refused. -/
def conclude (x : Except Fault α) : Procedure C α := ExceptT.mk (pure x)

instance : MonadLift (Except Fault) (Procedure C) := ⟨conclude⟩

/-- Runs a procedure to its end and gives what it ended in. -/
def outcome (p : Procedure C α) : Procedure C (Except Fault α) := ExceptT.lift p.run

/-- Runs the procedure while another fault is being handled. -/
def handling (p : Procedure C α) : Procedure C α := do
  match ← outcome p with
  | .ok a => return a
  | .error fault => throw fault.whileHandling

/-- Runs the procedure and, if it fails, the second one on the fault, which then goes on unless the
second one fails too. -/
def onFault (p : Procedure C α) (f : Fault → Procedure C Unit) : Procedure C α := do
  match ← outcome p with
  | .ok a => return a
  | .error fault => do
    handling (f fault)
    throw fault

/-- Runs the procedure while holding the lock of the pair. -/
def locked (pair : Pair) (p : Procedure C α) : Procedure C α := do
  ask (.acquire pair)
  let result ← outcome p
  ask (.release pair)
  conclude result

end Procedure

end Warrant
