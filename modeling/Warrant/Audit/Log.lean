import Warrant.Audit.Event

/-!
# The event log

A log records events under one observation context. An event that has a field of the same name as
the context is not recorded; reporting it fails. So does every report under a context with a field
that the log needs for itself.
-/

namespace Warrant.Audit

/-- The events recorded so far, the oldest first, and the context they are recorded under. -/
structure Log where
  context : Context
  events : List Event

/-- The first field of the context that the event has too, or else one that the log needs for
itself. -/
def Context.clash? (c : Context) (e : Event) : Option String :=
  (c.fields.keys.find? fun name => decide (name ∈ e.fields.map Prod.fst)).or
    (ownFields.find? fun name => c.fields.contains name)

/-- The fields of an event as it is recorded. -/
def Context.fieldsOf (c : Context) (e : Event) : List (String × Value) :=
  e.fields ++ c.fields.entries

/-- Records an event, unless its fields clash with those of the context. -/
def Log.record (log : Log) (e : Event) : Except Fault Unit × Log :=
  match log.context.clash? e with
  | some field => (.error (.fieldClash field), log)
  | none => (.ok (), { log with events := log.events ++ [e] })

/-- A state together with the log of its owner. -/
structure Logged (σ : Type) where
  state : σ
  log : Log

/-- A step that changes a state, records events and may fail after it has done so. -/
abbrev Logging (σ α : Type) : Type := ExceptT Fault (StateM (Logged σ)) α

namespace Logging

variable {σ α : Type}

def report (e : Event) : Logging σ Unit := ExceptT.mk fun s =>
  let (result, log) := s.log.record e
  (result, { s with log })

/-- Goes on with the changed state, unless the change is refused. -/
def update (f : σ → Except Fault σ) : Logging σ Unit := do
  let s ← get
  let state ← ExceptT.mk (pure (f s.state))
  set { s with state }

/-- What can be read off the state, unless the reading is refused. -/
def inspect (f : σ → Except Fault α) : Logging σ α := do
  ExceptT.mk (pure (f (← get).state))

/-- A step on a part of the state. -/
def onPart {ρ : Type} (part : σ → ρ) (put : ρ → σ → σ) (x : Logging ρ α) : Logging σ α :=
  ExceptT.mk fun s =>
    let (result, t) := x.run ⟨part s.state, s.log⟩
    (result, ⟨put t.state s.state, t.log⟩)

end Logging

end Warrant.Audit
