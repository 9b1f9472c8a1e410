import Warrant.Audit.Log
import Warrant.Cache.Basic
import Warrant.Procedure

/-!
# Worlds

A world is everything that procedures act on: the decision cache and its clock, the event log, and
whatever the remote service keeps. `World.run` runs a procedure alone in a world. Nothing moves the
clock but `World.advance`.
-/

namespace Warrant

/-- What procedures act on. -/
structure World (σ τ : Type) where
  cache : Cache τ
  limits : Cache.Limits τ
  clock : τ
  log : Audit.Log
  /-- What the remote service keeps. -/
  remote : σ

/-- A remote service. Each call begins at once and is carried out later; what was fixed when it
began is known to the second part. -/
class Server (C : Type) [Remote C] (σ : Type) where
  start : (c : C) → σ → σ × Audit.Logging σ (Remote.Answer c)

namespace World

variable {σ τ α : Type}

def new (limits : Cache.Limits τ) (clock : τ) (context : Audit.Context) (remote : σ) : World σ τ :=
  ⟨.empty, limits, clock, ⟨context, []⟩, remote⟩

/-- A step of the remote service. -/
def onRemote (x : Audit.Logging σ α) : StateM (World σ τ) (Except Fault α) := fun w =>
  let (result, s) := x.run ⟨w.remote, w.log⟩
  (result, { w with remote := s.state, log := s.log })

def advance [Add τ] (d : τ) (w : World σ τ) : World σ τ := { w with clock := w.clock + d }

variable [Add τ] [LE τ] [DecidableLE τ]

/-- Does a chore. A lock is given at once: whoever runs procedures within one another sees to it that
they take different locks. -/
def chore : (q : Chore) → StateM (World σ τ) q.Reply
  | .report e => fun w =>
    let (result, log) := w.log.record e
    (result, { w with log })
  | .find k => fun w =>
    let (found, cache) := w.cache.find w.clock k
    (found, { w with cache })
  | .keep k allowed => fun w =>
    let (evicted, cache) := w.cache.keep w.limits w.clock k allowed
    (evicted, { w with cache })
  | .forget scope => fun w =>
    let (n, cache) := w.cache.forget scope
    (n, { w with cache })
  | .acquire _ => pure ()
  | .release _ => pure ()

variable {C : Type} [Remote C] [Server C σ]

/-- Begins a call of the remote service and gives the rest of it. -/
def start (c : C) : StateM (World σ τ) (Audit.Logging σ (Remote.Answer c)) := fun w =>
  let (remote, rest) := Server.start c w.remote
  (rest, { w with remote })

/-- Answers every request at once. -/
def answer : (q : Request C) → StateM (World σ τ) q.Reply
  | .call c => do onRemote (← start c)
  | .chore q => chore q

/-- Goes through a dialogue up to its first remote call or lock and gives what is left of it. -/
def runToWait {β : Type} : Dialogue (Request C) Request.Reply β →
    StateM (World σ τ) (Dialogue (Request C) Request.Reply β)
  | .done result => return .done result
  | .ask (.call c) next => return .ask (.call c) next
  | .ask (.chore q) next =>
    if q.waits then return .ask (.chore q) next
    else do runToWait (next (← chore q))

/-- Runs a procedure alone; a failing one keeps the changes that it has made. -/
def run (p : Procedure C α) (w : World σ τ) : Except Fault α × World σ τ :=
  (Dialogue.run answer (ExceptT.run p) : StateM (World σ τ) _).run w

/-! ### Runs of composed procedures -/

section Laws

variable {β : Type}

theorem run_pure (a : α) (w : World σ τ) : run (pure a : Procedure C α) w = (.ok a, w) := rfl

theorem run_throw (f : Fault) (w : World σ τ) :
    run (throw f : Procedure C α) w = (.error f, w) := rfl

/-- The second procedure starts in the world that the first one leaves, if that one succeeds. -/
theorem run_bind (p : Procedure C α) (f : α → Procedure C β) (w : World σ τ) :
    run (p >>= f) w = match run p w with
      | (.ok a, v) => run (f a) v
      | (.error e, v) => (.error e, v) := by
  simp only [run, ExceptT.run_bind, Dialogue.run_bind]
  rw [StateT.run_bind]
  cases StateT.run (Dialogue.run answer (ExceptT.run p) : StateM (World σ τ) _) w with
  | mk result v => cases result <;> rfl

theorem run_conclude (x : Except Fault α) (w : World σ τ) :
    run (Procedure.conclude x : Procedure C α) w = (x, w) := rfl

theorem run_ask (q : Chore) (w : World σ τ) :
    run (Procedure.ask q : Procedure C q.Reply) w =
      (.ok ((chore q : StateM (World σ τ) _).run w).1, ((chore q : StateM (World σ τ) _).run w).2) :=
  rfl

theorem run_report (e : Audit.Event) (w : World σ τ) :
    run (Procedure.report e : Procedure C Unit) w =
      ((w.log.record e).1, { w with log := (w.log.record e).2 }) := rfl

theorem run_outcome (p : Procedure C α) (w : World σ τ) :
    run (Procedure.outcome p) w = (.ok (run p w).1, (run p w).2) := by
  simp only [run, Procedure.outcome, ExceptT.run_lift, ← bind_pure_comp, Dialogue.run_bind]
  rw [StateT.run_bind]
  rfl

theorem run_handling (p : Procedure C α) (w : World σ τ) :
    run p.handling w = ((run p w).1.mapError Fault.whileHandling, (run p w).2) := by
  rw [Procedure.handling, run_bind, run_outcome]
  cases run p w with
  | mk result v => cases result <;> rfl

/-- A fault goes on after the second procedure, unless that one fails too. -/
theorem run_onFault (p : Procedure C α) (f : Fault → Procedure C Unit) (w : World σ τ) :
    run (p.onFault f) w = match run p w with
      | (.ok a, v) => (.ok a, v)
      | (.error e, v) => match run (f e) v with
        | (.ok (), u) => (.error e, u)
        | (.error e, u) => (.error e.whileHandling, u) := by
  rw [Procedure.onFault, run_bind, run_outcome]
  cases run p w with
  | mk result v =>
    cases result with
    | ok a => rfl
    | error e =>
      simp only [run_bind, run_handling]
      cases run (f e) v with
      | mk result u => cases result <;> rfl

/-- Alone in the world, a procedure does the same with a lock as without. -/
theorem run_locked (pair : Pair) (p : Procedure C α) (w : World σ τ) :
    run (p.locked pair) w = run p w := by
  simp only [Procedure.locked, run_bind, run_outcome, run_conclude]
  rfl

end Laws

end World

end Warrant
