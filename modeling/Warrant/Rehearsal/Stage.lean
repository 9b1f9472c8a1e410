import Warrant.Rehearsal.Script

/-!
# Running rehearsals

A stage is a world together with the cues that are still to come. `rehearse` runs the steps of a
rehearsal one after the other and gives for each its result, the events recorded meanwhile and the
results of the steps that ran within it.
-/

namespace Warrant.Rehearsal

/-- A world, the cues to come by method, and the results of nested steps in the order in which they
ended. -/
structure Stage (C : Type) [Remote C] (σ τ R : Type) where
  world : World σ τ
  cues : Table String (List (Cue C σ τ R))
  nested : List R

/-- What a step has led to. -/
structure Outcome (R : Type) where
  result : R
  events : List Audit.Event
  nested : List R

variable {C : Type} [Remote C] {σ τ R : Type}

namespace Stage

/-- A change of the world on the stage. -/
def onWorld {α : Type} (x : StateM (World σ τ) α) : StateM (Stage C σ τ R) α := fun s =>
  let (a, world) := x s.world
  (a, { s with world })

/-- Takes the next cue for a method; without one the call passes. -/
def takeCue (method : String) : StateM (Stage C σ τ R) (Cue C σ τ R) := fun s =>
  match (s.cues.get? method).getD [] with
  | [] => (.pass, s)
  | cue :: rest => (cue, { s with cues := s.cues.put method rest })

/-- Adds cues for a method behind those to come. -/
def addCues (method : String) (cues : List (Cue C σ τ R)) (s : Stage C σ τ R) : Stage C σ τ R :=
  { s with cues := s.cues.put method ((s.cues.get? method).getD [] ++ cues) }

variable [Add τ] [LE τ] [DecidableLE τ] [Server C σ] [Scriptable C]

/-- Answers a request as its cue says; `nest` runs the steps that a cue holds. -/
def answer (nest : List (Step C σ τ R) → StateM (Stage C σ τ R) Unit) :
    (q : Request C) → StateM (Stage C σ τ R) q.Reply
  | .chore q => onWorld (World.chore q)
  | .call c => do
    let cue ← takeCue (Remote.method c)
    let rest ← onWorld (World.start c)
    match cue with
    | .pass => onWorld (World.onRemote rest)
    | .fail f => return .error f
    | .answer a =>
      match Scriptable.standIn c a with
      | some a => return .ok a
      | none => onWorld (World.onRemote rest)
    | .before steps =>
      nest steps
      onWorld (World.onRemote rest)
    | .after steps =>
      match ← onWorld (World.onRemote rest) with
      | .ok a =>
        nest steps
        return .ok a
      | .error f => return .error f

/-- Starts a step: runs it up to its first remote call or lock and gives the rest of it. -/
def launch : Step C σ τ R → StateM (Stage C σ τ R) (Step C σ τ R)
  | .perform (.converse d) => do return .perform (.converse (← onWorld (World.runToWait d)))
  | .perform (.act f) => do return .perform (.converse (.done (← onWorld f)))
  | .script method cues result => do
    modify (addCues method cues)
    return .perform (.converse (.done result))
  | s => return s

/-- Runs a step; `inner` runs the steps within it. -/
def step (inner : Step C σ τ R → StateM (Stage C σ τ R) R) :
    Step C σ τ R → StateM (Stage C σ τ R) R
  | .perform (.converse d) => d.run (answer fun steps => steps.forM fun s => do
      let result ← inner s
      modify fun stage => { stage with nested := stage.nested ++ [result] })
  | .perform (.act f) => onWorld f
  | .script method cues result => do
    modify (addCues method cues)
    return result
  | .together steps result => do
    let before := (← get).world.log
    let started ← steps.mapM launch
    let results ← started.mapM inner
    modify fun s => { s with world := { s.world with log := before } }
    return result results

variable [Inhabited R]

/-- Runs a step with at most `depth` levels of steps within steps. -/
def stepWithin : Nat → Step C σ τ R → StateM (Stage C σ τ R) R
  | 0, _ => pure default
  | depth + 1, s => step (stepWithin depth) s

/-- Runs a step of the rehearsal itself. -/
def perform (depth : Nat) (s : Step C σ τ R) : StateM (Stage C σ τ R) (Outcome R) := do
  let recorded := (← get).world.log.events.length
  let result ← stepWithin depth s
  let stage ← get
  set { stage with nested := [] }
  return ⟨result, stage.world.log.events.drop recorded, stage.nested⟩

/-- Runs steps of the rehearsal one after the other. -/
def performAll (depth : Nat) : List (Step C σ τ R) → Stage C σ τ R → List (Outcome R)
  | [], _ => []
  | s :: rest, stage =>
    let (outcome, stage) := perform depth s stage
    outcome :: performAll depth rest stage

end Stage

variable [Add τ] [LE τ] [DecidableLE τ] [Server C σ] [Scriptable C] [Inhabited R]

/-- Runs the steps in the world, with cues that are there from the beginning. Every level of steps
within steps has a step or cue of its own, so their number bounds the levels. -/
def rehearse (world : World σ τ) (cues : Table String (List (Cue C σ τ R)))
    (steps : List (Step C σ τ R)) : List (Outcome R) :=
  let depth := 1 + Step.weights steps + Cue.weights cues.values.flatten
  Stage.performAll depth steps ⟨world, cues, []⟩

end Warrant.Rehearsal
