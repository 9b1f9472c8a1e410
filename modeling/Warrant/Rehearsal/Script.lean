import Warrant.World

/-!
# Scripts

A rehearsal is a list of steps. A script tells what becomes of the next calls of a remote method:
each may be carried out, replaced by an answer or a fault, or have other steps run just before or
just after it, which stand for other tasks that run while the call is pending.
-/

namespace Warrant.Rehearsal

/-- An answer that stands in for that of a call. -/
inductive StandIn
  | flag (b : Bool)
  | names (ws : List String)
  | nothing
  deriving DecidableEq, Repr

/-- Calls whose answers can be replaced. -/
class Scriptable (C : Type) [Remote C] where
  standIn : (c : C) → StandIn → Option (Remote.Answer c)

/-- Something done in a world, with a result. -/
inductive Deed (C : Type) [Remote C] (σ τ R : Type)
  /-- A procedure is run. -/
  | converse (d : Dialogue (Request C) Request.Reply R)
  /-- The world is looked at or changed at one stroke. -/
  | act (f : World σ τ → R × World σ τ)

mutual

/-- A step of a rehearsal. -/
inductive Step (C : Type) [Remote C] (σ τ R : Type)
  | perform (d : Deed C σ τ R)
  /-- Adds cues to those for a method; the result is given. -/
  | script (method : String) (cues : List (Cue C σ τ R)) (result : R)
  /-- Starts all the steps together: each goes on to its first remote call or lock, and then, as they
  wait for one lock in this order, each runs to its end before the next one. Their events are not
  kept. -/
  | together (steps : List (Step C σ τ R)) (result : List R → R)

/-- What becomes of one call. -/
inductive Cue (C : Type) [Remote C] (σ τ R : Type)
  | pass
  | fail (f : Fault)
  | answer (a : StandIn)
  /-- The steps run before the call is carried out. -/
  | before (steps : List (Step C σ τ R))
  /-- The steps run after the call, unless it fails. -/
  | after (steps : List (Step C σ τ R))

end

section Weight

variable {C : Type} [Remote C] {σ τ R : Type}

mutual

/-- The number of steps and cues in a step, itself included. -/
def Step.weight : Step C σ τ R → Nat
  | .perform _ => 1
  | .script _ cues _ => 1 + Cue.weights cues
  | .together steps _ => 1 + Step.weights steps

/-- The number of steps and cues in a list of steps. -/
def Step.weights : List (Step C σ τ R) → Nat
  | [] => 0
  | s :: rest => s.weight + Step.weights rest

/-- The number of steps and cues in a cue, itself included. -/
def Cue.weight : Cue C σ τ R → Nat
  | .before steps => 1 + Step.weights steps
  | .after steps => 1 + Step.weights steps
  | _ => 1

/-- The number of steps and cues in a list of cues. -/
def Cue.weights : List (Cue C σ τ R) → Nat
  | [] => 0
  | c :: rest => c.weight + Cue.weights rest

end

end Weight

end Warrant.Rehearsal
