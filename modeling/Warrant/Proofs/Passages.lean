import Warrant.Proofs.Writes

/-!
# Tasks in a world that answers anything

A backend that may answer anything (`Oracle`), and time that goes on between the requests as it likes
(`Passage`). Whatever a task does, the service, its limits and the course of time stay the same
(`later_run`); a task that only reports changes nothing else (`idle_run`).
-/

namespace Warrant.Engine

open Procedure

/-- A remote service that may answer anything: what it answers depends on all that it was asked
before. -/
structure Oracle where
  reply : List Call → (c : Call) → Except Fault c.Answer
  asked : List Call

instance : Server Call Oracle :=
  ⟨fun c s => ({ s with asked := s.asked ++ [c] }, ExceptT.mk fun x => (s.reply s.asked c, x))⟩

/-- A world in which time goes on between the requests. -/
structure Passage (τ : Type) where
  world : World Oracle τ
  /-- The time that passes before each of the requests to come. -/
  delays : Nat → τ

variable {τ : Type} [Add τ]

namespace Passage

/-- Lets the time pass that passes before the next request. -/
def wait (S : Passage τ) : Passage τ := ⟨S.world.advance (S.delays 0), fun n => S.delays (n + 1)⟩

/-- What the clock shows when the request of the number is made; the first one has number 1. -/
def clockAt : Nat → Passage τ → τ
  | 0, S => S.world.clock
  | n + 1, S => S.wait.clockAt n

variable [LE τ] [DecidableLE τ]

/-- Answers a request, at its time. -/
def answer (q : Request Call) : StateM (Passage τ) q.Reply := fun S =>
  let (reply, world) := World.answer q S.wait.world
  (reply, { S.wait with world })

def run {α : Type} (p : Task α) (S : Passage τ) : Except Fault α × Passage τ := p.runWith answer S

end Passage

/-! ### What goes on from one state to a later one -/

/-- The same service under the same limits, later. -/
structure Later (S T : Passage τ) : Prop where
  time : ∃ n, ∀ m, T.clockAt m = S.clockAt (n + m)
  limits : T.world.limits = S.world.limits
  context : T.world.log.context = S.world.log.context
  reply : T.world.remote.reply = S.world.remote.reply

/-- Nothing but time has passed, and events have been recorded. -/
structure Idle (S T : Passage τ) : Prop where
  cache : T.world.cache = S.world.cache
  asked : T.world.remote.asked = S.world.remote.asked
  later : Later S T

section

variable {S T U : Passage τ}

theorem Later.refl (S : Passage τ) : Later S S := ⟨⟨0, fun m => by rw [Nat.zero_add]⟩, rfl, rfl, rfl⟩

theorem Later.trans (h : Later S T) (h' : Later T U) : Later S U := by
  obtain ⟨n, hn⟩ := h.time
  obtain ⟨n', hn'⟩ := h'.time
  refine ⟨⟨n + n', fun m => ?_⟩, h'.limits.trans h.limits, h'.context.trans h.context,
    h'.reply.trans h.reply⟩
  rw [hn', hn, Nat.add_assoc]

theorem Idle.refl (S : Passage τ) : Idle S S := ⟨rfl, rfl, .refl S⟩

theorem Idle.trans (h : Idle S T) (h' : Idle T U) : Idle S U :=
  ⟨h'.cache.trans h.cache, h'.asked.trans h.asked, h.later.trans h'.later⟩

theorem Passage.clockAt_congr (hclock : T.world.clock = S.world.clock) (hdelays : T.delays = S.delays)
    (n : Nat) : T.clockAt n = S.clockAt n := by
  induction n generalizing S T with
  | zero => exact hclock
  | succ n ih =>
    refine ih ?_ ?_
    · show T.world.clock + T.delays 0 = S.world.clock + S.delays 0
      rw [hclock, hdelays]
    · show (fun n => T.delays (n + 1)) = fun n => S.delays (n + 1)
      rw [hdelays]

variable [LE τ] [DecidableLE τ]

/-- Every request takes its time and no more. -/
theorem clockAt_answer (q : Request Call) (S : Passage τ) (n : Nat) :
    (Passage.answer q S).2.clockAt n = S.clockAt (n + 1) := by
  refine Passage.clockAt_congr (S := S.wait) (T := (Passage.answer q S).2) ?_ rfl n
  cases q with
  | call c => rfl
  | chore q => exact (World.chore_beside q S.wait.world).clock

theorem later_answer (q : Request Call) (S : Passage τ) : Later S (Passage.answer q S).2 := by
  have htime : ∃ n, ∀ m, (Passage.answer q S).2.clockAt m = S.clockAt (n + m) :=
    ⟨1, fun m => by rw [clockAt_answer, Nat.add_comm]⟩
  cases q with
  | call c => exact ⟨htime, rfl, rfl, rfl⟩
  | chore q =>
    obtain ⟨hremote, hlimits, -, hcontext⟩ := World.chore_beside q S.wait.world
    exact ⟨htime, hlimits, hcontext, congrArg Oracle.reply hremote⟩

variable {α β : Type}

theorem later_run (p : Task α) (S : Passage τ) : Later S (S.run p).2 := by
  have hall : Dialogue.Asks (fun _ => True) (ExceptT.run p) := Dialogue.Asks.of_all _
  exact hall.run_keeps (I := Later S) (fun q _ T hT => hT.trans (later_answer q T)) (.refl S)

theorem later_of_run {p : Task α} {x : Except Fault α} (h : S.run p = (x, T)) : Later S T := by
  have hlater := later_run p S
  rwa [h] at hlater

theorem idle_answer {q : Request Call} (hq : Reports q) (S : Passage τ) :
    Idle S (Passage.answer q S).2 := by
  cases q with
  | call c => exact hq.elim
  | chore q =>
    cases q with
    | report event => exact ⟨rfl, rfl, later_answer _ S⟩
    | _ => exact hq.elim

/-- What only reports changes nothing else. -/
theorem idle_run {p : Task α} (hp : p.Asks Reports) (S : Passage τ) : Idle S (S.run p).2 :=
  Dialogue.Asks.run_keeps (I := Idle S) (fun _ hq T hT => hT.trans (idle_answer hq T)) hp (.refl S)

theorem Passage.run_bind (p : Task α) (f : α → Task β) (S : Passage τ) :
    S.run (p >>= f) = match S.run p with
      | (.ok a, T) => T.run (f a)
      | (.error e, T) => (.error e, T) := by
  rw [run, run, runWith_bind]
  cases p.runWith answer S with
  | mk result T => cases result <;> rfl

theorem Passage.run_bind_of_ok {p : Task α} {f : α → Task β} {a : α} (h : S.run p = (.ok a, T)) :
    S.run (p >>= f) = T.run (f a) := by
  rw [run_bind, h]

theorem Passage.run_bind_of_error {p : Task α} {f : α → Task β} {fault : Fault}
    (h : S.run p = (.error fault, T)) : S.run (p >>= f) = (.error fault, T) := by
  rw [run_bind, h]

theorem Passage.run_report (hq : S.world.log.context.Quiet) (event : Audit.Event) :
    ∃ T, S.run (report event : Task Unit) = (.ok (), T) ∧ Idle S T ∧
      ∀ n, T.clockAt n = S.clockAt (n + 1) := by
  exact ⟨_, Prod.ext (Audit.Log.record_eq_ok (hq event)) rfl, idle_run (Asks.report trivial) S,
    clockAt_answer (.chore (.report event)) S⟩

theorem Passage.run_reports (events : β → Audit.Event) (hq : S.world.log.context.Quiet) (l : List β) :
    ∃ T, S.run (l.forM fun b => report (events b) : Task Unit) = (.ok (), T) ∧ Idle S T := by
  induction l generalizing S with
  | nil => exact ⟨S, rfl, .refl S⟩
  | cons b l ih =>
    obtain ⟨T, hT, hidle, -⟩ := Passage.run_report hq (events b)
    obtain ⟨U, hU, hidle'⟩ := ih (S := T) (by rwa [hidle.later.context])
    refine ⟨U, ?_, hidle.trans hidle'⟩
    show S.run (report (events b) >>= fun _ => l.forM fun b => report (events b)) = _
    rw [Passage.run_bind_of_ok hT, hU]

/-- A fault that is reported goes on. -/
theorem Passage.run_onFault {p : Task α} {x : Except Fault α} (h : S.run p = (x, T))
    (hq : S.world.log.context.Quiet) (event : Fault → Audit.Event) :
    ∃ U, S.run (p.onFault fun f => report (event f)) = (x, U) ∧ Idle T U ∧
      ((∃ a, x = .ok a) → U = T) := by
  have hrun : S.run (p.onFault fun f => report (event f)) = _ := runWith_onFault p _ S
  rw [show p.runWith Passage.answer S = (x, T) from h] at hrun
  cases x with
  | ok a => exact ⟨T, hrun, .refl T, fun _ => rfl⟩
  | error fault =>
    have hquiet : T.world.log.context.Quiet := by rwa [(later_of_run h).context]
    obtain ⟨U, hU, hidle, -⟩ := Passage.run_report hquiet (event fault)
    dsimp only at hrun
    rw [show (report (event fault) : Task Unit).runWith Passage.answer T = (.ok (), U) from hU] at hrun
    exact ⟨U, hrun, hidle, fun ⟨a, ha⟩ => by cases ha⟩

end

end Warrant.Engine
