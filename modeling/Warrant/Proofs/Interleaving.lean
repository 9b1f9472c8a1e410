import Warrant.Proofs.Asking
import Warrant.Proofs.Sites

/-!
# Operations that run inside another one

While a remote call of an operation is pending, other operations may run from beginning to end, time
may pass, and the call may fail before or after it is carried out. A `Turn` says what becomes of one
remote call, a `Scene` is a world together with the turns to come. With nothing inside, an operation
runs as it does alone (`Scene.run_quiet`).
-/

namespace Warrant.Engine

/-- Something that happens while a remote call is pending. -/
inductive Aside (τ : Type)
  /-- An operation runs from its beginning to its end. -/
  | perform (o : Operation)
  | wait (d : τ)

/-- What becomes of a remote call. -/
inductive Fate
  | carriedOut
  /-- It fails and does nothing. -/
  | refused (f : Fault)
  /-- It is carried out, and its caller sees it fail. -/
  | cutOff (f : Fault)

/-- The fate of a remote call, and what happens just before and just after it. -/
structure Turn (τ : Type) where
  before : List (Aside τ)
  fate : Fate
  after : List (Aside τ)

/-- The turn of a call with nothing inside. -/
def Turn.bare {τ : Type} (fate : Fate) : Turn τ := ⟨[], fate, []⟩

/-- A world in the middle of an operation. -/
structure Scene (τ : Type) where
  world : World Site τ
  /-- The turns of the remote calls to come. -/
  turns : Nat → Turn τ
  /-- The sites that the operation has seen since it last dropped decisions: the one at that moment
  and the one after each remote call. -/
  since : List Site
  /-- The keys whose decision, when last kept, was no longer the verdict of the site. -/
  late : List Cache.Key
  /-- What the operations inside have failed with. -/
  faults : List Fault

/-- The verdict of the site on the key is the given decision. -/
def Site.backs (r : Resolver) (s : Site) (k : Cache.Key) (allowed : Option Bool) : Bool :=
  match s.verdict r k with
  | .ok b => decide (allowed = some b)
  | .error _ => false

theorem Site.backs_iff {r : Resolver} {s : Site} {k : Cache.Key} {allowed : Option Bool} :
    s.backs r k allowed = true ↔ ∃ b, allowed = some b ∧ s.verdict r k = .ok b := by
  rw [backs]
  cases s.verdict r k <;> simp

namespace Scene

variable {τ : Type}

/-- What a scene takes note of once a chore is done. -/
def note (E : Engine) : Chore → Scene τ → Scene τ
  | .forget _, S => { S with since := [S.world.remote] }
  | .keep k allowed, S =>
    if S.world.remote.backs E.resolver k allowed then
      { S with late := S.late.filter fun j => decide (j ≠ k) }
    else { S with late := k :: S.late }
  | _, S => S

@[simp] theorem note_world (E : Engine) (q : Chore) (S : Scene τ) : (note E q S).world = S.world := by
  unfold note
  split
  · rfl
  · split <;> rfl
  · rfl

@[simp] theorem note_turns (E : Engine) (q : Chore) (S : Scene τ) : (note E q S).turns = S.turns := by
  unfold note
  split
  · rfl
  · split <;> rfl
  · rfl

end Scene

variable {τ : Type} [Add τ] [LE τ] [DecidableLE τ]

/-- Lets an aside happen. -/
def Aside.play (E : Engine) : Aside τ → World Site τ → Except Fault Unit × World Site τ
  | perform o, w => World.run (E.perform o) w
  | wait d, w => (.ok (), w.advance d)

/-- Makes a remote call and lets it meet its fate. -/
def Fate.meet (fate : Fate) (c : Call) (w : World Site τ) : Except Fault c.Answer × World Site τ :=
  match fate with
  | carriedOut => w.call c
  | refused f => (.error f, w)
  | cutOff f => (.error f, (w.call c).2)

namespace Scene

/-- The fault of an operation that failed. -/
def faultsOf : Except Fault Unit → List Fault
  | .ok () => []
  | .error f => [f]

/-- Lets asides happen one after the other. -/
def playAll (E : Engine) : List (Aside τ) → Scene τ → Scene τ
  | [], S => S
  | a :: rest, S =>
    let (result, world) := a.play E S.world
    playAll E rest { S with world, faults := S.faults ++ faultsOf result }

/-- Answers a request of the operation; around a remote call its turn is taken. -/
def answer (E : Engine) : (q : Request Call) → StateM (Scene τ) q.Reply
  | .call c => fun S =>
    let turn := S.turns 0
    let S := playAll E turn.before { S with turns := fun n => S.turns (n + 1) }
    let (reply, world) := turn.fate.meet c S.world
    (reply, playAll E turn.after { S with world, since := S.since ++ [world.remote] })
  | .chore q => fun S =>
    let (reply, world) := World.chore q S.world
    (reply, note E q { S with world })

/-- The scene in which a call is carried out, once what comes before it has happened. -/
def upTo (E : Engine) (S : Scene τ) : Scene τ :=
  playAll E (S.turns 0).before { S with turns := fun n => S.turns (n + 1) }

theorem answer_call (E : Engine) (c : Call) (S : Scene τ) : answer E (.call c) S =
    (((S.turns 0).fate.meet c (upTo E S).world).1, playAll E (S.turns 0).after { upTo E S with
      world := ((S.turns 0).fate.meet c (upTo E S).world).2
      since := (upTo E S).since ++ [((S.turns 0).fate.meet c (upTo E S).world).2.remote] }) := rfl

theorem answer_chore (E : Engine) (q : Chore) (S : Scene τ) : answer E (.chore q) S =
    ((World.chore q S.world).1, note E q { S with world := (World.chore q S.world).2 }) := rfl

/-- Runs a procedure in the scene. -/
def run {α : Type} (E : Engine) (p : Task α) (S : Scene τ) : Except Fault α × Scene τ :=
  p.runWith (answer E) S

end Scene

/-- Runs an operation with the turns for its remote calls; `late` are the keys that were late
before. -/
def play (E : Engine) (o : Operation) (turns : Nat → Turn τ) (late : List Cache.Key)
    (w : World Site τ) : Except Fault Unit × Scene τ :=
  Scene.run E (E.perform o) ⟨w, turns, [w.remote], late, []⟩

theorem Scene.run_bind {α β : Type} {E : Engine} (p : Task α) (f : α → Task β) (S : Scene τ) :
    run E (p >>= f) S = match run E p S with
      | (.ok a, T) => run E (f a) T
      | (.error e, T) => (.error e, T) := by
  rw [run, run, Procedure.runWith_bind]
  cases p.runWith (answer E) S with
  | mk result T => cases result <;> rfl

/-- A run of two procedures goes on with the second one, or it ends with the fault of the first. -/
theorem Scene.run_bind_cases {α β : Type} {E : Engine} (p : Task α) (f : α → Task β) (S : Scene τ) :
    (∃ a T, run E p S = (.ok a, T) ∧ run E (p >>= f) S = run E (f a) T) ∨
      ∃ e T, run E p S = (.error e, T) ∧ run E (p >>= f) S = (.error e, T) := by
  rw [run_bind]
  cases run E p S with
  | mk result T =>
    cases result with
    | ok a => exact .inl ⟨a, T, rfl, rfl⟩
    | error e => exact .inr ⟨e, T, rfl, rfl⟩

theorem Scene.run_bind_of_ok {α β : Type} {E : Engine} {p : Task α} {f : α → Task β}
    {S T : Scene τ} {a : α} (h : run E p S = (.ok a, T)) : run E (p >>= f) S = run E (f a) T := by
  rw [run_bind, h]

theorem Scene.run_bind_of_error {α β : Type} {E : Engine} {p : Task α} {f : α → Task β}
    {S : Scene τ} {e : Fault} (h : (run E p S).1 = .error e) :
    run E (p >>= f) S = (.error e, (run E p S).2) := by
  rcases run_bind_cases p f S with ⟨a, T, hp, -⟩ | ⟨e', T, hp, hrun⟩
  · rw [hp] at h
    cases h
  · rw [hp] at h
    obtain rfl : e' = e := Except.error.inj h
    rw [hrun, hp]

/-- With nothing inside, an operation runs as it does alone. -/
theorem Scene.run_quiet {α : Type} {E : Engine} (p : Task α) (S : Scene τ)
    (h : ∀ n, S.turns n = Turn.bare .carriedOut) :
    (run E p S).1 = (World.run p S.world).1 ∧ (run E p S).2.world = (World.run p S.world).2 := by
  have halike : ∀ q : Request Call, True → ∀ (S : Scene τ) (w : World Site τ),
      ((∀ n, S.turns n = Turn.bare .carriedOut) ∧ S.world = w) →
      (answer E q S).1 = (World.answer q w).1 ∧
        (∀ n, (answer E q S).2.turns n = Turn.bare .carriedOut) ∧
        (answer E q S).2.world = (World.answer q w).2 := by
    rintro q - S w ⟨hS, rfl⟩
    cases q with
    | call c =>
      have hturn : S.turns 0 = ⟨[], .carriedOut, []⟩ := hS 0
      simp only [answer, hturn, playAll, Fate.meet]
      exact ⟨rfl, fun n => hS (n + 1), rfl⟩
    | chore q =>
      rw [answer_chore, note_turns, note_world]
      exact ⟨rfl, hS, rfl⟩
  have hasks : Dialogue.Asks (fun _ => True) (ExceptT.run p) := Dialogue.Asks.of_all _
  obtain ⟨hr, -, hw⟩ := hasks.run_alike halike ⟨h, rfl⟩
  exact ⟨hr, hw⟩

end Warrant.Engine
