import Warrant.Proofs.Sweeping

/-!
# Errands that run side by side

A pool is a world together with the threads that are under way in it. Any thread may go on at any
moment: its next request is answered, and a remote call meets whatever fate, unless the request is for
a lock that another thread holds. What every answer to the errands keeps is kept by all schedules of
all errands (`Pool.Upholds.run`).
-/

namespace Warrant.Engine

open Procedure

/-- What a caller may ask of the engine. -/
inductive Errand
  | perform (o : Operation)
  | listRoles (p : Principal)
  | listAllRoles
  | listPrivileges (p : Principal)

/-- Runs an errand, whatever it answers. -/
def Errand.task (E : Engine) : Errand → Task Unit
  | perform o => E.perform o
  | listRoles p => do let _ ← Engine.listRoles p
  | listAllRoles => do let _ ← Engine.listAllRoles
  | listPrivileges p => do let _ ← Engine.listPrivileges p

/-- The requests of errands that change nothing but the cache and the events. -/
def Reads : Request Call → Prop
  | .call (.policy (.listPrivileges _)) | .call (.policy (.listRoles _)) => True
  | .call (.policy .listAllRoles) => True
  | q => Looks q

theorem Looks.reads {q : Request Call} (h : Looks q) : Reads q := by
  unfold Reads
  split
  · trivial
  · trivial
  · trivial
  · exact h

/-- Apart from requests that change nothing, an errand makes those of its write. -/
theorem Errand.asks {E : Engine} {P : Request Call → Prop} {errand : Errand}
    (hread : ∀ q, Reads q → P q)
    (hwrite : ∀ o, errand = .perform o → o.IsWrite → (E.perform o).Asks P) :
    (errand.task E).Asks P := by
  cases errand with
  | perform o =>
    cases o with
    | enforce e p actions => exact (asks_enforce E e p actions).mono fun q hq => hread q hq.reads
    | _ => exact hwrite _ rfl trivial
  | listRoles p =>
    exact Asks.bind (Asks.bind (asks_checkMember _ p) fun _ => Asks.call (hread _ trivial)) fun _ =>
      Asks.pure _
  | listAllRoles => exact Asks.bind (Asks.call (hread _ trivial)) fun _ => Asks.pure _
  | listPrivileges p => exact Asks.bind (Asks.call (hread _ trivial)) fun _ => Asks.pure _

/-- What is left of an errand. -/
abbrev Thread : Type := Dialogue (Request Call) Request.Reply (Except Fault Unit)

/-- A world, the threads in it and the pairs whose locks are held. -/
structure Pool (τ : Type) where
  world : World Site τ
  threads : List Thread
  locked : List Pair

/-- One step in a pool. -/
inductive Move (τ : Type)
  | start (errand : Errand)
  | wait (d : τ)
  /-- The thread of the number goes on, and the call that it makes meets the fate. -/
  | go (n : Nat) (fate : Fate)

namespace Pool

variable {τ : Type}

/-- The pool of a world in which nothing is under way. -/
def idle (world : World Site τ) : Pool τ := ⟨world, [], []⟩

variable [Add τ] [LE τ] [DecidableLE τ]

/-- Answers a request, unless it is for a lock that is held. -/
def answer? (fate : Fate) (P : Pool τ) : (q : Request Call) → Option (q.Reply × Pool τ)
  | .call c =>
    let (reply, world) := fate.meet c P.world
    some (reply, { P with world })
  | .chore (.acquire pair) =>
    if pair ∈ P.locked then none else some ((), { P with locked := pair :: P.locked })
  | .chore (.release pair) => some ((), { P with locked := P.locked.erase pair })
  | .chore q =>
    let (reply, world) := World.chore q P.world
    some (reply, { P with world })

/-- Lets a thread go on by one request; nothing happens if it has ended or must wait. -/
def go (n : Nat) (fate : Fate) (P : Pool τ) : Pool τ :=
  match P.threads[n]? with
  | some (.ask q next) =>
    match P.answer? fate q with
    | some (reply, P') => { P' with threads := P.threads.set n (next reply) }
    | none => P
  | _ => P

def step (E : Engine) : Move τ → Pool τ → Pool τ
  | .start errand, P => { P with threads := P.threads ++ [ExceptT.run (errand.task E)] }
  | .wait d, P => { P with world := P.world.advance d }
  | .go n fate, P => P.go n fate

/-- Takes the steps of a schedule, one after the other. -/
def run (E : Engine) : List (Move τ) → Pool τ → Pool τ
  | [], P => P
  | m :: rest, P => run E rest (step E m P)

/-! ### What every answer keeps -/

variable {E : Engine} {P : Pool τ} {Ok : Request Call → Prop} {I : Site → Prop}
  {J : World Site τ → Prop}

/-- Whoever is answered is answered by the world, or the call is refused, or it is about a lock; the
world is left as it is then. -/
theorem world_of_answer? {fate : Fate} {q : Request Call} {reply : q.Reply} {P' : Pool τ}
    (h : P.answer? fate q = some (reply, P')) :
    P'.world = P.world ∨ P'.world = (World.answer q P.world).2 := by
  cases q with
  | call c =>
    obtain ⟨-, rfl⟩ := Prod.mk.inj (Option.some.inj h)
    cases fate with
    | refused f => exact .inl rfl
    | carriedOut | cutOff f => exact .inr rfl
  | chore q =>
    cases q with
    | acquire pair =>
      rw [answer?] at h
      split at h
      · cases h
      · obtain ⟨-, rfl⟩ := Prod.mk.inj (Option.some.inj h)
        exact .inl rfl
    | release pair =>
      obtain ⟨-, rfl⟩ := Prod.mk.inj (Option.some.inj h)
      exact .inl rfl
    | report | find | keep | forget =>
      obtain ⟨-, rfl⟩ := Prod.mk.inj (Option.some.inj h)
      exact .inr rfl

/-- The threads request only what is in order, and the world satisfies `J`. -/
structure Upholds (Ok : Request Call → Prop) (J : World Site τ → Prop) (P : Pool τ) : Prop where
  threads : ∀ d ∈ P.threads, d.Asks Ok
  world : J P.world

namespace Upholds

omit [Add τ] [LE τ] [DecidableLE τ] in
theorem idle {w : World Site τ} (h : J w) : Upholds Ok J (Pool.idle w) :=
  ⟨fun _ hd => (by cases hd), h⟩

theorem go (h : Upholds Ok J P) (hanswer : ∀ q w, Ok q → J w → J (World.answer q w).2) (n : Nat)
    (fate : Fate) : Upholds Ok J (P.go n fate) := by
  unfold Pool.go
  split
  · rename_i q next hthread
    obtain ⟨hq, hnext⟩ := h.threads _ (List.mem_of_getElem? hthread)
    split
    · rename_i reply P' hreply
      refine ⟨fun d hd => ?_, ?_⟩
      · rcases List.mem_or_eq_of_mem_set hd with hd | rfl
        · exact h.threads d hd
        · exact hnext reply
      · show J P'.world
        rcases world_of_answer? hreply with hworld | hworld
        · exact hworld ▸ h.world
        · exact hworld ▸ hanswer q _ hq h.world
    · exact h
  · exact h

theorem step (h : Upholds Ok J P) (hanswer : ∀ q w, Ok q → J w → J (World.answer q w).2)
    (hwait : ∀ d w, J w → J (w.advance d)) {m : Move τ}
    (hstart : ∀ errand, m = .start errand → (errand.task E).Asks Ok) :
    Upholds Ok J (Pool.step E m P) := by
  cases m with
  | start errand =>
    refine ⟨fun d hd => ?_, h.world⟩
    rcases List.mem_append.mp hd with hd | hd
    · exact h.threads d hd
    · rw [List.mem_singleton.mp hd]
      exact hstart errand rfl
  | wait d => exact ⟨h.threads, hwait d _ h.world⟩
  | go n fate => exact h.go hanswer n fate

theorem run (h : Upholds Ok J P) (hanswer : ∀ q w, Ok q → J w → J (World.answer q w).2)
    (hwait : ∀ d w, J w → J (w.advance d)) {schedule : List (Move τ)}
    (hstart : ∀ errand, .start errand ∈ schedule → (errand.task E).Asks Ok) :
    Upholds Ok J (Pool.run E schedule P) := by
  induction schedule generalizing P with
  | nil => exact h
  | cons m rest ih =>
    refine ih (h.step hanswer hwait fun errand hm => ?_) fun errand hmem => ?_
    · exact hstart errand (hm ▸ List.mem_cons_self)
    · exact hstart errand (List.mem_cons_of_mem _ hmem)

end Upholds

/-- The threads request only what is in order, and the site satisfies `I`. -/
structure Obeys (Ok : Request Call → Prop) (I : Site → Prop) (P : Pool τ) : Prop where
  threads : ∀ d ∈ P.threads, d.Asks Ok
  site : I P.world.remote

namespace Obeys

omit [Add τ] [LE τ] [DecidableLE τ] in
theorem idle {w : World Site τ} (h : I w.remote) : Obeys Ok I (Pool.idle w) :=
  ⟨fun _ hd => (by cases hd), h⟩

/-- Only calls change the site. -/
theorem run (h : Obeys Ok I P) (hcall : ∀ c s, Ok (.call c) → I s → I (s.after c))
    {schedule : List (Move τ)}
    (hstart : ∀ errand, .start errand ∈ schedule → (errand.task E).Asks Ok) :
    Obeys Ok I (Pool.run E schedule P) := by
  have hupholds : Upholds Ok (fun w => I w.remote) P := ⟨h.threads, h.site⟩
  have hrun := hupholds.run (fun q w hq hw => ?_) (fun _ _ hw => hw) hstart
  · exact ⟨hrun.threads, hrun.world⟩
  · rcases remote_answer q w with hsame | ⟨c, rfl, hafter⟩
    · exact hsame ▸ hw
    · exact hafter ▸ hcall c w.remote hq hw

end Obeys

end Pool

end Warrant.Engine
