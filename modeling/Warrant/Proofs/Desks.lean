import Mathlib
import Warrant.Cache.Loader
import Warrant.Proofs.Expiry
import Warrant.Proofs.Invalidations

/-!
# A cache in use

At a `Desk`, look-ups begin, stop where they need a decision loaded and go on when the load answers,
in any order; meanwhile others begin, decisions are dropped or counted, and time passes. The desk
notes the moves themselves: which keys were looked up, which loads have answered and which scopes
were dropped. A look-up goes through few stages, and between the moves it has ended or waits for its
load (`Desk.Staged.run`).
-/

namespace Warrant.Cache

/-- What is left of a procedure that may have to load decisions. -/
abbrev Visit (β : Type) : Type := Dialogue (Request Loader.Call) Request.Reply β

/-- A cache in use, the look-ups in the order in which they began, and the notes. -/
structure Desk (τ : Type) where
  world : World Unit τ
  visits : List (Visit (Except Fault (Option Bool)))
  past : List (Note τ)

/-- What happens next at a desk. -/
inductive Move (τ : Type) [Zero τ] [LE τ]
  | get (k : Key)
  /-- A load that was begun by the look-up of this number ends. -/
  | loaded (n : Nat) (reply : Except Fault Bool)
  | drop (scope : Scope)
  | snapshot
  | count
  | wait (d : τ) (forward : 0 ≤ d)

/-- The move asks for more than an account of the cache. -/
def Move.acts {τ : Type} [Zero τ] [LE τ] : Move τ → Bool
  | snapshot | count => false
  | _ => true

variable {τ : Type}

namespace Desk

def opened (limits : Limits τ) (clock : τ) (context : Audit.Context) : Desk τ :=
  ⟨World.new limits clock context (), [], []⟩

/-- The key of the decision that the look-up of this number waits for. -/
def awaited (d : Desk τ) (n : Nat) : Option Key :=
  match d.visits[n]? with
  | some (.ask (.call (.load k)) _) => some k
  | _ => none

section Moves

variable [Add τ] [LE τ] [DecidableLE τ]

/-- Begins a look-up, and gives what is left of it and the world in which it stops. -/
def get (d : Desk τ) (k : Key) : Visit (Except Fault (Option Bool)) × World Unit τ :=
  World.runToWait (consult d.world.limits.enabled Loader.load k).run d.world

variable [Zero τ]

/-- The world and the look-ups after a move. -/
def act (d : Desk τ) : Move τ → World Unit τ × List (Visit (Except Fault (Option Bool)))
  | .get k => ((d.get k).2, d.visits ++ [(d.get k).1])
  | .loaded n reply =>
    match d.visits[n]? with
    | some (.ask (.call (.load _)) next) =>
      let (visit, world) := World.runToWait (next (reply.map some)) d.world
      (world, d.visits.set n visit)
    | _ => (d.world, d.visits)
  | .drop scope =>
    ((World.runToWait (removing scope : Procedure Loader.Call Nat).run d.world).2, d.visits)
  | .snapshot => ({ d.world with cache := (d.world.cache.snapshot d.world.clock).2 }, d.visits)
  | .count => ({ d.world with cache := (d.world.cache.count d.world.clock).2 }, d.visits)
  | .wait t _ => (d.world.advance t, d.visits)

/-- What is noted of a move that has led to the world. -/
def note (d : Desk τ) (world : World Unit τ) : Move τ → List (Note τ)
  | .get k => [.looked k (d.world.cache.counted d.world.clock k) d.world.clock]
  | .loaded n (.ok b) =>
    match d.awaited n with
    | some k => [.stored k b (d.world.cache.lost d.world.clock world.cache) d.world.clock]
    | none => []
  | .drop scope => [.dropped scope]
  | .loaded _ (.error _) | .snapshot | .count | .wait .. => []

def step (d : Desk τ) (m : Move τ) : Desk τ :=
  let (world, visits) := d.act m
  ⟨world, visits, d.note world m ++ d.past⟩

def run (d : Desk τ) (moves : List (Move τ)) : Desk τ := moves.foldl step d

theorem run_concat (d : Desk τ) (moves : List (Move τ)) (m : Move τ) :
    d.run (moves ++ [m]) = (d.run moves).step m := by
  rw [run, List.foldl_append]
  rfl

/-- The move stores a decision on the key, or drops those in a scope that means the key. -/
def Overrides (d : Desk τ) (k : Key) (m : Move τ) : Prop :=
  (∃ n b, m = .loaded n (.ok b) ∧ d.awaited n = some k) ∨ ∃ scope, m = .drop scope ∧ scope.Means k

/-- Of the loads on the key that have answered during the moves, the last one did so with the decision
and at the time, and since then nothing that means the key was dropped. -/
def LastLoad (d : Desk τ) (moves : List (Move τ)) (k : Key) (b : Bool) (t : τ) : Prop :=
  ∃ before n after, moves = before ++ .loaded n (.ok b) :: after ∧
    (d.run before).awaited n = some k ∧ (d.run before).world.clock = t ∧
    ∀ since m later, after = since ++ m :: later →
      ¬ (d.run (before ++ .loaded n (.ok b) :: since)).Overrides k m

theorem lastLoad_loaded {d : Desk τ} {moves : List (Move τ)} {k : Key} {n : Nat}
    (h : (d.run moves).awaited n = some k) (b : Bool) :
    d.LastLoad (moves ++ [.loaded n (.ok b)]) k b (d.run moves).world.clock :=
  ⟨moves, n, [], rfl, h, rfl, fun since m later hsplit => by simp at hsplit⟩

/-- A move that overrides nothing leaves the last load the last one. -/
theorem LastLoad.concat {d : Desk τ} {moves : List (Move τ)} {k : Key} {b : Bool} {t : τ}
    (h : d.LastLoad moves k b t) {m : Move τ} (hm : ¬ (d.run moves).Overrides k m) :
    d.LastLoad (moves ++ [m]) k b t := by
  obtain ⟨before, n, after, rfl, hn, ht, hafter⟩ := h
  refine ⟨before, n, after ++ [m], by simp, hn, ht, fun since m' later hsplit => ?_⟩
  rcases List.eq_nil_or_concat later with rfl | ⟨later, last, rfl⟩
  · obtain ⟨rfl, hlast⟩ := List.append_inj' hsplit rfl
    obtain rfl := List.singleton_inj.mp hlast
    exact hm
  · rw [List.concat_eq_append, ← List.cons_append, ← List.append_assoc] at hsplit
    exact hafter since m' later (List.append_inj' hsplit rfl).1

end Moves

end Desk

/-! ### The stages of a look-up -/

/-- What is left of a look-up when it has reported the fault of its load. -/
def failed (fault : Fault) : Except Fault Unit → Visit (Except Fault (Option Bool))
  | .ok () => .done (.error fault)
  | .error clash => .done (.error clash.whileHandling)

/-- What is left of a look-up when its load has answered. -/
def settle (enabled : Bool) (k : Key) :
    Except Fault (Option Bool) → Visit (Except Fault (Option Bool))
  | .ok allowed => (do
    if enabled then store k allowed
    return allowed : Procedure Loader.Call (Option Bool)).run
  | .error fault => .ask (.chore (.report (.cacheLoadFailed k fault))) (failed fault)

/-- What is left of a look-up that waits for its load. -/
def waiting (enabled : Bool) (k : Key) : Visit (Except Fault (Option Bool)) :=
  .ask (.call (.load k)) (settle enabled k)

/-- What is left of a look-up when it has reported that nothing was found. -/
def missed (k : Key) : Except Fault Unit → Visit (Except Fault (Option Bool))
  | .ok () => waiting true k
  | .error fault => .done (.error fault)

/-- What is left of a look-up when the cache was asked. -/
def followUp (k : Key) : Option Bool → Visit (Except Fault (Option Bool))
  | some allowed => .ask (.chore (.report (.cacheHit k allowed))) fun reported =>
    .done (reported.map fun _ => some allowed)
  | none => .ask (.chore (.report (.cacheMiss k))) (missed k)

/-- A look-up that does not go on by itself has ended, or it waits for its load. -/
def Visit.Stops (enabled : Bool) (v : Visit (Except Fault (Option Bool))) : Prop :=
  (∃ r, v = .done r) ∨ ∃ k, v = waiting enabled k

theorem consult_off (k : Key) : (consult false Loader.load k).run = waiting false k := by
  refine congrArg (Dialogue.ask _) (funext fun reply => ?_)
  cases (reply : Except Fault (Option Bool)) with
  | ok allowed => rfl
  | error fault =>
    refine congrArg (Dialogue.ask _) (funext fun reported => ?_)
    cases (reported : Except Fault Unit) <;> rfl

theorem consult_on (k : Key) :
    (consult true Loader.load k).run = .ask (.chore (.find k)) (followUp k) := by
  refine congrArg (Dialogue.ask _) (funext fun found => ?_)
  cases (found : Option Bool) with
  | some allowed =>
    refine congrArg (Dialogue.ask _) (funext fun reported => ?_)
    cases (reported : Except Fault Unit) <;> rfl
  | none =>
    refine congrArg (Dialogue.ask _) (funext fun reported => ?_)
    cases (reported : Except Fault Unit) with
    | error fault => rfl
    | ok _ =>
      refine congrArg (Dialogue.ask _) (funext fun reply => ?_)
      cases (reply : Except Fault (Option Bool)) with
      | ok allowed => rfl
      | error fault =>
        refine congrArg (Dialogue.ask _) (funext fun reported => ?_)
        cases (reported : Except Fault Unit) <;> rfl

/-- How a look-up ends if its load fails: the failure is reported, and goes on unless the report fails. -/
def failing (k : Key) (f : Fault) (context : Audit.Context) : Fault :=
  match context.clash? (.cacheLoadFailed k f) with
  | some field => (Fault.fieldClash field).whileHandling
  | none => f

namespace Desk

/-- What the request asks for may be answered without counting what is dropped. -/
def Uncounted (q : Request Loader.Call) : Prop := ∀ scope, q ≠ .chore (.forget scope)

theorem asks_settle (enabled : Bool) (k : Key) (reply : Except Fault (Option Bool)) :
    (settle enabled k reply).Asks Uncounted := by
  cases reply with
  | error fault => exact ⟨nofun, fun reported => by cases reported <;> trivial⟩
  | ok allowed =>
    cases enabled with
    | false => trivial
    | true =>
      have hstore : (store k allowed : Procedure Loader.Call Unit).Asks Uncounted :=
        .bind (.ask nofun) (.reports fun _ => nofun)
      exact hstore.bind fun _ => .pure _

theorem asks_waiting (enabled : Bool) (k : Key) : (waiting enabled k).Asks Uncounted :=
  ⟨nofun, asks_settle enabled k⟩

theorem asks_consult (enabled : Bool) (k : Key) :
    (consult enabled Loader.load k).run.Asks Uncounted := by
  cases enabled with
  | false =>
    rw [consult_off]
    exact asks_waiting false k
  | true =>
    rw [consult_on]
    refine ⟨nofun, fun found => ?_⟩
    cases (found : Option Bool) with
    | some allowed => exact ⟨nofun, fun _ => trivial⟩
    | none =>
      refine ⟨nofun, fun reported => ?_⟩
      cases (reported : Except Fault Unit) with
      | ok _ => exact asks_waiting true k
      | error fault => trivial

section Acts

variable [Add τ] [LE τ] [DecidableLE τ] {d : Desk τ} {w : World Unit τ} {k : Key} {b : Bool}
  {n : Nat}

/-- What only reports ends at once and leaves everything but the events. -/
theorem runToWait_reports {β : Type} {x : Visit β} (hx : x.Asks fun q => ∃ e, q = .chore (.report e))
    (w : World Unit τ) : ∃ r log, log.context = w.log.context ∧
      World.runToWait x w = (.done r, { w with log }) := by
  induction x generalizing w with
  | done r => exact ⟨r, w.log, rfl, rfl⟩
  | ask q next ih =>
    obtain ⟨e, rfl⟩ := hx.1
    obtain ⟨r, log, hlog, hrun⟩ := ih _ (hx.2 _) { w with log := (w.log.record e).2 }
    exact ⟨r, log, hlog.trans (w.log.context_record e), hrun⟩

/-- A look-up that finds a decision ends at once, with the decision unless reporting it fails. -/
theorem get_found (hroom : 0 < d.world.limits.maxEntries)
    (hfound : (d.world.cache.find d.world.clock k).1 = some b) :
    d.get k = (.done ((d.world.log.context.reply (.cacheHit k b)).map fun _ => some b),
      { d.world with
        cache := (d.world.cache.find d.world.clock k).2
        log := (d.world.log.record (.cacheHit k b)).2 }) := by
  rw [get, Limits.enabled, decide_eq_true hroom, consult_on, ← d.world.log.record_reply]
  show World.runToWait (followUp k (d.world.cache.find d.world.clock k).1) _ = _
  rw [hfound]
  rfl

/-- A look-up that finds none waits for its load, unless reporting it fails. -/
theorem get_missing (hroom : 0 < d.world.limits.maxEntries)
    (hfound : (d.world.cache.find d.world.clock k).1 = none) :
    d.get k = (missed k (d.world.log.context.reply (.cacheMiss k)),
      { d.world with
        cache := (d.world.cache.find d.world.clock k).2
        log := (d.world.log.record (.cacheMiss k)).2 }) := by
  rw [get, Limits.enabled, decide_eq_true hroom, consult_on, ← d.world.log.record_reply]
  show World.runToWait (followUp k (d.world.cache.find d.world.clock k).1) _ = _
  rw [hfound]
  show World.runToWait (missed k (d.world.log.record (.cacheMiss k)).1) _ = _
  cases (d.world.log.record (.cacheMiss k)).1 <;> rfl

theorem get_off {d : Desk τ} (hroom : d.world.limits.maxEntries = 0) (k : Key) :
    d.get k = (waiting false k, d.world) := by
  rw [get, Limits.enabled, hroom]
  show World.runToWait (consult false Loader.load k).run d.world = _
  rw [consult_off]
  rfl

/-- What a look-up does to the cache before it stops. -/
theorem get_stops (d : Desk τ) (k : Key) : (d.get k).1.Stops d.world.limits.enabled ∧
    ∃ log, log.context = d.world.log.context ∧ (d.get k).2 = { d.world with
      cache := if d.world.limits.enabled then (d.world.cache.find d.world.clock k).2
        else d.world.cache
      log } := by
  rcases Nat.eq_zero_or_pos d.world.limits.maxEntries with hroom | hroom
  · have hoff : d.world.limits.enabled = false := by rw [Limits.enabled, hroom]; rfl
    rw [get_off hroom, hoff]
    exact ⟨.inr ⟨k, rfl⟩, d.world.log, rfl, rfl⟩
  · have hon : d.world.limits.enabled = true := decide_eq_true hroom
    rw [hon]
    cases hfound : (d.world.cache.find d.world.clock k).1 with
    | some b =>
      rw [get_found hroom hfound]
      exact ⟨.inl ⟨_, rfl⟩, _, d.world.log.context_record _, rfl⟩
    | none =>
      rw [get_missing hroom hfound]
      refine ⟨?_, _, d.world.log.context_record _, rfl⟩
      cases d.world.log.context.reply (.cacheMiss k) with
      | ok _ => exact .inr ⟨k, rfl⟩
      | error fault => exact .inl ⟨_, rfl⟩

/-- A decision that was loaded is kept. -/
theorem settle_ok (k : Key) (b : Bool) (w : World Unit τ) : ∃ r log,
    log.context = w.log.context ∧ World.runToWait (settle true k (.ok (some b))) w =
      (.done r, { w with cache := (w.cache.keep w.limits w.clock k (some b)).2, log }) := by
  have hreports : ∀ evicted : List Key, ((do
      evicted.forM fun j => Procedure.report (.entryEvicted j)
      return some b : Procedure Loader.Call (Option Bool)).run).Asks
        fun q => ∃ e, q = .chore (.report e) := fun evicted =>
    Procedure.Asks.bind (.reports (fun _ => ⟨_, rfl⟩) evicted) fun _ => .pure _
  exact runToWait_reports (hreports (w.cache.keep w.limits w.clock k (some b)).1)
    { w with cache := (w.cache.keep w.limits w.clock k (some b)).2 }

theorem settle_error (enabled : Bool) (k : Key) (f : Fault) (w : World Unit τ) :
    World.runToWait (settle enabled k (.error f)) w =
      (.done (.error (failing k f w.log.context)),
        { w with log := (w.log.record (.cacheLoadFailed k f)).2 }) := by
  show World.runToWait (failed f (w.log.record (.cacheLoadFailed k f)).1)
    { w with log := (w.log.record (.cacheLoadFailed k f)).2 } = _
  rw [failing, Audit.Log.record]
  cases w.log.context.clash? (.cacheLoadFailed k f) <;> rfl

/-- Dropping decisions does nothing else but report it. -/
theorem removing_eq (scope : Scope) (w : World Unit τ) : ∃ log, log.context = w.log.context ∧
    (World.runToWait (removing scope : Procedure Loader.Call Nat).run w).2 =
      { w with cache := (w.cache.forget scope).2, log } := by
  have hreport : ∀ e : Nat → Audit.Event, ∃ log, log.context = w.log.context ∧
      (World.runToWait (do
        let n ← Procedure.ask (.forget scope)
        Procedure.report (e n)
        return n : Procedure Loader.Call Nat).run w).2 =
      { w with cache := (w.cache.forget scope).2, log } := by
    intro e
    have hasks : ∀ n : Nat, (do
        Procedure.report (e n)
        return n : Procedure Loader.Call Nat).run.Asks fun q => ∃ e, q = .chore (.report e) :=
      fun n => Procedure.Asks.bind (.report ⟨_, rfl⟩) fun _ => .pure n
    obtain ⟨r, log, hlog, hrun⟩ := runToWait_reports (hasks (w.cache.forget scope).1)
      { w with cache := (w.cache.forget scope).2 }
    exact ⟨log, hlog, congrArg Prod.snd hrun⟩
  cases scope with
  | key k => exact ⟨w.log, rfl, rfl⟩
  | entity e => exact hreport fun n => .entriesInvalidated e.text n
  | subtree e => exact hreport fun n => .entriesInvalidated e.text n
  | everything => exact hreport fun n => .cacheCleared n

variable [Zero τ]

theorem act_loaded {next : Except Fault (Option Bool) → Visit (Except Fault (Option Bool))}
    (h : d.visits[n]? = some (.ask (.call (.load k)) next)) (reply : Except Fault Bool) :
    d.act (.loaded n reply) = ((World.runToWait (next (reply.map some)) d.world).2,
      d.visits.set n (World.runToWait (next (reply.map some)) d.world).1) := by
  rw [act, h]
  rfl

/-- No load ends but one that has begun. -/
theorem act_idle (h : d.awaited n = none) (reply : Except Fault Bool) :
    d.act (.loaded n reply) = (d.world, d.visits) := by
  rw [act]
  split
  · rename_i k next hn
    rw [awaited, hn] at h
    cases h
  · rfl

omit [Add τ] in
theorem note_stored (h : d.awaited n = some k) (w : World Unit τ) (b : Bool) :
    d.note w (.loaded n (.ok b)) =
      [.stored k b (d.world.cache.lost d.world.clock w.cache) d.world.clock] := by
  rw [note, h]

/-- Every look-up has ended or waits for its load. -/
def Staged (d : Desk τ) : Prop := ∀ v ∈ d.visits, Visit.Stops d.world.limits.enabled v

omit [Add τ] [LE τ] [DecidableLE τ] [Zero τ] in
theorem Staged.awaited_cases (h : d.Staged) (n : Nat) : d.awaited n = none ∨
    ∃ k, d.awaited n = some k ∧ d.visits[n]? = some (waiting d.world.limits.enabled k) := by
  cases hn : d.visits[n]? with
  | none => exact .inl (by rw [awaited, hn])
  | some v =>
    rcases h v (List.mem_of_getElem? hn) with ⟨r, rfl⟩ | ⟨k, rfl⟩
    · exact .inl (by rw [awaited, hn])
    · exact .inr ⟨k, by rw [awaited, hn]; rfl, rfl⟩

omit [Zero τ] in
theorem settle_ends (enabled : Bool) (k : Key) (reply : Except Fault Bool) (w : World Unit τ) :
    ∃ r cache log, World.runToWait (settle enabled k (reply.map some)) w =
      (.done r, { w with cache, log }) := by
  cases reply with
  | error f => exact ⟨_, w.cache, _, settle_error enabled k f w⟩
  | ok b =>
    cases enabled with
    | false => exact ⟨.ok (some b), w.cache, w.log, rfl⟩
    | true =>
      obtain ⟨r, log, -, hrun⟩ := settle_ok k b w
      exact ⟨r, _, log, hrun⟩

omit [Add τ] [LE τ] [DecidableLE τ] [Zero τ] in
theorem Staged.of_visits {d e : Desk τ} (h : d.Staged) (hlimits : e.world.limits = d.world.limits)
    (hvisits : ∀ v ∈ e.visits, v ∈ d.visits ∨ Visit.Stops d.world.limits.enabled v) : e.Staged := by
  intro v hv
  rw [hlimits]
  exact (hvisits v hv).elim (h v) id

/-- A load that ends changes the cache and the events, and no look-up but its own, which ends too. -/
theorem Staged.act_loaded_eq (h : d.Staged) (n : Nat) (reply : Except Fault Bool) :
    ∃ cache log visits, d.act (.loaded n reply) = ({ d.world with cache, log }, visits) ∧
      ∀ v ∈ visits, v ∈ d.visits ∨ ∃ r, v = .done r := by
  rcases h.awaited_cases n with hidle | ⟨k, -, hn⟩
  · exact ⟨_, _, _, act_idle hidle reply, fun _ hv => .inl hv⟩
  · obtain ⟨r, cache, log, hrun⟩ := settle_ends d.world.limits.enabled k reply d.world
    refine ⟨cache, log, d.visits.set n (.done r), by rw [act_loaded hn reply, hrun], fun v hv => ?_⟩
    exact (List.mem_or_eq_of_mem_set hv).imp id fun hv => ⟨r, hv⟩

theorem Staged.step (h : d.Staged) (m : Move τ) : (d.step m).Staged := by
  cases m with
  | get k =>
    obtain ⟨hstops, log, -, hworld⟩ := get_stops d k
    have hlimits : (d.get k).2.limits = d.world.limits := by rw [hworld]
    refine h.of_visits hlimits fun v hv => (List.mem_append.mp hv).imp id fun hv => ?_
    rwa [List.mem_singleton.mp hv]
  | loaded n reply =>
    obtain ⟨cache, log, visits, hact, hvisits⟩ := h.act_loaded_eq n reply
    rw [Desk.step, hact]
    exact h.of_visits rfl fun v hv => (hvisits v hv).imp id .inl
  | drop scope =>
    obtain ⟨log, -, hworld⟩ := removing_eq scope d.world
    rw [Desk.step, act, hworld]
    exact h.of_visits rfl fun v hv => .inl hv
  | snapshot | count | wait => exact h

theorem Staged.run (h : d.Staged) (moves : List (Move τ)) : (d.run moves).Staged := by
  induction moves generalizing d with
  | nil => exact h
  | cons m moves ih => exact ih (h.step m)

end Acts

theorem staged_opened (limits : Limits τ) (clock : τ) (context : Audit.Context) :
    (opened limits clock context).Staged := fun _ h => nomatch h

end Desk

end Warrant.Cache
