import Mathlib
import Warrant.Proofs.Bounds

/-!
# Loads that fail

A look-up whose load fails leaves a desk at which everything goes on as at one without the look-up
(`Desk.failed_load_leaves_no_trace`): the desks are alike once the look-up, which has ended, is taken off
the list (`Desk.alike_failed`), and the other look-ups do not mind that it is on the list
(`Desk.run_withEnded`).
-/

namespace Warrant.Cache

section Find

variable {τ : Type} [LinearOrder τ] {c : Cache τ} {now : τ} {k : Key}

/-- A look-up that finds nothing drops at most an expired decision. -/
theorem find_none_prune (hmade : ∀ slot, c.slots.get? k = some slot → slot.allowed ≠ none)
    (hnone : (c.find now k).1 = none) : (c.find now k).2.prune now = c.prune now := by
  have hgone : ∀ slot, c.slots.get? k = some slot → slot.isExpired now = true := by
    intro slot hs
    cases hx : slot.isExpired now with
    | true => rfl
    | false =>
      rw [find_counting hs hx] at hnone
      exact absurd hnone (hmade slot hs)
  rw [find_gone hgone, prune_erase_of_expired hgone]

end Find

variable {τ : Type}

/-- The same move when one more look-up has the number `p`. -/
def Move.shift [Zero τ] [LE τ] (p : Nat) : Move τ → Move τ
  | .loaded n reply => .loaded (if n < p then n else n + 1) reply
  | m => m

namespace Desk

/-! ### Look-ups that have ended -/

section Ended

variable {d : Desk τ} {p : Nat} {r : Except Fault (Option Bool)}

/-- The desk with one more look-up, which has ended, in place `p`. -/
def withEnded (p : Nat) (r : Except Fault (Option Bool)) (d : Desk τ) : Desk τ :=
  { d with visits := d.visits.insertIdx p (.done r) }

/-- What goes on is not what has ended. -/
theorem pending_withEnded (p n : Nat) (r : Except Fault (Option Bool)) (d : Desk τ) :
    (d.withEnded p r).visits[if n < p then n else n + 1]? = d.visits[n]? := by
  rw [withEnded, List.getElem?_insertIdx]
  grind

variable [Add τ] [LE τ] [DecidableLE τ] [Zero τ]

theorem length_act (d : Desk τ) (m : Move τ) : d.visits.length ≤ (d.act m).2.length := by
  cases m with
  | get k => simp only [act, List.length_append, Nat.le_add_right]
  | loaded n reply =>
    rw [act]
    split
    · exact Nat.le_of_eq List.length_set.symm
    · exact le_refl d.visits.length
  | drop | snapshot | count | wait => exact le_refl d.visits.length

/-- A look-up that has ended is out of the way of every move. -/
theorem act_withEnded (hp : p ≤ d.visits.length) (m : Move τ) :
    (d.withEnded p r).act (m.shift p) = ((d.act m).1, (d.act m).2.insertIdx p (.done r)) := by
  cases m with
  | get k =>
    have hvisits : d.visits.insertIdx p (.done r) ++ [(d.get k).1] =
        (d.visits ++ [(d.get k).1]).insertIdx p (.done r) := by
      apply List.ext_getElem?
      intro i
      grind
    exact congrArg (Prod.mk _) hvisits
  | loaded n reply =>
    have hpending := pending_withEnded p n r d
    have hvisits : ∀ v, (d.visits.insertIdx p (.done r)).set (if n < p then n else n + 1) v =
        (d.visits.set n v).insertIdx p (.done r) := by
      intro v
      apply List.ext_getElem?
      intro i
      grind
    rw [Move.shift, act, act, hpending]
    split
    · exact congrArg (Prod.mk _) (hvisits _)
    · rfl
  | drop | snapshot | count | wait => rfl

omit [Add τ] in
theorem note_withEnded (p : Nat) (r : Except Fault (Option Bool)) (d : Desk τ) (w : World Unit τ)
    (m : Move τ) : (d.withEnded p r).note w (m.shift p) = d.note w m := by
  cases m with
  | get | drop | snapshot | count | wait => rfl
  | loaded n reply =>
    cases reply with
    | error f => rfl
    | ok b =>
      have hawaited : (d.withEnded p r).awaited (if n < p then n else n + 1) = d.awaited n := by
        rw [awaited, awaited, pending_withEnded]
      rw [Move.shift, note, note, hawaited]
      rfl

theorem step_withEnded (hp : p ≤ d.visits.length) (m : Move τ) :
    (d.withEnded p r).step (m.shift p) = (d.step m).withEnded p r := by
  rw [step, act_withEnded hp]
  dsimp only
  rw [note_withEnded]
  rfl

theorem run_withEnded (hp : p ≤ d.visits.length) (moves : List (Move τ)) :
    (d.withEnded p r).run (moves.map (Move.shift p)) = (d.run moves).withEnded p r := by
  induction moves generalizing d with
  | nil => rfl
  | cons m moves ih =>
    show ((d.withEnded p r).step (m.shift p)).run (moves.map (Move.shift p)) = _
    rw [step_withEnded hp]
    exact ih (hp.trans (length_act d m))

end Ended

/-! ### Look-ups whose load fails -/

section Failing

variable [Add τ] [LE τ] [DecidableLE τ] {d : Desk τ} {j k : Key}
  {next : Except Fault (Option Bool) → Visit (Except Fault (Option Bool))}

/-- A look-up that finds nothing and can say so waits for its load. -/
theorem waits_of_none (hroom : 0 < d.world.limits.maxEntries)
    (hnone : (d.world.cache.find d.world.clock k).1 = none)
    (hquiet : d.world.log.context.clash? (.cacheMiss k) = none) :
    ∃ next, (d.get k).1 = .ask (.call (.load k)) next := by
  rw [get_missing hroom hnone, ← d.world.log.record_reply, Audit.Log.record_eq_ok hquiet]
  exact ⟨_, rfl⟩

/-- A look-up that waits for a load has found nothing, if it has looked into the cache at all, and has
done nothing else. -/
theorem get_waiting (hload : (d.get k).1 = .ask (.call (.load j)) next) :
    (d.get k).1 = waiting d.world.limits.enabled k ∧
      (d.world.limits.maxEntries = 0 ∧ (d.get k).2 = d.world ∨ 0 < d.world.limits.maxEntries ∧
        (d.world.cache.find d.world.clock k).1 = none ∧
        (d.get k).2 = { d.world with
          cache := (d.world.cache.find d.world.clock k).2
          log := (d.world.log.record (.cacheMiss k)).2 }) := by
  rcases Nat.eq_zero_or_pos d.world.limits.maxEntries with hroom | hroom
  · have hoff : d.world.limits.enabled = false := by rw [Limits.enabled, hroom]; rfl
    rw [get_off hroom, hoff]
    exact ⟨rfl, .inl ⟨hroom, rfl⟩⟩
  · have hon : d.world.limits.enabled = true := decide_eq_true hroom
    cases hfound : (d.world.cache.find d.world.clock k).1 with
    | some b =>
      rw [get_found hroom hfound] at hload
      cases hload
    | none =>
      rw [get_missing hroom hfound] at hload ⊢
      cases hmiss : d.world.log.context.reply (.cacheMiss k) with
      | error g =>
        rw [hmiss] at hload
        cases hload
      | ok _ =>
        rw [hon]
        exact ⟨rfl, .inr ⟨hroom, rfl, rfl⟩⟩

end Failing

section Trace

variable [AddCommGroup τ] [LinearOrder τ] {d : Desk τ} {j k : Key}
  {next : Except Fault (Option Bool) → Visit (Except Fault (Option Bool))}

theorem level_get (hmade : 0 < d.world.limits.maxEntries →
      ∀ slot, d.world.Holds k slot → slot.allowed ≠ none)
    (hload : (d.get k).1 = .ask (.call (.load j)) next) : World.Level d.world (d.get k).2 := by
  obtain ⟨-, ⟨-, hget⟩ | ⟨hroom, hnone, hget⟩⟩ := get_waiting hload
  · rw [hget]
    exact .refl d.world
  · rw [hget]
    have hfind : World.Level d.world { d.world with
        cache := (d.world.cache.find d.world.clock k).2 } :=
      ⟨⟨rfl, rfl, rfl, rfl⟩, find_none_prune (hmade hroom) hnone⟩
    exact hfind.record (.cacheMiss k)

/-- After a look-up whose load has failed everything goes on as without it. -/
theorem alike_failed (hlast : 0 < d.world.limits.lifetime) (hstaged : d.Staged)
    (hmade : 0 < d.world.limits.maxEntries →
      ∀ slot, d.world.Holds k slot → slot.allowed ≠ none)
    (hload : (d.get k).1 = .ask (.call (.load j)) next) (f : Fault) :
    ∃ e : Desk τ, d.run [.get k, .loaded d.visits.length (.error f)] =
        e.withEnded d.visits.length (.error (failing k f d.world.log.context)) ∧
      Alike d.past e.past d e ∧
      e.past = .looked k (d.world.cache.counted d.world.clock k) d.world.clock :: d.past := by
  have hlevel := level_get hmade hload
  obtain ⟨hwaits, -⟩ := get_waiting hload
  have hn : (d.step (.get k)).visits[d.visits.length]? =
      some (waiting d.world.limits.enabled k) := by
    rw [← hwaits]
    exact List.getElem?_concat_length
  refine ⟨⟨{ (d.get k).2 with log := ((d.get k).2.log.record (.cacheLoadFailed k f)).2 }, d.visits,
    .looked k (d.world.cache.counted d.world.clock k) d.world.clock :: d.past⟩, ?_,
    ⟨hlevel.record _, hlast, ⟨[], rfl, rfl⟩, rfl, hstaged⟩, rfl⟩
  have hended : (d.visits ++ [(d.get k).1]).set d.visits.length
      (.done (.error (failing k f d.world.log.context))) =
      d.visits.insertIdx d.visits.length (.done (.error (failing k f d.world.log.context))) := by
    rw [List.insertIdx_length_self]
    simp
  show (d.step (.get k)).step (.loaded d.visits.length (.error f)) = _
  rw [step, act_loaded hn, show (Except.error f).map some = (.error f : Except Fault (Option Bool))
    from rfl, settle_error, withEnded, ← hended, ← hlevel.context]
  rfl

end Trace

variable [AddCommGroup τ] [LinearOrder τ] [IsOrderedAddMonoid τ] {limits : Limits τ} {k j : Key}
  {next : Except Fault (Option Bool) → Visit (Except Fault (Option Bool))}

/-- Where a look-up waits for its load no decision counts. -/
theorem counted_of_waiting (limits : Limits τ) (clock : τ) (context : Audit.Context)
    (moves : List (Move τ))
    (hload : (((opened limits clock context).run moves).get k).1 = .ask (.call (.load j)) next) :
    ((opened limits clock context).run moves).world.cache.counted
      ((opened limits clock context).run moves).world.clock k = none := by
  obtain ⟨-, ⟨hroom, -⟩ | ⟨-, hnone, -⟩⟩ := get_waiting hload
  · have hbounded := (lasts_bounded limits).run (d := opened limits clock context)
      (.new limits clock context ()) moves
    rw [hbounded.same_limits] at hroom
    have hempty : ((opened limits clock context).run moves).world.cache.slots.entries = [] :=
      List.eq_nil_of_length_eq_zero (Nat.le_zero.mp (hroom ▸ hbounded.size))
    rw [counted, Table.get?, hempty]
    rfl
  · rw [← found_eq_counted, hnone]

/-- A look-up whose load fails leaves no trace. Whatever happens afterwards, the other look-ups ask for
the same loads and are answered alike, the same decisions are stored and evicted, and every account
shows the same as if the look-up had never begun. The look-up itself fails, with the fault of its load
unless the report on that fault clashes with the context. -/
theorem failed_load_leaves_no_trace (hlast : 0 < limits.lifetime) (clock : τ)
    (context : Audit.Context) (moves rest : List (Move τ)) (f : Fault)
    (hload : (((opened limits clock context).run moves).get k).1 = .ask (.call (.load j)) next) :
    let d := (opened limits clock context).run moves
    let p := d.visits.length
    let e := d.run [.get k, .loaded p (.error f)]
    let d' := d.run rest
    let e' := e.run (rest.map (Move.shift p))
    ∃ (g : Fault) (newer : List (Note τ)),
      (∀ field, context.clash? (.cacheLoadFailed k f) = some field →
        g = (Fault.fieldClash field).whileHandling) ∧
      (g = f ↔ ∀ field, context.clash? (.cacheLoadFailed k f) = some field →
        f = (Fault.fieldClash field).whileHandling) ∧
      e.visits = d.visits ++ [.done (.error g)] ∧
      e'.visits = d'.visits.insertIdx p (.done (.error g)) ∧
      d'.past = newer ++ d.past ∧ e'.past = newer ++ .looked k none d.world.clock :: d.past ∧
      (e'.world.cache.snapshot e'.world.clock).1 = (d'.world.cache.snapshot d'.world.clock).1 ∧
      (e'.world.cache.count e'.world.clock).1 = (d'.world.cache.count d'.world.clock).1 := by
  intro d p e d' e'
  obtain ⟨hlimits, hcontext⟩ : d.world.limits = limits ∧ d.world.log.context = context :=
    (lasts_settings limits context).run ⟨rfl, rfl⟩ moves
  have hstaged : d.Staged := (staged_opened limits clock context).run moves
  have hmade : 0 < d.world.limits.maxEntries → ∀ slot, d.world.Holds k slot → slot.allowed ≠ none := by
    intro hroom slot hslot hnone
    rw [hlimits] at hroom
    obtain ⟨b, t, -, rfl⟩ :=
      ((stands_opened hroom hlast clock context).run moves).accords.backed k slot hslot
    cases hnone
  obtain ⟨u, hu, halike, hpast⟩ := alike_failed (hlimits.symm ▸ hlast) hstaged hmade hload f
  rw [counted_of_waiting limits clock context moves hload] at hpast
  have hafter := halike.run rest
  obtain ⟨newer, hd, hu'⟩ := hafter.past
  have he : e = u.withEnded p (.error (failing k f context)) := hcontext ▸ hu
  have he' : e' = (u.run rest).withEnded p (.error (failing k f context)) := by
    show e.run _ = _
    rw [he]
    exact run_withEnded (Nat.le_of_eq (congrArg List.length halike.visits).symm) rest
  have hswept : (u.run rest).world.cache.prune (u.run rest).world.clock =
      d'.world.cache.prune d'.world.clock := by
    rw [hafter.world.clock]
    exact hafter.world.cache
  refine ⟨failing k f context, newer, ?_, ?_, ?_, ?_, hd, ?_, ?_, ?_⟩
  · intro field hclash
    rw [failing, hclash]
  · rw [failing]
    cases context.clash? (.cacheLoadFailed k f) with
    | none => simp
    | some field => simp [eq_comm]
  · rw [he, withEnded, halike.visits]
    exact List.insertIdx_length_self
  · rw [he', withEnded, hafter.visits]
  · rw [he']
    exact hu'.trans (congrArg (newer ++ ·) hpast)
  · rw [he']
    show ((u.run rest).world.cache.snapshot (u.run rest).world.clock).1 = _
    rw [snapshot, snapshot, hswept]
  · rw [he']
    show ((u.run rest).world.cache.count (u.run rest).world.clock).1 = _
    rw [count, count, hswept]

namespace Sample

/-- A decision is kept until it expires. -/
def expiring : List (Move Int) := [.get reading, .loaded 0 (.ok true), .wait 60 (by decide)]

/-- Two decisions follow each other in room for one. -/
def afterwards : List (Move Int) :=
  [.get writing, .loaded 1 (.ok false), .get reading, .loaded 2 (.ok true)]

def down : Fault := .backendUnavailable "down"

theorem forgotten :
    let d := (opened single 0 .empty).run expiring
    let e := d.run [.get reading, .loaded d.visits.length (.error down)]
    let e' := e.run (afterwards.map (Move.shift d.visits.length))
    (∃ next, (d.get reading).1 = .ask (.call (.load reading)) next) ∧
    e.visits = d.visits ++ [.done (.error down)] ∧
    e'.visits = (d.run afterwards).visits.insertIdx d.visits.length (.done (.error down)) ∧
    ∃ newer, (d.run afterwards).past = newer ++ d.past ∧
      e'.past = newer ++ .looked reading none 60 :: d.past := by
  intro d e e'
  obtain ⟨next, hload⟩ : ∃ next, (d.get reading).1 = .ask (.call (.load reading)) next :=
    waits_of_none (by decide) (by decide +kernel) (Audit.Context.quiet_empty _)
  obtain ⟨g, newer, -, hg, hends, hvisits, hpast, hpast', -, -⟩ :=
    failed_load_leaves_no_trace (by decide) 0 .empty expiring afterwards down hload
  have hsame : g = down := hg.mpr fun field h => by
    rw [Audit.Context.quiet_empty] at h
    cases h
  rw [hsame] at hends hvisits
  exact ⟨⟨next, hload⟩, hends, hvisits, newer, hpast, hpast'⟩

/-- The report on the failing load clashes with the context, and the look-up ends in the clash. -/
theorem failure_replaced :
    (∃ next, ((opened single 0 erring).get reading).1 = .ask (.call (.load reading)) next) ∧
    ((opened single 0 erring).run [.get reading, .loaded 0 (.error down)]).visits =
      [.done (.error (.missingKey (some "error")))] := by
  obtain ⟨next, hload⟩ :
      ∃ next, ((opened single 0 erring).get reading).1 = .ask (.call (.load reading)) next :=
    waits_of_none (by decide) rfl (by decide +kernel)
  obtain ⟨e, hrun, halike, -⟩ :=
    alike_failed (d := opened single 0 erring) (by decide) (staged_opened single 0 erring)
      (fun _ _ h => nomatch h) hload down
  have hclash : erring.clash? (.cacheLoadFailed reading down) = some "error" := by decide +kernel
  have hfailing : failing reading down (opened single 0 erring).world.log.context =
      .missingKey (some "error") := by
    show failing reading down erring = _
    rw [failing, hclash]
    rfl
  have hvisits : e.visits = [] := halike.visits
  refine ⟨⟨next, hload⟩, (congrArg visits hrun).trans ?_⟩
  rw [withEnded, hvisits, hfailing]
  rfl

end Sample

end Desk

end Warrant.Cache
