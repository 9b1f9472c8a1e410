import Warrant.Proofs.Coherence

/-!
# An enforcement keeps what it decides

Where decisions are kept at all (`Keeps`), an enforcement leaves the verdict on what it has checked
in the cache (`Keeps.enforce`).
-/

namespace Warrant

namespace Cache

variable {τ : Type} [Add τ] [LE τ] [DecidableLE τ]

/-- A decision stays when it is written, if there is room for one and it does not expire at once. -/
theorem get?_keep_self {c : Cache τ} {limits : Limits τ} {now : τ} (k : Key) (allowed : Option Bool)
    (hroom : 0 < limits.maxEntries) (hlasting : ¬ now + limits.lifetime ≤ now) :
    (c.keep limits now k allowed).2.slots.get? k = some ⟨allowed, now + limits.lifetime⟩ := by
  have hend : ∀ (t : Table Key (Slot τ)) (front : List (Key × Slot τ)),
      t.entries = front ++ [(k, ⟨allowed, now + limits.lifetime⟩)] →
      (k, ⟨allowed, now + limits.lifetime⟩) ∈ t.entries.drop (t.size - limits.maxEntries) := by
    intro t front ht
    have hle : t.size - limits.maxEntries ≤ front.length := by
      have : t.size = front.length + 1 := by simp [Table.size, ht]
      omega
    rw [ht, List.drop_append_of_le_length hle]
    simp
  rw [Table.get?_eq_some_iff]
  unfold keep
  dsimp only
  split
  · refine hend _ ((c.slots.erase k).entries.filter fun entry => !entry.2.isExpired now) ?_
    have hfresh : Slot.isExpired now ⟨allowed, now + limits.lifetime⟩ = false := by
      simpa [Slot.isExpired] using hlasting
    simp [prune, Table.filter, Table.putLast, hfresh]
  · exact hend _ (c.slots.erase k).entries rfl

end Cache

namespace Engine

open World Procedure

variable {τ : Type}

/-- Decisions are cached, there is room for one, it lasts, and what is reported before it is kept is
recorded. -/
structure Keeps [Add τ] [LE τ] (E : Engine) (w : World Site τ) : Prop where
  caches : E.caches = true
  room : 0 < w.limits.maxEntries
  lasting : ∀ t : τ, ¬ t + w.limits.lifetime ≤ t
  miss : ∀ k, w.log.context.clash? (.cacheMiss k) = none
  checked : ∀ p path a granted, w.log.context.clash? (.authorizationChecked p path a granted) = none

variable {E : Engine} {w v : World Site τ} {k : Cache.Key}

theorem Keeps.congr [Add τ] [LE τ] (h : Keeps E w) (hl : v.limits = w.limits)
    (hc : v.log.context = w.log.context) : Keeps E v := by
  refine ⟨h.caches, ?_, ?_, ?_, ?_⟩
  · rw [hl]; exact h.room
  · rw [hl]; exact h.lasting
  · rw [hc]; exact h.miss
  · rw [hc]; exact h.checked

theorem Keeps.of_beside [Add τ] [LE τ] (h : Keeps E w) (hb : Beside w v) : Keeps E v :=
  h.congr hb.limits hb.context

/-- The second world differs from the first one in its events only. -/
def Reported (w v : World Site τ) : Prop := Beside w v ∧ v.cache = w.cache

theorem Reported.trans {u : World Site τ} (h : Reported u w) (h' : Reported w v) : Reported u v :=
  ⟨h.1.trans h'.1, h'.2.trans h.2⟩

variable [Add τ] [LE τ] [DecidableLE τ]

theorem reported_of_reports {α : Type} {p : Task α} (hp : p.Asks Reports) (w : World Site τ) :
    Reported w (World.run p w).2 := by
  refine Dialogue.Asks.run_keeps (I := Reported w) (fun q hq v hv => ?_) hp ⟨.refl w, rfl⟩
  cases q with
  | call c => exact hq.elim
  | chore q =>
    cases q with
    | report e => exact hv.trans ⟨chore_beside (.report e) v, rfl⟩
    | _ => exact hq.elim

theorem reported_bind {α β : Type} {p : Task α} {f : α → Task β} (hf : ∀ a, (f a).Asks Reports)
    (w : World Site τ) : Reported (World.run p w).2 (World.run (p >>= f) w).2 := by
  rw [World.run_bind]
  cases World.run p w with
  | mk result v =>
    cases result with
    | ok a => exact reported_of_reports (hf a) v
    | error e => exact ⟨.refl v, rfl⟩

theorem reported_onFault {α : Type} {p : Task α} {f : Fault → Task Unit}
    (hf : ∀ e, (f e).Asks Reports) (w : World Site τ) :
    Reported (World.run p w).2 (World.run (p.onFault f) w).2 := by
  rw [Procedure.onFault, World.run_bind, World.run_outcome]
  cases World.run p w with
  | mk result v =>
    cases result with
    | ok a => exact ⟨.refl v, rfl⟩
    | error e => exact reported_of_reports (Asks.bind (Asks.handling (hf e)) fun _ => Asks.throw e) v

theorem Keeps.load (h : Keeps E w) {b : Bool} (hb : w.remote.verdict E.resolver k = .ok b) :
    ∃ v, World.run (Cache.load E.loadDecision k) w = (.ok (some b), v) ∧ Reported w v := by
  obtain ⟨hbeside, hcache, -⟩ := run_loadDecision E k w
  refine ⟨(World.run (E.loadDecision k) w).2, ?_, hbeside, hcache⟩
  have hload : (World.run (E.loadDecision k) w).1 = .ok (some b) := by
    obtain ⟨path, hp, ha⟩ := Site.verdict_eq_ok_iff.mp hb
    have hrun : World.run (E.loadDecision k) w =
        w.call (.policy (.authorize k.principal path k.action)) := by
      rw [loadDecision, hp]
      rfl
    have hauth : (Backend.authorizes w.remote.backend k.principal path k.action
        w.remote.store).mapError Fault.malformed = .ok b := by rw [ha]; rfl
    rw [hrun, World.call_quiet (by rintro e ⟨granted, rfl⟩; exact h.checked ..), Site.answer]
    -- a guarded backend answers authorizations too
    split
    · exact congrArg (Except.map some) hauth
    · exact congrArg (Except.map some) hauth
  rw [Cache.load, World.run_onFault]
  cases hrun : World.run (E.loadDecision k) w with
  | mk result v =>
    rw [hrun] at hload
    obtain rfl : result = .ok (some b) := hload
    rfl

theorem Keeps.store (h : Keeps E w) (k : Cache.Key) (d : Option Bool) :
    ∃ slot, (World.run (Cache.store k d : Task Unit) w).2.Holds k slot ∧ slot.allowed = d ∧
      slot.isExpired w.clock = false := by
  obtain ⟨-, hcache⟩ := reported_bind (p := Procedure.ask (.keep k d))
    (f := fun evicted => evicted.forM fun j => Procedure.report (.entryEvicted j))
    (Asks.reports fun _ => trivial) w
  refine ⟨⟨d, w.clock + w.limits.lifetime⟩, ?_, rfl, ?_⟩
  · rw [Holds, Cache.store, hcache]
    exact Cache.get?_keep_self k d h.room (h.lasting _)
  · simpa [Cache.Slot.isExpired] using h.lasting w.clock

/-- After the decision on a key the verdict on it is held, if nothing else was before. -/
theorem Keeps.decision (h : Keeps E w) {b : Bool} (hb : w.remote.verdict E.resolver k = .ok b)
    (hheld : ∀ slot, w.Holds k slot → slot.allowed = some b) :
    ∃ slot, (World.run (E.decision k) w).2.Holds k slot ∧ slot.allowed = some b ∧
      slot.isExpired w.clock = false := by
  rw [Engine.decision, Cache.consult, if_pos h.caches]
  have hbeside := chore_beside (.find k) w
  cases hfind : w.cache.find w.clock k with
  | mk found c =>
    have hask : World.run (Procedure.ask (.find k) : Task (Option Bool)) w =
        (.ok found, { w with cache := c }) := by
      rw [World.run_ask]
      show (Except.ok (w.cache.find w.clock k).1, { w with cache := (w.cache.find w.clock k).2 }) = _
      rw [hfind]
    rw [run_bind_of_ok hask]
    cases found with
    | some allowed =>
      obtain ⟨slot, hk, hk', ha, hx⟩ := Cache.get?_of_found (congrArg Prod.fst hfind)
      rw [hfind] at hk'
      obtain ⟨-, hcache⟩ := reported_of_reports (p := (do
        Procedure.report (.cacheHit k allowed)
        return some allowed : Task (Option Bool)))
        (Asks.bind (Asks.report trivial) fun _ => Asks.pure _) { w with cache := c }
      refine ⟨slot, ?_, hheld slot hk, hx⟩
      rw [Holds, hcache]
      exact hk'
    | none =>
      have hmiss : World.run (Procedure.report (.cacheMiss k) : Task Unit) { w with cache := c } =
          (.ok (), { w with cache := c, log := (w.log.record (.cacheMiss k)).2 }) := by
        rw [World.run_report, Audit.Log.record_eq_ok (h.miss k)]
      rw [run_bind_of_ok hmiss]
      have hk : Keeps E ({ w with cache := c, log := (w.log.record (.cacheMiss k)).2 } : World Site τ) :=
        h.of_beside ⟨rfl, rfl, rfl, w.log.context_record _⟩
      obtain ⟨v, hload, hbv, hcv⟩ := hk.load hb
      rw [run_bind_of_ok hload]
      obtain ⟨slot, hslot, ha, hx⟩ := (hk.of_beside hbv).store k (some b)
      obtain ⟨-, hcache⟩ := reported_bind (p := Cache.store k (some b)) (f := fun _ => pure (some b))
        (fun _ => Asks.pure _) v
      refine ⟨slot, by rwa [Holds, hcache], ha, ?_⟩
      rwa [show v.clock = w.clock from hbv.clock] at hx

/-- After the enforcement of one action the verdict on it is held, if nothing else was before. -/
theorem Keeps.enforce (h : Keeps E w) (hc : E.Checks w.remote k.principal) {b : Bool}
    (hb : w.remote.verdict E.resolver k = .ok b)
    (hheld : ∀ slot, w.Holds k slot → slot.allowed = some b) :
    ∃ slot, (World.run (E.enforce k.entity k.principal [k.action]) w).2.Holds k slot ∧
      slot.allowed = some b ∧ slot.isExpired w.clock = false := by
  obtain ⟨slot, hslot, ha, hx⟩ := h.decision hb hheld
  refine ⟨slot, ?_, ha, hx⟩
  have hone : Action.distinct [k.action] = [k.action] := by cases k.action <;> rfl
  have hdenied : Reported (World.run (E.decision k) w).2
      (World.run (E.deniedAmong k.entity k.principal [k.action]) w).2 :=
    reported_bind (fun _ => Asks.bind (Asks.pure _) fun _ => Asks.pure _) w
  have hjudge : Reported (World.run (E.deniedAmong k.entity k.principal [k.action]) w).2
      (World.run (E.judge k.entity k.principal [k.action]) w).2 := by
    have hbypass := run_bypass E k.principal.name w
    rw [hc.2] at hbypass
    rw [judge, run_bind_of_ok hbypass]
    exact reported_bind (fun _ => Asks.pure _) w
  have henforce : Reported (World.run (E.judge k.entity k.principal [k.action]) w).2
      (World.run (E.enforce k.entity k.principal [k.action]) w).2 := by
    obtain ⟨path, hp, -⟩ := Site.verdict_eq_ok_iff.mp hb
    have hresolve : World.run (Procedure.conclude (E.resolver.resolve k.entity) : Task Path) w =
        (.ok path, w) := by rw [hp]; rfl
    rw [Engine.enforce, if_neg (fun hk => hk hc.1)]
    show Reported _ (World.run (Procedure.conclude (E.resolver.resolve k.entity) >>= fun _ => _) w).2
    rw [run_bind_of_ok hresolve, hone]
    refine (reported_onFault (fun f => ?_) w).trans (reported_bind (fun finding => ?_) w)
    · exact Asks.report trivial
    · split
      · exact Asks.pure _
      · exact Asks.report trivial
      · exact Asks.bind (Asks.report trivial) fun _ => Asks.throw _
  obtain ⟨-, hcache⟩ := hdenied.trans (hjudge.trans henforce)
  rwa [Holds, hcache]

end Engine

end Warrant
