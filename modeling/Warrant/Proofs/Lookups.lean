import Warrant.Proofs.Interleaving

/-!
# What an enforcement leaves behind

An enforcement changes nothing but the cache and the events (`World.Beside`), and what it adds to the
cache are verdicts of the site on the principal that it checks (`Engine.looked_enforce`).
-/

namespace Warrant

namespace Cache

variable {τ : Type} {c : Cache τ} {now : τ} {k j : Key} {slot : Slot τ}

theorem get?_forget {scope : Scope} : (c.forget scope).2.slots.get? j = some slot ↔
    c.slots.get? j = some slot ∧ scope.covers j = false := by
  rw [forget, Table.get?_filter, Option.filter_eq_some_iff]
  simp

theorem forget_forget (scope : Scope) (c : Cache τ) :
    ((c.forget scope).2.forget scope).2 = (c.forget scope).2 := by
  simp [forget, Table.filter]

variable [LE τ] [DecidableLE τ]

theorem get?_of_find (h : (c.find now k).2.slots.get? j = some slot) :
    c.slots.get? j = some slot := by
  unfold find at h
  split at h
  · exact h
  · rename_i s hs
    split at h
    · rw [Table.get?_erase] at h
      split at h
      · cases h
      · exact h
    · rw [Table.get?_putLast] at h
      split at h
      · rename_i hj
        rw [hj, hs, h]
      · exact h

/-- A decision that is found is held, before and after, and counts. -/
theorem get?_of_found {allowed : Bool} (h : (c.find now k).1 = some allowed) :
    ∃ slot, c.slots.get? k = some slot ∧ (c.find now k).2.slots.get? k = some slot ∧
      slot.allowed = some allowed ∧ slot.isExpired now = false := by
  unfold find at h ⊢
  split at h
  · cases h
  · rename_i s hs
    split at h
    · cases h
    · rename_i hx
      refine ⟨s, hs, ?_, h, by simpa using hx⟩
      rw [if_neg hx]
      dsimp only
      rw [Table.get?_putLast, if_pos rfl]

theorem get?_of_keep [Add τ] {limits : Limits τ} {allowed : Option Bool}
    (h : (c.keep limits now k allowed).2.slots.get? j = some slot) :
    (j = k ∧ slot = ⟨allowed, now + limits.lifetime⟩) ∨ (j ≠ k ∧ c.slots.get? j = some slot) := by
  have hput : (c.slots.putLast k ⟨allowed, now + limits.lifetime⟩).get? j = some slot := by
    unfold keep at h
    simp only [Table.get?_eq_some_iff] at h ⊢
    replace h := List.mem_of_mem_drop h
    split at h
    · exact (List.mem_filter.mp h).1
    · exact h
  rw [Table.get?_putLast] at hput
  split at hput
  · rename_i hj
    exact .inl ⟨hj, (Option.some.inj hput).symm⟩
  · rename_i hj
    exact .inr ⟨hj, hput⟩

end Cache

namespace World

variable {σ τ : Type}

/-- The world holds the slot for the key in its cache. -/
def Holds (w : World σ τ) (k : Cache.Key) (slot : Cache.Slot τ) : Prop :=
  w.cache.slots.get? k = some slot

instance [DecidableEq τ] (w : World σ τ) (k : Cache.Key) (slot : Cache.Slot τ) :
    Decidable (w.Holds k slot) :=
  inferInstanceAs (Decidable (w.cache.slots.get? k = some slot))

/-- The second world differs from the first one in its cache and its events only. -/
structure Beside (w v : World σ τ) : Prop where
  remote : v.remote = w.remote
  limits : v.limits = w.limits
  clock : v.clock = w.clock
  context : v.log.context = w.log.context

theorem Beside.refl (w : World σ τ) : Beside w w := ⟨rfl, rfl, rfl, rfl⟩

theorem Beside.trans {u v w : World σ τ} (h : Beside u v) (h' : Beside v w) : Beside u w :=
  ⟨h'.remote.trans h.remote, h'.limits.trans h.limits, h'.clock.trans h.clock,
    h'.context.trans h.context⟩

theorem Beside.symm {w v : World σ τ} (h : Beside w v) : Beside v w :=
  ⟨h.remote.symm, h.limits.symm, h.clock.symm, h.context.symm⟩

variable [Add τ] [LE τ] [DecidableLE τ]

theorem ok_of_run_bind {C α β : Type} [Remote C] [Server C σ] {p : Procedure C α}
    {f : α → Procedure C β} {w v : World σ τ} {b : β} (h : run (p >>= f) w = (.ok b, v)) :
    ∃ a u, run p w = (.ok a, u) ∧ run (f a) u = (.ok b, v) := by
  rw [run_bind] at h
  cases hp : run p w with
  | mk result u =>
    rw [hp] at h
    cases result with
    | ok a => exact ⟨a, u, rfl, h⟩
    | error e => cases h

theorem ok_of_run_onFault {C α : Type} [Remote C] [Server C σ] {p : Procedure C α}
    {f : Fault → Procedure C Unit} {w v : World σ τ} {a : α}
    (h : run (p.onFault f) w = (.ok a, v)) : run p w = (.ok a, v) := by
  rw [run_onFault] at h
  split at h
  · rename_i hp
    cases h
    exact hp
  · split at h <;> cases h

theorem run_bind_of_ok {C α β : Type} [Remote C] [Server C σ] {p : Procedure C α}
    {f : α → Procedure C β} {w v : World σ τ} {a : α} (h : run p w = (.ok a, v)) :
    run (p >>= f) w = run (f a) v := by
  rw [run_bind, h]

theorem chore_beside (q : Chore) (w : World σ τ) : Beside w (World.chore q w).2 := by
  cases q with
  | report e => exact ⟨rfl, rfl, rfl, w.log.context_record e⟩
  | _ => exact ⟨rfl, rfl, rfl, rfl⟩

end World

namespace Engine

open World

variable {τ : Type} {E : Engine} {who : Principal → Prop} {u v w : World Site τ}

/-- Only calls change the site. -/
theorem remote_answer [Add τ] [LE τ] [DecidableLE τ] (q : Request Call) (w : World Site τ) :
    (World.answer q w).2.remote = w.remote ∨
      ∃ c, q = .call c ∧ (World.answer q w).2.remote = w.remote.after c := by
  cases q with
  | call c =>
    obtain ⟨log, -, hcall⟩ := w.call_world c
    exact .inr ⟨c, rfl, congrArg World.remote hcall⟩
  | chore q => exact .inl (chore_beside q w).remote

/-- A run keeps of the site what every call keeps. -/
theorem site_run_keeps [Add τ] [LE τ] [DecidableLE τ] {α : Type} {P : Request Call → Prop}
    {I : Site → Prop} (h : ∀ c s, P (.call c) → I s → I (s.after c)) {p : Task α} (hp : p.Asks P)
    (hw : I w.remote) : I (World.run p w).2.remote := by
  refine Dialogue.Asks.run_keeps (I := fun v : World Site τ => I v.remote) (fun q hq v hv => ?_) hp hw
  rcases remote_answer q v with hsame | ⟨c, rfl, hafter⟩
  · exact hsame ▸ hv
  · exact hafter ▸ h c v.remote hq hv

/-- The second world differs from the first one in its cache and its events only, and every decision
that it holds was held before or is the verdict on one of the principals. -/
structure Looked (E : Engine) (who : Principal → Prop) (w v : World Site τ) : Prop where
  beside : Beside w v
  holds : ∀ k slot, v.Holds k slot → w.Holds k slot ∨
    (who k.principal ∧ w.remote.backs E.resolver k slot.allowed = true)

namespace Looked

theorem of_cache (hb : Beside w v) (hc : v.cache = w.cache) : Looked E who w v :=
  ⟨hb, fun k slot h => .inl (by rwa [Holds, hc] at h)⟩

theorem trans (h : Looked E who u v) (h' : Looked E who v w) : Looked E who u w := by
  refine ⟨h.beside.trans h'.beside, fun k slot hk => ?_⟩
  rcases h'.holds k slot hk with hk | ⟨hp, hs⟩
  · exact h.holds k slot hk
  · exact .inr ⟨hp, by rwa [h.beside.remote] at hs⟩

variable [Add τ] [LE τ] [DecidableLE τ] {α β : Type}

theorem bind {p : Task α} {f : α → Task β} (hp : Looked E who w (World.run p w).2)
    (hf : ∀ a v, (World.run p w) = (.ok a, v) → Looked E who v (World.run (f a) v).2) :
    Looked E who w (World.run (p >>= f) w).2 := by
  rw [World.run_bind]
  cases h : World.run p w with
  | mk result v =>
    rw [h] at hp
    cases result with
    | ok a => exact hp.trans (hf a v h)
    | error e => exact hp

theorem report (e : Audit.Event) (w : World Site τ) :
    Looked E who w (World.run (Procedure.report e : Task Unit) w).2 :=
  of_cache (chore_beside (.report e) w) rfl

theorem onFault {p : Task α} {e : Fault → Audit.Event} (hp : Looked E who w (World.run p w).2) :
    Looked E who w (World.run (p.onFault fun f => Procedure.report (e f)) w).2 := by
  rw [World.run_onFault]
  cases h : World.run p w with
  | mk result v =>
    rw [h] at hp
    cases result with
    | ok a => exact hp
    | error f =>
      have hr : Looked E who v _ := Looked.report (e f) v
      dsimp only
      cases h' : World.run (Procedure.report (e f) : Task Unit) v with
      | mk result u =>
        rw [h'] at hr
        cases result <;> exact hp.trans hr

end Looked

theorem Site.after_authorize (s : Site) (p : Principal) (path : Path) (a : Action) :
    s.after (.policy (.authorize p path a)) = s := by
  rw [Site.after]
  split <;> rfl

theorem Site.backs_of_answer {s : Site} {r : Resolver} {k : Cache.Key} {path : Path}
    {d : Option Bool} (hp : r.resolve k.entity = .ok path)
    (h : s.answer (.policy (.authorize k.principal path k.action)) = .ok d) :
    s.backs r k d = true := by
  have hauth : (((Backend.authorizes s.backend k.principal path k.action s.store).mapError
      Fault.malformed).map some : Except Fault (Option Bool)) = .ok d := by
    rw [Site.answer] at h
    split at h <;> exact h
  rw [Site.backs_iff]
  cases hb : Backend.authorizes s.backend k.principal path k.action s.store with
  | error m => rw [hb] at hauth; cases hauth
  | ok b =>
    rw [hb] at hauth
    cases hauth
    exact ⟨b, rfl, Site.verdict_eq_ok_iff.mpr ⟨path, hp, hb⟩⟩

section

variable [Add τ] [LE τ] [DecidableLE τ]

/-- Loading a decision leaves the cache alone and gives the verdict of the site. -/
theorem run_loadDecision (E : Engine) (k : Cache.Key) (w : World Site τ) :
    Beside w (World.run (E.loadDecision k) w).2 ∧
      (World.run (E.loadDecision k) w).2.cache = w.cache ∧
      ∀ d, (World.run (E.loadDecision k) w).1 = .ok d →
        w.remote.backs E.resolver k d = true := by
  cases hp : E.resolver.resolve k.entity with
  | error f =>
    have hrun : World.run (E.loadDecision k) w = (.error f, w) := by
      rw [loadDecision, hp]
      rfl
    rw [hrun]
    exact ⟨.refl w, rfl, fun d h => by cases h⟩
  | ok path =>
    have hrun : World.run (E.loadDecision k) w =
        w.call (.policy (.authorize k.principal path k.action)) := by
      rw [loadDecision, hp]
      rfl
    obtain ⟨log, hlog, hw⟩ := w.call_world (.policy (.authorize k.principal path k.action))
    rw [hrun, hw]
    refine ⟨⟨Site.after_authorize .., rfl, rfl, hlog⟩, rfl, fun d h => ?_⟩
    exact Site.backs_of_answer hp (World.call_sound h)

theorem looked_load (E : Engine) (k : Cache.Key) (w : World Site τ) :
    Looked E who w (World.run (Cache.load E.loadDecision k) w).2 := by
  obtain ⟨hb, hc, -⟩ := run_loadDecision E k w
  exact (Looked.of_cache hb hc).onFault

theorem backs_of_load {k : Cache.Key} {d : Option Bool}
    (h : World.run (Cache.load E.loadDecision k) w = (.ok d, v)) :
    w.remote.backs E.resolver k d = true := by
  obtain ⟨-, -, hd⟩ := run_loadDecision E k w
  exact hd d (congrArg Prod.fst (World.ok_of_run_onFault h))

theorem Looked.reports (es : List Cache.Key) (e : Cache.Key → Audit.Event) (w : World Site τ) :
    Looked E who w (World.run (es.forM fun j => Procedure.report (e j) : Task Unit) w).2 := by
  induction es generalizing w with
  | nil => exact of_cache (.refl w) rfl
  | cons j es ih =>
    show Looked E who w
      (World.run (Procedure.report (e j) >>= fun _ => es.forM fun j => Procedure.report (e j)) w).2
    exact (Looked.report (e j) w).bind fun _ v _ => ih v

theorem looked_store {k : Cache.Key} {d : Option Bool} (hk : who k.principal) (w : World Site τ)
    (hd : w.remote.backs E.resolver k d = true) :
    Looked E who w (World.run (Cache.store k d : Task Unit) w).2 := by
  have hkeep : Looked E who w (World.chore (.keep k d) w).2 := by
    refine ⟨chore_beside _ w, fun j slot hj => ?_⟩
    rcases Cache.get?_of_keep hj with ⟨rfl, ha⟩ | ⟨-, hj⟩
    · exact .inr ⟨hk, by rwa [ha]⟩
    · exact .inl hj
  exact Looked.bind (p := Procedure.ask (.keep k d)) hkeep fun evicted v _ => Looked.reports _ _ v

theorem looked_find (k : Cache.Key) (w : World Site τ) :
    Looked E who w (World.run (Procedure.ask (.find k) : Task (Option Bool)) w).2 :=
  ⟨chore_beside (.find k) w, fun _ _ hj => .inl (Cache.get?_of_find hj)⟩

theorem looked_decision (E : Engine) {k : Cache.Key} (hk : who k.principal) (w : World Site τ) :
    Looked E who w (World.run (E.decision k) w).2 := by
  rw [decision, Cache.consult]
  split
  · refine (looked_find k w).bind fun found v _ => ?_
    cases found with
    | some allowed => exact (Looked.report _ v).bind fun _ u _ => Looked.of_cache (.refl u) rfl
    | none =>
      refine (Looked.report _ v).bind fun _ u _ => ?_
      have hload : Looked E who u _ := looked_load E k u
      refine hload.bind fun d t ht => ?_
      rw [ht] at hload
      have hstore := looked_store (E := E) hk t (hload.beside.remote ▸ backs_of_load ht)
      exact hstore.bind fun _ t _ => Looked.of_cache (.refl t) rfl
  · exact looked_load E k w

/-- A decision is held already, or it is the verdict of the site. -/
theorem decision_ok {k : Cache.Key} {d : Option Bool}
    (h : World.run (E.decision k) w = (.ok d, v)) : w.remote.backs E.resolver k d = true ∨
      ∃ slot, w.Holds k slot ∧ slot.allowed = d := by
  rw [decision, Cache.consult] at h
  split at h
  · obtain ⟨found, u, hf, h⟩ := World.ok_of_run_bind h
    rw [World.run_ask] at hf
    have hu : u.remote = w.remote := by
      rw [← (Prod.mk.inj hf).2]
      exact (chore_beside _ w).remote
    cases found with
    | some allowed =>
      obtain ⟨_, _, _, h⟩ := World.ok_of_run_bind h
      cases h
      obtain ⟨slot, hk, -, ha, -⟩ := Cache.get?_of_found (Except.ok.inj (Prod.mk.inj hf).1)
      exact .inr ⟨slot, hk, ha⟩
    | none =>
      obtain ⟨_, t, ht, h⟩ := World.ok_of_run_bind h
      have ht' : t.remote = u.remote := by
        have := (chore_beside (.report (.cacheMiss k)) u).remote
        rwa [show World.chore (.report (.cacheMiss k)) u = _ from ht] at this
      obtain ⟨d', t', hload, h⟩ := World.ok_of_run_bind h
      obtain ⟨_, _, _, h⟩ := World.ok_of_run_bind h
      cases h
      have := backs_of_load hload
      rw [ht', hu] at this
      exact .inl this
  · exact .inl (backs_of_load h)

/-! ### Whom an enforcement checks -/

/-- The groups that stand for a user at the site. -/
def groupsAt (E : Engine) (s : Site) (user : String) : List String :=
  let found := (s.identity.map fun i => i.groupsOf user).getD []
  if E.looksUpGroups then if found.isEmpty then [user] else found else [user]

/-- Why a user passes without a check at the site, if so. -/
def bypassAt (E : Engine) (s : Site) (user : String) : Option String :=
  if user ∈ E.superusers then some "superuser"
  else match E.adminGroup with
    | none => none
    | some admins => if admins ∈ E.groupsAt s user then some "admin_group" else none

theorem run_groupsOf (E : Engine) (user : String) (w : World Site τ) :
    World.run (E.groupsOf user) w = (.ok (E.groupsAt w.remote user), w) := by
  rw [groupsOf, groupsAt]
  split <;> rfl

theorem run_bypass (E : Engine) (user : String) (w : World Site τ) :
    World.run (E.bypass user) w = (.ok (E.bypassAt w.remote user), w) := by
  rw [bypass, bypassAt]
  by_cases hu : user ∈ E.superusers
  · rw [if_pos hu, if_pos hu]
    rfl
  · rw [if_neg hu, if_neg hu]
    cases E.adminGroup with
    | none => rfl
    | some admins =>
      show World.run (E.groupsOf user >>= fun groups =>
        pure (if admins ∈ groups then some "admin_group" else none)) w = _
      rw [World.run_bind, run_groupsOf]
      rfl

/-- An enforcement at the site decides on actions of the principal. -/
def Checks (E : Engine) (s : Site) (p : Principal) : Prop :=
  p.kind = .user ∧ E.bypassAt s p.name = none

theorem looked_deniedAmong {e : Entity} {p : Principal} (hp : who p) (actions : List Action)
    (w : World Site τ) : Looked E who w (World.run (E.deniedAmong e p actions) w).2 := by
  induction actions generalizing w with
  | nil => exact Looked.of_cache (.refl w) rfl
  | cons a rest ih =>
    refine (looked_decision E hp w).bind fun d v _ => ?_
    exact (ih v).bind fun denied u _ => Looked.of_cache (.refl u) rfl

theorem looked_judge (E : Engine) (e : Entity) {p : Principal} (hk : p.kind = .user)
    (actions : List Action) (w : World Site τ) :
    Looked E (E.Checks w.remote) w (World.run (E.judge e p actions) w).2 := by
  rw [judge, World.run_bind, run_bypass]
  cases hb : E.bypassAt w.remote p.name with
  | some reason => exact (Looked.report _ w).bind fun _ v _ => Looked.of_cache (.refl v) rfl
  | none =>
    exact (looked_deniedAmong ⟨hk, hb⟩ actions w).bind fun _ v _ => Looked.of_cache (.refl v) rfl

/-- An enforcement changes nothing but the cache and the events, and what it adds to the cache are
verdicts on principals that it checks. -/
theorem looked_enforce (E : Engine) (e : Entity) (p : Principal) (actions : List Action)
    (w : World Site τ) : Looked E (E.Checks w.remote) w (World.run (E.enforce e p actions) w).2 := by
  rw [enforce]
  split
  · exact Looked.of_cache (.refl w) rfl
  · rename_i hk
    refine Looked.bind (p := Procedure.conclude (E.resolver.resolve e)) (.of_cache (.refl w) rfl)
      fun path v hv => ?_
    obtain rfl : w = v := (Prod.mk.inj hv).2
    have hjudge := looked_judge E e (Decidable.not_not.mp hk) (Action.distinct actions) w
    refine hjudge.onFault.bind fun finding u _ => ?_
    split
    · exact Looked.of_cache (.refl u) rfl
    · exact Looked.report _ u
    · exact (Looked.report _ u).bind fun _ t _ => Looked.of_cache (.refl t) rfl

end

end Engine

end Warrant
