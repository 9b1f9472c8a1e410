import Warrant.Proofs.Effects
import Warrant.Proofs.Pools
import Warrant.Proofs.Subtrees

/-!
# Errands that run one after the other

The world that is left by errands and waits, each of which begins when the one before it has ended
(`Engine.attend`). However an errand ends, every decision that the cache then holds is right if it was
so before (`Settled.errand`): a write that fails half-way has dropped, before it began, the decisions
that it may have made wrong.
-/

namespace Warrant.Engine

open World Procedure

variable {τ : Type} {E : Engine} {e : Entity} {o : Operation}

/-- What happens next. -/
inductive Occasion (τ : Type)
  | errand (x : Errand)
  | wait (d : τ)

variable [Add τ] [LE τ] [DecidableLE τ] {w v : World Site τ}

/-- Attends to what happens, one after the other, whatever each errand ends in. -/
def attend (E : Engine) : List (Occasion τ) → World Site τ → World Site τ
  | [], w => w
  | .errand x :: rest, w => E.attend rest (World.run (x.task E) w).2
  | .wait d :: rest, w => E.attend rest (w.advance d)

theorem attend_keeps {I : World Site τ → Prop} {history : List (Occasion τ)}
    (herrand : ∀ x, .errand x ∈ history → ∀ w, I w → I (World.run (x.task E) w).2)
    (hwait : ∀ d w, I w → I (w.advance d)) (hw : I w) : I (E.attend history w) := by
  induction history generalizing w with
  | nil => exact hw
  | cons happening rest ih =>
    have hrest := fun x hx => herrand x (List.mem_cons_of_mem happening hx)
    cases happening with
    | errand x => exact ih hrest (herrand x (List.mem_cons_self ..) w hw)
    | wait d => exact ih hrest (hwait d w hw)

theorem services_attend (history : List (Occasion τ)) (w : World Site τ) :
    (E.attend history w).remote = { w.remote with store := (E.attend history w).remote.store } := by
  refine attend_keeps (I := fun v : World Site τ => v.remote = { w.remote with store := v.remote.store })
    (fun x _ v hv => ?_) (fun d v hv => hv) rfl
  rw [services_run τ (x.task E) v, hv]

theorem context_attend (history : List (Occasion τ)) (w : World Site τ) :
    (E.attend history w).log.context = w.log.context :=
  attend_keeps (I := fun v : World Site τ => v.log.context = w.log.context)
    (fun x _ v hv => (context_run τ (x.task E) v).trans hv) (fun _ _ hv => hv) rfl

/-! ### Between two droppings of decisions -/

theorem run_invalidateSubtree (e : Entity) (hq : w.log.context.Quiet) : ∃ n v,
    World.run (Cache.invalidateSubtree e : Task Nat) w = (.ok n, v) ∧ v.remote = w.remote ∧
      v.cache = (w.cache.forget (.subtree e)).2 ∧ v.log.context = w.log.context := by
  obtain ⟨n, hn, hremote⟩ := (Succeeds.invalidateSubtree (τ := τ) e w.remote).of_quiet hq rfl
  exact ⟨n, _, Prod.ext hn rfl, hremote, cache_invalidateSubtree e w, context_run τ _ w⟩

/-- What succeeds between two droppings of decisions leaves the site that it leaves without them; just
the decisions on the entity and below it are gone, and the last event tells of the success. -/
theorem run_sweeping {α : Type} {body : Task α} {inside : Cache.Key → Prop} {Q : α → Site → Prop}
    (failed : Fault → Audit.Event) (succeeded : α → Audit.Event)
    (hbody : Succeeds τ body w.remote Q) (hsteps : body.Asks (Steps inside))
    (hq : w.log.context.Quiet) : ∃ a v,
      World.run (sweeping e body failed succeeded) w = (.ok (), v) ∧ Q a v.remote ∧
      v.cache = (w.cache.forget (.subtree e)).2 ∧ v.log.events.getLast? = some (succeeded a) := by
  obtain ⟨_, u, hdrop, hremote, hcache, hcontext⟩ := run_invalidateSubtree e hq
  have hqu : u.log.context.Quiet := hcontext ▸ hq
  obtain ⟨a, ha, hQ⟩ := hbody.of_quiet hqu hremote
  have hrun : World.run body u = (.ok a, (World.run body u).2) := Prod.ext ha rfl
  have hqb : (World.run body u).2.log.context.Quiet := (context_run τ body u).symm ▸ hqu
  obtain ⟨_, t, hdrop', hremote', hcache', hcontext'⟩ := run_invalidateSubtree e hqb
  have hlast : t.log.record (succeeded a) = _ :=
    Audit.Log.record_of_fits (hcontext' ▸ hqb (succeeded a))
  refine ⟨a, { t with log := { t.log with events := t.log.events ++ [succeeded a] } }, ?_, ?_, ?_, ?_⟩
  · rw [sweeping, run_bind_of_ok hdrop, run_bind_of_ok (by rw [World.run_onFault, hrun]),
      run_bind_of_ok hdrop', run_report, hlast]
  · exact hremote' ▸ hQ
  · exact hcache'.trans (by rw [cache_of_steps hsteps, hcache, Cache.forget_forget])
  · exact List.getLast?_concat

/-! ### Decisions stay right -/

/-- What is done between two droppings of the decisions on an entity leaves none behind that were
held before, not even when it fails half-way. -/
theorem not_below_of_sweeping {α : Type} {body : Task α} {failed : Fault → Audit.Event}
    {succeeded : α → Audit.Event} (hbody : body.Asks (Steps (Below e))) {k : Cache.Key}
    {slot : Cache.Slot τ}
    (hk : (World.run (sweeping e body failed succeeded) w).2.Holds k slot) : ¬ Below e k := by
  have hdrop : (Cache.invalidateSubtree e : Task Nat).Asks (Sweeps (Below e)) :=
    asks_invalidateSubtree (fun _ => .rfl) fun _ => trivial
  have hrest : ∀ n : Nat, (do
      let a ← body.onFault fun f => report (failed f)
      let _ ← Cache.invalidateSubtree e
      report (succeeded a) : Task Unit).Asks (Sweeps (Below e)) := fun _ =>
    Asks.bind (Asks.onFault (hbody.mono fun q => Steps.sweeps) fun _ => Asks.report trivial)
      fun _ => Asks.bind hdrop fun _ => Asks.report trivial
  have hcache := cache_invalidateSubtree e w
  rw [sweeping, World.run_bind] at hk
  cases hrun : World.run (Cache.invalidateSubtree e : Task Nat) w with
  | mk x u =>
    rw [hrun] at hcache hk
    have hu : u.Holds k slot := by
      cases x with
      | error f => exact hk
      | ok n => exact holds_of_sweeps (hrest n) hk
    rw [World.Holds, show u.cache = _ from hcache, Cache.get?_forget] at hu
    exact fun hbelow => Bool.false_ne_true (hu.2.symm.trans hbelow)

namespace Settled

omit [Add τ] [LE τ] [DecidableLE τ] in
/-- What was held before, on keys on which the site has not changed its verdict, is still right. -/
theorem of_unmoved (h : Settled E w) (hi : w.remote.identity = v.remote.identity)
    (hc : v.remote.store.Confined)
    (hv : ∀ k slot, v.Holds k slot → Unmoved E w v.remote k slot) : Settled E v :=
  ⟨fun k slot hk => right_congruent E hi (hv k slot hk).2 (h.right k slot (hv k slot hk).1), hc⟩

/-- What is done between two droppings of decisions may fail half-way: the decisions that it can make
wrong are gone by then. -/
theorem sweeping {α : Type} {body : Task α} {failed : Fault → Audit.Event}
    {succeeded : α → Audit.Event} (h : Settled E w) (hbody : body.Asks (Steps (Below e))) :
    Settled E (World.run (Engine.sweeping e body failed succeeded) w).2 := by
  have hasks : (Engine.sweeping e body failed succeeded).Asks (Sweeps (Below e)) :=
    asks_sweeping (fun _ => .rfl) (fun _ => trivial) (hbody.mono fun q => Steps.sweeps)
  obtain ⟨hconfined, hagrees⟩ := agreesOff_of_sweeps (E := E) hasks h.confined
  refine h.of_unmoved hagrees.identity hconfined fun k slot hk => ⟨holds_of_sweeps hasks hk, ?_⟩
  exact hagrees.verdict k (not_below_of_sweeping hbody hk)

theorem resolving (h : Settled E w) {f : Path → Task Unit}
    (hf : ∀ path, E.resolver.resolve e = .ok path → Settled E (World.run (f path) w).2) :
    Settled E (World.run (do let path ← E.resolver.resolve e; f path) w).2 := by
  cases hp : E.resolver.resolve e with
  | error fault => exact h
  | ok path => exact hf path hp

/-- A change of one role either has changed nothing, or every decision is dropped after it. -/
theorem administer (h : Settled E w) (hq : w.log.context.Quiet) (hs : w.remote.readOnly = false)
    (ho : o.Administers) (hw : o.IsWrite) (hh : o.Honest) :
    Settled E (World.run (E.perform o) w).2 := by
  have hend := (ends_administer (τ := τ) (E := E) hs ho).of_quiet hq rfl
  have hholds : ∀ k slot, (World.run (E.perform o) w).2.Holds k slot → w.Holds k slot :=
    fun k slot => holds_of_sweeps (shape_perform E hw hh).asks
  cases hrun : World.run (E.perform o) w with
  | mk x v =>
    rw [hrun] at hend hholds
    cases x with
    | ok a =>
      have hend : w.remote.Alters (Effect E w.remote o) v.remote := hend
      obtain ⟨hconfined, hframe⟩ := frame_of_ok hw hh h.confined hrun
      exact h.of_unmoved (by rw [hend.services]) hconfined hframe
    | error f =>
      have hsame : v.remote = w.remote := hend
      refine h.of_unmoved (by rw [hsame]) (by rw [hsame]; exact h.confined) fun k slot hk => ?_
      exact ⟨hholds k slot hk, by rw [hsame]⟩

/-- A world that is settled is so after any operation that runs alone, however it ends. -/
theorem perform (h : Settled E w) (hq : w.log.context.Quiet) (hs : w.remote.readOnly = false)
    (hh : o.Honest) : Settled E (World.run (E.perform o) w).2 := by
  cases o with
  | enforce e p actions => exact h.of_adds (adds_enforce E e p actions w)
  | grant e p actions =>
    show Settled E (World.run (E.grant e p actions) w).2
    rw [grant]
    split
    · exact h
    · exact h.resolving fun path hp => h.sweeping (asks_grantOn hp hh)
  | revoke e p actions => exact h.resolving fun path hp => h.sweeping (asks_revokeOn hp)
  | revokeAll e => exact h.resolving fun path hp => h.sweeping (asks_revokeAllOn hp)
  | createRole | dropRole | addMember | removeMember => exact h.administer hq hs trivial trivial hh

end Settled

/-- The request is a call that lists something. -/
def Lists : Request Call → Prop
  | .call (.policy (.listPrivileges _)) | .call (.policy (.listRoles _)) => True
  | .call (.policy .listAllRoles) => True
  | _ => False

/-- The calls that list something change no site. -/
theorem Lists.after {c : Call} (hc : Lists (.call c)) (s : Site) : s.after c = s := by
  cases c with
  | groupsOf user => exact hc.elim
  | policy c =>
    cases c with
    | listPrivileges | listRoles | listAllRoles =>
      rw [Site.after]
      split <;> rfl
    | _ => exact hc.elim

/-- An errand performs an operation, or it lists something and changes nothing but the events. -/
theorem Errand.lists {x : Errand} (hx : ∀ o, x ≠ .perform o) (w : World Site τ) :
    (World.run (x.task E) w).2.remote = w.remote ∧ (World.run (x.task E) w).2.cache = w.cache := by
  have hasks : (x.task E).Asks Lists := by
    cases x with
    | perform o => exact absurd rfl (hx o)
    | listRoles p =>
      exact Asks.bind (Asks.bind (asks_checkMember _ p) fun _ => Asks.call trivial) fun _ => Asks.pure _
    | listAllRoles => exact Asks.bind (Asks.call trivial) fun _ => Asks.pure _
    | listPrivileges p => exact Asks.bind (Asks.call trivial) fun _ => Asks.pure _
  refine Dialogue.Asks.run_keeps (I := fun v : World Site τ => v.remote = w.remote ∧
    v.cache = w.cache) (fun q hq v hv => ?_) hasks ⟨rfl, rfl⟩
  cases q with
  | chore q => exact hq.elim
  | call c =>
    obtain ⟨log, -, hcall⟩ := v.call_world c
    rw [show (World.answer (.call c) v).2 = (v.call c).2 from rfl, hcall]
    exact ⟨(hq.after v.remote).trans hv.1, hv.2⟩

theorem Settled.errand (h : Settled E w) (hq : w.log.context.Quiet)
    (hs : w.remote.readOnly = false) {x : Errand} (hh : ∀ o, x = .perform o → o.Honest) :
    Settled E (World.run (x.task E) w).2 := by
  by_cases hx : ∃ o, x = .perform o
  · obtain ⟨o, rfl⟩ := hx
    exact h.perform hq hs (hh o rfl)
  · obtain ⟨hremote, hcache⟩ := Errand.lists (E := E) (fun o ho => hx ⟨o, ho⟩) w
    exact h.of_adds ⟨hremote, fun k slot hk => .inl (by rwa [World.Holds, hcache] at hk)⟩

end Warrant.Engine
