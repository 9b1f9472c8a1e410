import Warrant.Proofs.Sessions
import Warrant.Proofs.Threads

/-!
# Engines over a read-only backend

A guarded backend refuses everything but authorizations. None of the refusals is one that the engine
takes for a race over a shadow role, so each of them comes through to the caller: what an errand ends in
is known from its arguments and, for an enforcement, from the verdicts of the site (`Errand.ruledAt`).
All requests are answered in one way at a site that never changes (`fixed`), so this holds of errands
that run side by side as well (`read_only_exact`).
-/

namespace Warrant

namespace Audit

/-- The event tells of a change of roles, or of a race over one that was lost. -/
def Event.TellsChange : Event → Prop
  | grantApplied .. | revokeApplied .. | entityRevoked .. | roleOperationCompleted .. => True
  | shadowRoleCreated _ | shadowRoleReused _ | shadowRoleDropped .. | shadowRoleRetained .. => True
  | roleCreated _ | roleDropped _ | principalAttached .. | principalDetached .. => True
  | privilegesGranted .. | privilegesRevoked .. | resourceCleared .. => True
  | _ => False

theorem Log.mem_record {log : Log} {event e : Event} (h : e ∈ (log.record event).2.events) :
    e ∈ log.events ∨ e = event := by
  rw [record] at h
  split at h
  · exact .inl h
  · exact (List.mem_append.mp h).imp id List.mem_singleton.mp

namespace Logging

variable {σ α β : Type} {Q : Event → Prop}

/-- The step records no events but such. -/
def Records (Q : Event → Prop) (m : Logging σ α) : Prop :=
  ∀ x, ∀ e ∈ (m x).2.log.events, e ∈ x.log.events ∨ Q e

namespace Records

theorem pure (a : α) : Records Q (Pure.pure a : Logging σ α) := fun _ _ => .inl

theorem throw (f : Fault) : Records Q (MonadExcept.throw f : Logging σ α) := fun _ _ => .inl

theorem inspect (f : σ → Except Fault α) : Records Q (Logging.inspect f) := fun _ _ => .inl

theorem report {event : Event} (h : Q event) : Records Q (Logging.report event : Logging σ Unit) := by
  intro x e he
  refine (Log.mem_record he).imp id ?_
  rintro rfl
  exact h

theorem bind {m : Logging σ α} {f : α → Logging σ β} (hm : Records Q m) (hf : ∀ a, Records Q (f a)) :
    Records Q (m >>= f) := by
  intro x e he
  have hfirst := hm x
  rw [run_bind] at he
  cases hx : m x with
  | mk result y =>
    rw [hx] at he hfirst
    cases result with
    | ok a =>
      rcases hf a y e he with he | he
      · exact hfirst e he
      · exact .inr he
    | error f => exact hfirst e he

theorem onPart {ρ : Type} {m : Logging ρ α} (hm : Records Q m) (part : σ → ρ) (put : ρ → σ → σ) :
    Records Q (Logging.onPart part put m) := fun x => hm ⟨part x.state, x.log⟩

end Records

end Logging

end Audit

namespace Backend

open Audit.Logging

theorem records_serveReadOnly (setup : Setup) (c : Call) :
    Records (fun event => ¬ event.TellsChange) (serveReadOnly setup c) := by
  cases c with
  | authorize p path a =>
    have hauthorize : Records (fun event => ¬ event.TellsChange) (authorize setup p path a) :=
      (Records.inspect _).bind fun _ => (Records.report id).bind fun _ => .pure _
    exact hauthorize.bind fun _ => (Records.report id).bind fun _ => .pure _
  | _ => exact (Records.report id).bind fun _ => .throw _

end Backend

namespace Engine

open Procedure World Site

/-! ### A site that never changes -/

/-- The guard bars the call: it is no authorization. -/
def Barred : Backend.Call → Prop
  | .authorize .. => False
  | _ => True

section

variable {s : Site} {c : Backend.Call}

theorem after_of_readOnly (hs : s.readOnly = true) (c : Call) : s.after c = s := by
  cases c with
  | groupsOf user => rfl
  | policy c => exact if_pos hs

theorem answer_of_readOnly (hs : s.readOnly = true) (hc : Barred c) :
    s.answer (.policy c) = .error (.unsupportedOperation c.name) := by
  rw [Site.answer, if_pos hs]
  cases c with
  | authorize p path a => exact hc.elim
  | _ => rfl

theorem answer_authorize {r : Resolver} {k : Cache.Key} {path : Path} (hs : s.readOnly = true)
    (hp : r.resolve k.entity = .ok path) :
    s.answer (.policy (.authorize k.principal path k.action)) = (s.verdict r k).map some := by
  rw [Site.answer, if_pos hs, verdict, hp]
  rfl

end

/-- The rules at a site that never changes: a call is answered by the site, an event is recorded, and
what is found in the cache is right. Nothing is kept but what is right, and no change is reported. -/
def fixed (E : Engine) (s : Site) : Rules (Request Call) Request.Reply Unit where
  may
    | .chore (.keep k d), _ => s.backs E.resolver k d = true
    | .chore (.report event), _ => ¬ event.TellsChange
    | _, _ => True
  gives
    | .call c, _, reply, _ => reply = s.answer c
    | .chore (.report _), _, reply, _ => reply = .ok ()
    | .chore (.find k), _, reply, _ => ∀ b, reply = some b → s.verdict E.resolver k = .ok b
    | .chore _, _, _, _ => True

variable {τ α β : Type}

/-- A world at the site: what is cached is right, every event can be recorded, and none tells of a
change. -/
structure Unwritten (E : Engine) (s : Site) (w : World Site τ) : Prop where
  remote : w.remote = s
  quiet : w.log.context.Quiet
  right : ∀ k slot, w.Holds k slot → s.backs E.resolver k slot.allowed = true
  events : ∀ event ∈ w.log.events, ¬ event.TellsChange

section

variable [Add τ] [LE τ] [DecidableLE τ] {E : Engine} {s : Site} {w : World Site τ}

/-- Such a world answers as the rules say and stays such a world. -/
theorem Unwritten.answer (hs : s.readOnly = true) (h : Unwritten E s w) {q : Request Call}
    (hq : (fixed E s).may q ()) : (fixed E s).gives q () (World.answer q w).1 () ∧
      Unwritten E s (World.answer q w).2 := by
  obtain ⟨rfl, hquiet, hright, hevents⟩ := h
  cases q with
  | call c =>
    obtain ⟨log, hcontext, hcall⟩ := w.call_world c
    have hlog : (w.call c).2.log = log := by rw [hcall]
    refine ⟨w.call_quiet fun e _ => hquiet e, ?_⟩
    show Unwritten E w.remote (w.call c).2
    refine ⟨?_, ?_, ?_, fun event hevent => ?_⟩
    · rw [hcall]
      exact after_of_readOnly hs c
    · rw [hlog, hcontext]
      exact hquiet
    · rw [hcall]
      exact hright
    · have hrecords : Audit.Logging.Records (fun event => ¬ event.TellsChange) (w.remote.serve c) := by
        cases c with
        | groupsOf user => exact .pure _
        | policy c =>
          show Audit.Logging.Records _ (w.remote.policy c)
          rw [Site.policy, if_pos hs]
          exact (Backend.records_serveReadOnly _ c).onPart _ _
      exact (hrecords ⟨w.remote, w.log⟩ event hevent).elim (hevents event) id
  | chore q =>
    cases q with
    | report event =>
      refine ⟨Audit.Log.record_eq_ok (hquiet event), rfl, ?_, hright, fun e he => ?_⟩
      · exact (w.log.context_record event).symm ▸ hquiet
      · rcases Audit.Log.mem_record he with he | rfl
        · exact hevents e he
        · exact hq
    | find k =>
      refine ⟨fun b hb => ?_, rfl, hquiet, fun j slot hj => ?_, hevents⟩
      · obtain ⟨slot, hslot, -, hallowed, -⟩ := Cache.get?_of_found hb
        obtain ⟨b', hb', hverdict⟩ := Site.backs_iff.mp (hright k slot hslot)
        rw [hallowed] at hb'
        rw [Option.some.inj hb']
        exact hverdict
      · exact hright j slot (Cache.get?_of_find hj)
    | keep k d =>
      refine ⟨trivial, rfl, hquiet, fun j slot hj => ?_, hevents⟩
      rcases Cache.get?_of_keep hj with ⟨rfl, hallowed⟩ | ⟨-, hj⟩
      · rw [hallowed]
        exact hq
      · exact hright j slot hj
    | forget scope =>
      exact ⟨trivial, rfl, hquiet, fun j slot hj => hright j slot (Cache.get?_forget.mp hj).1, hevents⟩
    | acquire | release => exact ⟨trivial, rfl, hquiet, hright, hevents⟩

end

/-! ### What tasks come to -/

/-- Whatever it is answered under the rules, the task ends in the result. -/
def Yields (E : Engine) (s : Site) (p : Task α) (x : Except Fault α) : Prop :=
  p.Leads (fixed E s) (fun y _ => y = x) ()

namespace Yields

variable {E : Engine} {s : Site} {p : Task α} {f : α → Task β} {a : α} {y : Except Fault β}
  {fault : Fault}

theorem conclude (x : Except Fault α) : Yields E s (Procedure.conclude x : Task α) x := rfl

theorem bind (hp : Yields E s p (.ok a)) (hf : Yields E s (f a) y) : Yields E s (p >>= f) y := by
  refine Leads.bind hp (fun b _ hb => ?_) fun e _ he => ?_
  · obtain rfl := Except.ok.inj hb
    exact hf
  · cases he

theorem bind_error (hp : Yields E s p (.error fault)) : Yields E s (p >>= f) (.error fault) := by
  refine Leads.bind hp (fun b _ hb => ?_) fun e _ he => ?_
  · cases hb
  · obtain rfl := Except.error.inj he
    rfl

theorem outcome {x : Except Fault α} (hp : Yields E s p x) :
    Yields E s (Procedure.outcome p) (.ok x) := by
  refine Leads.outcome (Dialogue.Leads.mono hp ?_)
  rintro _ _ rfl
  rfl

theorem call (c : Call) : Yields E s (Procedure.call c) (s.answer c) := ⟨trivial, fun _ _ h => h⟩

theorem refused {c : Backend.Call} (hs : s.readOnly = true) (hc : Barred c) :
    Yields E s (policy c) (.error (.unsupportedOperation c.name)) := by
  rw [← answer_of_readOnly hs hc]
  exact call (.policy c)

theorem report {event : Audit.Event} (h : ¬ event.TellsChange) :
    Yields E s (Procedure.report event : Task Unit) (.ok ()) := ⟨h, fun _ _ h => h⟩

theorem handling {x : Except Fault α} (hp : Yields E s p x) :
    Yields E s p.handling (x.mapError Fault.whileHandling) := by
  refine Leads.handling (Dialogue.Leads.mono hp ?_)
  rintro _ _ rfl
  rfl

theorem onFault {x : Except Fault α} {event : Fault → Audit.Event} (hp : Yields E s p x)
    (h : ∀ fault, ¬ (event fault).TellsChange) :
    Yields E s (p.onFault fun fault => Procedure.report (event fault)) x := by
  refine bind hp.outcome ?_
  cases x with
  | ok a => rfl
  | error fault => exact bind (report (h fault)).handling rfl

theorem locked {x : Except Fault α} {pair : Pair} (hp : Yields E s p x) :
    Yields E s (p.locked pair) x := by
  refine Leads.locked trivial fun _ _ => Dialogue.Leads.mono hp ?_
  rintro _ _ rfl
  exact ⟨trivial, fun _ _ => rfl⟩

theorem ask_bind {q : Chore} {f : q.Reply → Task β} (hmay : (fixed E s).may (.chore q) ())
    (hf : ∀ reply, (fixed E s).gives (.chore q) () reply () → Yields E s (f reply) y) :
    Yields E s (ask q >>= f) y := ⟨hmay, fun reply _ h => hf reply h⟩

theorem reports {event : α → Audit.Event} (h : ∀ a, ¬ (event a).TellsChange) (l : List α) :
    Yields E s (l.forM fun a => Procedure.report (event a) : Task Unit) (.ok ()) := by
  induction l with
  | nil => rfl
  | cons a l ih => exact bind (report (h a)) ih

/-- Decisions may be dropped whatever is cached. -/
theorem invalidate_bind {e : Entity} {f : Nat → Task β} (hf : ∀ n, Yields E s (f n) y) :
    Yields E s (Cache.invalidateSubtree e >>= f) y := by
  simp only [Cache.invalidateSubtree, Cache.invalidateOn, bind_assoc, pure_bind]
  exact ask_bind trivial fun n _ => bind (report id) (hf n)

/-- What fails between two droppings of decisions goes on to fail. -/
theorem sweeping {e : Entity} {failed : Fault → Audit.Event} {succeeded : α → Audit.Event}
    (hp : Yields E s p (.error fault)) (h : ∀ fault, ¬ (failed fault).TellsChange) :
    Yields E s (Engine.sweeping e p failed succeeded) (.error fault) :=
  invalidate_bind fun _ => bind_error (onFault hp h)

end Yields

/-! ### Enforcements -/

section

variable {E : Engine} {s : Site} {e : Entity} {p : Principal} {k : Cache.Key} {path : Path}

theorem yields_load (hs : s.readOnly = true) (hp : E.resolver.resolve k.entity = .ok path) :
    Yields E s (Cache.load E.loadDecision k) ((s.verdict E.resolver k).map some) := by
  rw [Cache.load, loadDecision_of_resolve hp, ← answer_authorize hs hp]
  exact .onFault (.call _) fun _ => id

theorem yields_store {b : Bool} (hb : s.verdict E.resolver k = .ok b) :
    Yields E s (Cache.store k (some b) : Task Unit) (.ok ()) :=
  .ask_bind (Site.backs_iff.mpr ⟨b, rfl, hb⟩) fun evicted _ => .reports (fun _ => id) evicted

/-- Whatever has been cached, a decision is the verdict of the site. -/
theorem yields_decision (hs : s.readOnly = true) (hp : E.resolver.resolve k.entity = .ok path) :
    Yields E s (E.decision k) ((s.verdict E.resolver k).map some) := by
  rw [decision, Cache.consult]
  split
  · refine .ask_bind trivial fun found hfound => ?_
    cases found with
    | some b =>
      rw [hfound b rfl]
      exact .bind (.report id) rfl
    | none =>
      refine .bind (.report id) ?_
      have hload := yields_load hs hp
      cases hverdict : s.verdict E.resolver k with
      | error f =>
        rw [hverdict] at hload
        exact .bind_error hload
      | ok b =>
        rw [hverdict] at hload
        exact .bind hload (.bind (yields_store hverdict) rfl)
  · exact yields_load hs hp

theorem yields_deniedAmong (hs : s.readOnly = true) (hp : E.resolver.resolve e = .ok path)
    (actions : List Action) :
    Yields E s (E.deniedAmong e p actions) (s.deniedAt E.resolver e p actions) := by
  induction actions with
  | nil => rfl
  | cons a rest ih =>
    have hdecision := yields_decision (k := ⟨p, e, a⟩) hs hp
    rw [deniedAmong, deniedAt]
    cases hverdict : s.verdict E.resolver ⟨p, e, a⟩ with
    | error f =>
      rw [hverdict] at hdecision
      exact .bind_error hdecision
    | ok allowed =>
      rw [hverdict] at hdecision
      refine .bind hdecision ?_
      cases hdenied : s.deniedAt E.resolver e p rest with
      | error f =>
        rw [hdenied] at ih
        exact .bind_error ih
      | ok denied =>
        rw [hdenied] at ih
        refine .bind ih ?_
        cases allowed <;> rfl

theorem yields_groupsOf (E : Engine) (s : Site) (user : String) :
    Yields E s (E.groupsOf user) (.ok (E.groupsAt s user)) := by
  rw [groupsOf, groupsAt]
  split
  · exact .bind (.call (.groupsOf user)) rfl
  · rfl

theorem yields_bypass (E : Engine) (s : Site) (user : String) :
    Yields E s (E.bypass user) (.ok (E.bypassAt s user)) := by
  rw [bypass, bypassAt]
  split
  · rfl
  · cases E.adminGroup with
    | none => rfl
    | some admins => exact .bind (yields_groupsOf E s user) rfl

theorem yields_judge (hs : s.readOnly = true) (hp : E.resolver.resolve e = .ok path)
    (actions : List Action) : Yields E s (E.judge e p actions)
      (if (E.bypassAt s p.name).isSome then .ok .bypassed
        else (s.deniedAt E.resolver e p actions).map .decided) := by
  refine .bind (yields_bypass E s p.name) ?_
  cases E.bypassAt s p.name with
  | some reason => exact .bind (.report id) rfl
  | none =>
    have hdenied := yields_deniedAmong (p := p) hs hp actions
    show Yields E s (E.deniedAmong e p actions >>= fun denied => pure (Finding.decided denied)) _
    cases hx : s.deniedAt E.resolver e p actions with
    | error f =>
      rw [hx] at hdenied
      exact .bind_error hdenied
    | ok denied =>
      rw [hx] at hdenied
      exact .bind hdenied rfl

theorem yields_enforce (hs : s.readOnly = true) (e : Entity) (p : Principal) (actions : List Action) :
    Yields E s (E.enforce e p actions) (E.ruling s e p actions) := by
  by_cases hk : p.kind = .user
  · cases hp : E.resolver.resolve e with
    | error f =>
      rw [ruling_of_unresolved hk hp, enforce, if_neg (not_not_intro hk), hp]
      rfl
    | ok path =>
      have hjudge : Yields E s ((E.judge e p (Action.distinct actions)).onFault fun f =>
          report (.enforceFailed p.text e.text f)) _ := .onFault (yields_judge hs hp _) fun _ => id
      rw [enforce, if_neg (not_not_intro hk), hp]
      show Yields E s ((E.judge e p _).onFault _ >>= _) _
      cases hb : E.bypassAt s p.name with
      | some reason =>
        rw [ruling_of_bypass hk hp (by rw [hb]; rfl)]
        rw [hb] at hjudge
        exact .bind hjudge rfl
      | none =>
        rw [ruling_of_checks ⟨hk, hb⟩ hp]
        rw [hb] at hjudge
        cases hx : s.deniedAt E.resolver e p (Action.distinct actions) with
        | error f =>
          rw [hx] at hjudge
          exact .bind_error hjudge
        | ok denied =>
          rw [hx] at hjudge
          refine .bind hjudge ?_
          cases denied with
          | nil => exact .report id
          | cons a rest => exact .bind (.report id) rfl
  · rw [ruling_of_kind hk, enforce, if_pos hk]
    rfl

end

/-! ### Errands -/

/-- What an errand ends in over a guarded backend at the site: the checks that the engine makes of the
arguments, and then a refusal of the first call that is no authorization. An enforcement makes none;
nor does a grant of no action. -/
def Errand.ruledAt (E : Engine) (s : Site) : Errand → Except Fault Unit
  | perform (.enforce e p actions) => E.ruling s e p actions
  | perform (.grant e p actions) => do
    if actions = [] then return ()
    let _ ← E.resolver.resolve e
    throw (.unsupportedOperation (if p.kind = .role then "grant" else "create_role"))
  | perform (.revoke e _ _) => do
    let _ ← E.resolver.resolve e
    throw (.unsupportedOperation "revoke")
  | perform (.revokeAll e) => do
    let _ ← E.resolver.resolve e
    throw (.unsupportedOperation "revoke_all_on_resource")
  | perform (.createRole role) => do
    if ShadowRole.isReserved role then throw (.reservedRoleName role)
    throw (.unsupportedOperation "create_role")
  | perform (.dropRole role) => do
    if ShadowRole.isReserved role then throw (.reservedRoleName role)
    throw (.unsupportedOperation "drop_role")
  | perform (.addMember role p) => do
    if ShadowRole.isReserved role then throw (.reservedRoleName role)
    if p.kind = .role then throw (.invalidPrincipalKind p "add_principal_to_role")
    throw (.unsupportedOperation "attach_principal_to_role")
  | perform (.removeMember role p) => do
    if ShadowRole.isReserved role then throw (.reservedRoleName role)
    if p.kind = .role then throw (.invalidPrincipalKind p "remove_principal_from_role")
    throw (.unsupportedOperation "detach_principal_from_role")
  | listRoles p => do
    if p.kind = .role then throw (.invalidPrincipalKind p "list_roles")
    throw (.unsupportedOperation "list_roles")
  | listAllRoles => throw (.unsupportedOperation "list_all_roles")
  | listPrivileges _ => throw (.unsupportedOperation "list_privileges")

section

variable {E : Engine} {s : Site} {e : Entity} {p : Principal} {path : Path} {role operation : String}
  {actions : List Action} {fault : Fault}

/-- A shadow role that may not be created has not been there either. -/
theorem yields_ensureRole (hs : s.readOnly = true) (role : String) :
    Yields E s (ensureRole role) (.error (.unsupportedOperation "create_role")) := by
  have hcreate : Yields E s (do
      policy (.createRole role)
      report (.shadowRoleCreated role) : Task Unit) (.error (.unsupportedOperation "create_role")) :=
    .bind_error (.refused hs trivial)
  exact .bind hcreate.outcome rfl

theorem yields_grantOn (hs : s.readOnly = true) (hp : E.resolver.resolve e = .ok path) :
    Yields E s (E.grantOn e path p actions)
      (.error (.unsupportedOperation (if p.kind = .role then "grant" else "create_role"))) := by
  rw [grantOn]
  split
  · exact .bind_error (.refused hs trivial)
  · rename_i hk
    refine .locked ?_
    rw [grantThrough, ShadowRole.name?_of_resolve hp hk]
    exact .bind (.conclude (.ok _)) (.bind_error (yields_ensureRole hs _))

theorem yields_revokeOn (hs : s.readOnly = true) (hp : E.resolver.resolve e = .ok path) :
    Yields E s (E.revokeOn e path p actions) (.error (.unsupportedOperation "revoke")) := by
  rw [revokeOn]
  split
  · exact .bind_error (.refused hs trivial)
  · rename_i hk
    refine .locked ?_
    rw [revokeThrough, ShadowRole.name?_of_resolve hp hk]
    have hrevoke : Yields E s (policy (.revoke path (ShadowRole.nameOn path p) actions))
        (.error (.unsupportedOperation "revoke")) := .refused hs trivial
    exact .bind (.conclude (.ok _)) (.bind hrevoke.outcome rfl)

theorem yields_checkRoleName {f : Unit → Task Unit} {y : Except Fault Unit}
    (hf : Yields E s (f ()) y) : Yields E s (checkRoleName role >>= f) (do
      if ShadowRole.isReserved role then throw (.reservedRoleName role)
      y) := by
  rw [checkRoleName]
  split
  · rfl
  · exact hf

theorem yields_checkMember {β : Type} {f : Unit → Task β} {y : Except Fault β}
    (hf : Yields E s (f ()) y) : Yields E s (checkMember operation p >>= f) (do
      if p.kind = .role then throw (.invalidPrincipalKind p operation)
      y) := by
  rw [checkMember]
  split
  · rfl
  · exact hf

theorem yields_roleOperation {about : Option Principal} {task : Task Unit}
    (h : Yields E s task (.error fault)) :
    Yields E s (roleOperation operation role about task) (.error fault) :=
  .bind_error (h.onFault fun _ => id)

theorem yields_grant (hs : s.readOnly = true) (e : Entity) (p : Principal) (actions : List Action) :
    Yields E s (E.grant e p actions) (Errand.ruledAt E s (.perform (.grant e p actions))) := by
  rw [Errand.ruledAt]
  by_cases hne : actions = []
  · rw [grant, if_pos (isEmpty_distinct.mpr hne), if_pos hne]
    rfl
  · rw [if_neg hne]
    cases hp : E.resolver.resolve e with
    | error f =>
      rw [grant, if_neg fun h => hne (isEmpty_distinct.mp h), hp]
      rfl
    | ok path =>
      rw [grant_of_resolve (fun h => hne (isEmpty_distinct.mp h)) hp]
      exact .sweeping (yields_grantOn hs hp) fun _ => id

theorem yields_revoke (hs : s.readOnly = true) (e : Entity) (p : Principal) (actions : List Action) :
    Yields E s (E.revoke e p actions) (Errand.ruledAt E s (.perform (.revoke e p actions))) := by
  rw [Errand.ruledAt]
  cases hp : E.resolver.resolve e with
  | error f =>
    rw [revoke, hp]
    rfl
  | ok path =>
    rw [revoke_of_resolve p actions hp]
    exact .sweeping (yields_revokeOn hs hp) fun _ => id

theorem yields_revokeAll (hs : s.readOnly = true) (e : Entity) :
    Yields E s (E.revokeAll e) (Errand.ruledAt E s (.perform (.revokeAll e))) := by
  rw [Errand.ruledAt, revokeAll]
  cases hp : E.resolver.resolve e with
  | error f => rfl
  | ok path =>
    have hbody : Yields E s (E.revokeAllOn e path)
        (.error (.unsupportedOperation "revoke_all_on_resource")) :=
      .bind_error (.refused hs trivial)
    exact .bind (.conclude (.ok path)) (Yields.sweeping hbody fun _ => id)

theorem yields_errand (hs : s.readOnly = true) (x : Errand) :
    Yields E s (x.task E) (x.ruledAt E s) := by
  cases x with
  | perform o =>
    cases o with
    | enforce e p actions => exact yields_enforce hs e p actions
    | grant e p actions => exact yields_grant hs e p actions
    | revoke e p actions => exact yields_revoke hs e p actions
    | revokeAll e => exact yields_revokeAll hs e
    | createRole role => exact yields_checkRoleName (yields_roleOperation (.refused hs trivial))
    | dropRole role =>
      exact yields_checkRoleName (.bind_error (yields_roleOperation (.refused hs trivial)))
    | addMember role p =>
      exact yields_checkRoleName (yields_checkMember
        (.bind_error (yields_roleOperation (.refused hs trivial))))
    | removeMember role p =>
      exact yields_checkRoleName (yields_checkMember
        (.bind_error (yields_roleOperation (.refused hs trivial))))
  | listRoles p =>
    have hlist : Yields E s (policy (.listRoles p)) (.error (.unsupportedOperation "list_roles")) :=
      .refused hs trivial
    have hcheck : Yields E s (checkMember "list_roles" p >>= fun _ => policy (.listRoles p)) _ :=
      yields_checkMember hlist
    show Yields E s ((checkMember "list_roles" p >>= fun _ => policy (.listRoles p)) >>= fun _ =>
      pure ()) _
    rw [Errand.ruledAt]
    by_cases hk : p.kind = .role
    · rw [if_pos hk] at hcheck ⊢
      exact .bind_error hcheck
    · rw [if_neg hk] at hcheck ⊢
      exact .bind_error hcheck
  | listAllRoles => exact .bind_error (.refused hs trivial)
  | listPrivileges p => exact .bind_error (.refused hs trivial)

end

/-- The same site behind a guard. -/
def Site.guarded (s : Site) : Site := { s with readOnly := true }

theorem ruling_guarded (E : Engine) (s : Site) (e : Entity) (p : Principal) (actions : List Action) :
    E.ruling s.guarded e p actions = E.ruling s e p actions := by
  have hdenied : ∀ l, s.guarded.deniedAt E.resolver e p l = s.deniedAt E.resolver e p l := by
    intro l
    induction l with
    | nil => rfl
    | cons a rest ih =>
      have hverdict : s.guarded.verdict E.resolver ⟨p, e, a⟩ = s.verdict E.resolver ⟨p, e, a⟩ := rfl
      rw [Site.deniedAt, Site.deniedAt, hverdict, ih]
  have hbypass : E.bypassAt s.guarded p.name = E.bypassAt s p.name := rfl
  rw [ruling, ruling, hbypass, hdenied]

theorem ruledAt_guarded (E : Engine) (s : Site) (x : Errand) :
    x.ruledAt E s.guarded = x.ruledAt E s := by
  cases x with
  | perform o =>
    cases o with
    | enforce e p actions => exact ruling_guarded E s e p actions
    | _ => rfl
  | _ => rfl

/-! ### Side by side -/

variable {E : Engine} {s : Site}

/-- The errands that a schedule begins. -/
def begun (schedule : List (Move τ)) : List Errand :=
  schedule.filterMap fun
    | .start x => some x
    | _ => none

namespace Pool

variable {P : Pool τ} {xs : List Errand}

/-- The world is at the site, and the threads are what is left of the errands; what each comes to is
known. -/
structure Fixed (E : Engine) (s : Site) (xs : List Errand) (P : Pool τ) : Prop where
  world : Unwritten E s P.world
  length : P.threads.length = xs.length
  threads : ∀ (i : Nat) d, P.threads[i]? = some d → ∃ x : Errand, xs[i]? = some x ∧
    Dialogue.Leads (fixed E s) (fun y _ => y = x.ruledAt E s) d ()

namespace Fixed

theorem set (h : Fixed E s xs P) {n : Nat} {q : Request Call} {next : q.Reply → Thread}
    (hthread : P.threads[n]? = some (.ask q next)) {reply : q.Reply}
    (hgives : (fixed E s).gives q () reply ()) {world : World Site τ} (hworld : Unwritten E s world)
    (locked : List Pair) : Fixed E s xs ⟨world, P.threads.set n (next reply), locked⟩ := by
  refine ⟨hworld, List.length_set.trans h.length, fun i d hd => ?_⟩
  by_cases hi : i = n
  · subst hi
    rw [List.getElem?_set_self (List.getElem?_eq_some_iff.mp hthread).1] at hd
    obtain rfl := Option.some.inj hd
    obtain ⟨x, hx, -, hnext⟩ := h.threads i _ hthread
    exact ⟨x, hx, hnext reply () hgives⟩
  · rw [List.getElem?_set_ne (Ne.symm hi)] at hd
    exact h.threads i d hd

variable [Add τ] [LE τ] [DecidableLE τ]

theorem go (h : Fixed E s xs P) (hs : s.readOnly = true) (n : Nat) :
    Fixed E s xs (P.go n .carriedOut) := by
  have hgoes := P.goes n
  generalize P.go n .carriedOut = P', P.taker? (.go n .carriedOut) = who at hgoes ⊢
  cases hgoes with
  | stays => exact h
  | takes hthread => exact h.set hthread trivial h.world _
  | gives hthread => exact h.set hthread trivial h.world _
  | answered hthread =>
    obtain ⟨x, -, hmay, -⟩ := h.threads n _ hthread
    obtain ⟨hgives, hworld⟩ := h.world.answer hs hmay
    exact h.set hthread hgives hworld _

theorem start (h : Fixed E s xs P) (hs : s.readOnly = true) (x : Errand) :
    Fixed E s (xs ++ [x]) (Pool.step E (.start x) P) := by
  refine ⟨h.world, ?_, fun i d hd => ?_⟩
  · show (P.threads ++ [_]).length = _
    rw [List.length_append, List.length_append, h.length]
    rfl
  · rcases getElem?_concat_cases hd with hold | ⟨rfl, rfl⟩
    · obtain ⟨x', hx', hend⟩ := h.threads i d hold
      refine ⟨x', ?_, hend⟩
      rw [List.getElem?_append_left (List.getElem?_eq_some_iff.mp hx').1, hx']
    · refine ⟨x, ?_, yields_errand hs x⟩
      rw [h.length, List.getElem?_concat_length]

theorem run (h : Fixed E s xs P) (hs : s.readOnly = true) {schedule : List (Move τ)}
    (hschedule : ∀ n fate, .go n fate ∈ schedule → fate = .carriedOut) :
    Fixed E s (xs ++ begun schedule) (Pool.run E schedule P) := by
  induction schedule generalizing xs P with
  | nil => exact (List.append_nil xs).symm ▸ h
  | cons m rest ih =>
    have hrest : ∀ n fate, .go n fate ∈ rest → fate = .carriedOut := fun n fate hmem =>
      hschedule n fate (List.mem_cons_of_mem _ hmem)
    cases m with
    | start x =>
      show Fixed E s (xs ++ ([x] ++ begun rest)) _
      rw [← List.append_assoc]
      exact ih (h.start hs x) hrest
    | wait d =>
      obtain ⟨hworld, hlength, hthreads⟩ := h
      exact ih ⟨⟨hworld.remote, hworld.quiet, hworld.right, hworld.events⟩, hlength, hthreads⟩ hrest
    | go n fate =>
      obtain rfl := hschedule n fate List.mem_cons_self
      exact ih (h.go hs n) hrest

end Fixed

variable [Add τ] [LE τ] [DecidableLE τ]

/-- Whatever becomes of the calls, the site stays as it is. -/
theorem remote_run_of_readOnly {w : World Site τ} (hs : w.remote.readOnly = true)
    (schedule : List (Move τ)) : (Pool.run E schedule (.idle w)).world.remote = w.remote := by
  have hidle : Obeys (fun _ => True) (· = w.remote) (Pool.idle w) := .idle rfl
  have hrun : Obeys (fun _ => True) (· = w.remote) (Pool.run E schedule (.idle w)) := by
    refine hidle.run (fun c t _ ht => ?_) fun x _ => ?_
    · rw [ht]
      exact after_of_readOnly hs c
    · exact Errand.asks_plain (fun _ _ => trivial) fun o _ =>
        asks_perform E (fun _ _ => trivial) (fun _ _ _ _ _ _ => trivial) fun _ _ => ⟨trivial, trivial⟩
  exact hrun.site

end Pool

variable [Add τ] [LE τ] [DecidableLE τ]

/-- Alone in such a world, an errand ends in what is known. -/
theorem Unwritten.run {w : World Site τ} (h : Unwritten E s w) (hs : s.readOnly = true) (x : Errand) :
    (World.run (x.task E) w).1 = x.ruledAt E s ∧ Unwritten E s (World.run (x.task E) w).2 := by
  have hanswer : ∀ q r (v : World Site τ), Unwritten E s v → (fixed E s).may q r →
      ∃ r', (fixed E s).gives q r (World.answer q v).1 r' ∧ Unwritten E s (World.answer q v).2 :=
    fun q _ _ hv hmay => ⟨(), hv.answer hs hmay⟩
  obtain ⟨-, hresult, hworld⟩ := Dialogue.Leads.run hanswer (yields_errand hs x) h
  exact ⟨hresult, hworld⟩

/-- A guarded backend is never written, and never ignored in silence. Whatever errands are run side by
side from any roles, the site stays as it is, even if calls fail on their way. If no call does, an
errand, in company or alone, ends in what its arguments determine: a grant of some action, a
revocation and every operation on roles or listing in the refusal of what it attempts, once the
engine accepts its arguments, and an enforcement in the verdicts of the backend behind the guard. No
event tells of a change, nor of a race over a shadow role. -/
theorem read_only_exact (limits : Cache.Limits τ) (clock : τ) {context : Audit.Context}
    (hq : context.Quiet) (E : Engine) (s : Site) (schedule : List (Move τ)) :
    let P := Pool.run E schedule (.idle (World.new limits clock context s.guarded))
    P.world.remote = s.guarded ∧
      ((∀ n fate, .go n fate ∈ schedule → fate = .carriedOut) →
        (∀ i x y, (begun schedule)[i]? = some x → P.result? i = some y → y = x.ruledAt E s) ∧
        (∀ x : Errand, (World.run (x.task E) P.world).1 = x.ruledAt E s) ∧
        ∀ event ∈ P.world.log.events, ¬ event.TellsChange) := by
  intro P
  constructor
  · exact Pool.remote_run_of_readOnly rfl schedule
  · intro hschedule
    have hnew : Unwritten E s.guarded (World.new (τ := τ) limits clock context s.guarded) :=
      ⟨rfl, hq, fun k slot hk => (by cases hk), fun event hevent => (by cases hevent)⟩
    have hidle : Pool.Fixed E s.guarded [] (.idle (World.new limits clock context s.guarded)) :=
      ⟨hnew, rfl, fun i d hd => (by cases hd)⟩
    have hrun := hidle.run rfl hschedule
    refine ⟨fun i x y hx hy => ?_, fun x => ?_, hrun.world.events⟩
    · obtain ⟨x', hx', hend⟩ := hrun.threads i _ (Pool.result?_eq_some_iff.mp hy)
      obtain rfl := Option.some.inj (hx.symm.trans hx')
      exact hend.trans (ruledAt_guarded E s x)
    · exact (hrun.world.run rfl x).1.trans (ruledAt_guarded E s x)

namespace Sample

/-- Ada asks to read and to write while others try to grant her to write, to take everything away, to
make Ben a reader and to list the roles; all go on in turn. -/
def attempts : List (Move Nat) :=
  [.start (.perform (.enforce root ada [.read, .write])),
    .start (.perform (.grant root ada [.write])), .start (.perform (.revokeAll root)),
    .start (.perform (.addMember "readers" ben)), .start .listAllRoles] ++
    (List.replicate 15 ((List.range 5).map fun n => .go n .carriedOut)).flatten

theorem carriedOut_of_mem_attempts {n : Nat} {fate : Fate} (h : .go n fate ∈ attempts) :
    fate = .carriedOut := by
  rcases List.mem_append.mp h with h | h
  · simp at h
  · obtain ⟨round, hround, hmem⟩ := List.mem_flatten.mp h
    rw [List.eq_of_mem_replicate hround] at hmem
    obtain ⟨m, -, hgo⟩ := List.mem_map.mp hmem
    exact (Move.go.inj hgo).2.symm

/-- What becomes of them at the site where readers may read, behind a guard. -/
def attempted : Pool Nat :=
  Pool.run engine attempts (.idle (.new ⟨10, 5⟩ 0 .empty granted.remote.guarded))

/-- All attempts to change something are refused, and Ada, who is a reader, is denied to write only. -/
theorem refused_by_guard :
    (List.range 5).map attempted.result? =
      [some (.error (.unauthorized ada root [.write])),
        some (.error (.unsupportedOperation "create_role")),
        some (.error (.unsupportedOperation "revoke_all_on_resource")),
        some (.error (.unsupportedOperation "attach_principal_to_role")),
        some (.error (.unsupportedOperation "list_all_roles"))] ∧
      attempted.world.remote = granted.remote.guarded ∧
      (∀ event ∈ attempted.world.log.events, ¬ event.TellsChange) ∧
      (World.run (engine.perform (.dropRole "readers")) attempted.world).1 =
        .error (.unsupportedOperation "drop_role") := by
  refine ⟨by decide +kernel, ?_⟩
  unfold attempted
  obtain ⟨hremote, hexact⟩ := read_only_exact (τ := Nat) ⟨10, 5⟩ 0 Audit.Context.quiet_empty engine
    granted.remote attempts
  obtain ⟨-, halone, hevents⟩ := hexact fun _ _ => carriedOut_of_mem_attempts
  exact ⟨hremote, hevents, halone (.perform (.dropRole "readers"))⟩

end Sample

end Engine

end Warrant
