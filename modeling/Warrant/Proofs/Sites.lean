import Warrant.Proofs.Decisions

/-!
# What a remote call does to its site

A call changes the roles as `Backend.Call.apply` says, whether or not its event can be recorded
(`Backend.settles_serve`), so that the site after it is known from the site before it (`Site.after`).
The verdict of a site on a key is what its backend answers for it; a call changes no verdict but on
keys at paths that it touches (`Site.after_agreesOff`).
-/

namespace Warrant

/-- The fault tells of a clash of field names, met in the handling of another fault or not. -/
def Fault.IsClash (f : Fault) : Prop :=
  ∃ field, f = .fieldClash field ∨ f = .missingKey (some field)

theorem Fault.isClash_fieldClash (field : String) : (Fault.fieldClash field).IsClash :=
  ⟨field, .inl rfl⟩

theorem Fault.IsClash.whileHandling {f : Fault} (h : f.IsClash) : f.whileHandling.IsClash := by
  rcases f.whileHandling_cases with hsame | ⟨field, -, hmissing⟩
  · rwa [hsame]
  · exact ⟨field, .inr hmissing⟩

namespace Audit

theorem Log.context_record (log : Log) (e : Event) : (log.record e).2.context = log.context := by
  rw [Log.record]
  split <;> rfl

theorem Log.record_cases (log : Log) (e : Event) : (log.record e).1 = .ok () ∨
    log.context.clash? e ≠ none ∧ ∃ field, (log.record e).1 = .error (.fieldClash field) := by
  rw [Log.record]
  cases log.context.clash? e with
  | none => exact .inl rfl
  | some field => exact .inr ⟨nofun, field, rfl⟩

theorem Log.record_eq_ok {log : Log} {e : Event} (h : log.context.clash? e = none) :
    (log.record e).1 = .ok () := by
  rw [Log.record, h]

theorem Log.record_of_fits {log : Log} {e : Event} (h : log.context.clash? e = none) :
    log.record e = (.ok (), { log with events := log.events ++ [e] }) := by
  rw [Log.record, h]

/-- Every event can be recorded. -/
def Context.Quiet (c : Context) : Prop := ∀ e, c.clash? e = none

theorem Context.quiet_empty : Context.empty.Quiet := by
  intro e
  refine List.find?_eq_none.mpr fun name _ => ?_
  rw [show Context.empty.fields = .empty from rfl]
  exact Bool.false_ne_true

namespace Logging

variable {σ α β : Type} {x : Logged σ}

theorem run_bind (m : Logging σ α) (f : α → Logging σ β) (x : Logged σ) :
    (m >>= f) x = match m x with
      | (.ok a, y) => f a y
      | (.error e, y) => (.error e, y) := by
  simp only [bind, ExceptT.bind, ExceptT.mk, StateT.bind]
  cases m x with
  | mk result y => cases result <;> rfl

theorem run_update (f : σ → Except Fault σ) (x : Logged σ) : update f x = match f x.state with
    | .ok s => (.ok (), { x with state := s })
    | .error e => (.error e, x) := by
  rw [update, run_bind]
  show (ExceptT.mk (pure (f x.state)) >>= fun state => set { x with state } : Logging σ Unit) x = _
  rw [run_bind, show (ExceptT.mk (pure (f x.state)) : Logging σ σ) x = (f x.state, x) from rfl]
  cases f x.state <;> rfl

theorem run_inspect (f : σ → Except Fault α) (x : Logged σ) : inspect f x = (f x.state, x) := rfl

theorem run_report (e : Event) (x : Logged σ) :
    (report e : Logging σ Unit) x = ((x.log.record e).1, { x with log := (x.log.record e).2 }) := rfl

/-- What is known of a step whether or not its events are recorded: the state after it, and what it
answers when none of the events that it may report clashes. It answers otherwise only because of a
clash. -/
structure Settles (x : Logged σ) (reports : Event → Prop) (s : σ) (reply : Except Fault α)
    (out : Except Fault α × Logged σ) : Prop where
  state : out.2.state = s
  context : out.2.log.context = x.log.context
  sound : ∀ a, out.1 = .ok a → reply = .ok a
  quiet : (∀ e, reports e → x.log.context.clash? e = none) → out.1 = reply
  clash : out.1 = reply ∨ ∃ field, out.1 = .error (.fieldClash field)

theorem Settles.inspect (f : σ → Except Fault α) (x : Logged σ) (reports : Event → Prop) :
    Settles x reports x.state (f x.state) (Logging.inspect f x) :=
  ⟨rfl, rfl, fun _ h => h, fun _ => rfl, .inl rfl⟩

/-- A step that does something and then reports one event. -/
theorem Settles.report {m : Logging σ α} {s : σ} {reply : Except Fault α} {reports : Event → Prop}
    (hm : Settles x reports s reply (m x)) (e : α → Event) (he : ∀ a, reports (e a)) :
    Settles x reports s reply ((m >>= fun a => Logging.report (e a) >>= fun _ => pure a) x) := by
  obtain ⟨hs, hc, ha, hq, hl⟩ := hm
  rw [run_bind]
  cases hy : m x with
  | mk result y =>
    rw [hy] at hs hc ha hq hl
    cases result with
    | error fault => exact ⟨hs, hc, ha, hq, hl⟩
    | ok a =>
      show Settles x reports s reply ((Logging.report (e a) >>= fun _ => pure a) y)
      rw [run_bind, run_report]
      have hlog := y.log.context_record (e a)
      rcases y.log.record_cases (e a) with hr | ⟨hclash, field, hr⟩
      · rw [hr]
        exact ⟨hs, hlog.trans hc, ha, hq, hl⟩
      · rw [hr]
        refine ⟨hs, hlog.trans hc, nofun, fun hquiet => ?_, .inr ⟨field, rfl⟩⟩
        rw [hc] at hclash
        exact absurd (hquiet _ (he a)) hclash

theorem Settles.refuse (e : Event) (fault : Fault) {reports : Event → Prop} (he : reports e) :
    Settles x reports x.state (.error fault)
      ((Logging.report e >>= fun _ => throw fault : Logging σ α) x) := by
  rw [run_bind, run_report]
  have hlog := x.log.context_record e
  rcases x.log.record_cases e with hr | ⟨hclash, field, hr⟩
  · rw [hr]
    exact ⟨rfl, hlog, nofun, fun _ => rfl, .inl rfl⟩
  · rw [hr]
    exact ⟨rfl, hlog, nofun, fun hquiet => absurd (hquiet e he) hclash, .inr ⟨field, rfl⟩⟩

theorem Settles.onPart {ρ : Type} {part : σ → ρ} {m : Logging ρ α} {s : ρ} {reply : Except Fault α}
    {reports : Event → Prop}
    (hm : Settles ⟨part x.state, x.log⟩ reports s reply (m ⟨part x.state, x.log⟩))
    (put : ρ → σ → σ) :
    Settles x reports (put s x.state) reply (Logging.onPart part put m x) :=
  ⟨congrArg (put · x.state) hm.state, hm.context, hm.sound, hm.quiet, hm.clash⟩

theorem Settles.map {m : Logging σ α} {s : σ} {reply : Except Fault α} {reports : Event → Prop}
    (f : α → β) (hm : Settles x reports s reply (m x)) :
    Settles x reports s (reply.map f) ((f <$> m) x) := by
  have hmap : (f <$> m) x = ((m x).1.map f, (m x).2) := by
    rw [← bind_pure_comp, run_bind]
    cases m x with
    | mk result y => cases result <;> rfl
  rw [hmap]
  refine ⟨hm.state, hm.context, fun b h => ?_, fun hq => congrArg (Except.map f) (hm.quiet hq), ?_⟩
  · cases hr : (m x).1 with
    | error fault => rw [hr] at h; cases h
    | ok a =>
      rw [hr] at h
      rw [hm.sound a hr]
      exact h
  · exact hm.clash.imp (congrArg (Except.map f)) fun ⟨field, h⟩ => ⟨field, by rw [h]; rfl⟩

/-- The step does the same whatever has been recorded before. -/
def Deaf (m : Logging σ α) : Prop := ∀ x y : Logged σ, x.state = y.state →
  x.log.context = y.log.context → (m x).1 = (m y).1 ∧ (m x).2.state = (m y).2.state ∧
    (m x).2.log.context = (m y).2.log.context

theorem Deaf.pure (a : α) : Deaf (Pure.pure a : Logging σ α) := fun _ _ hs hc => ⟨rfl, hs, hc⟩

theorem Deaf.throw (f : Fault) : Deaf (MonadExcept.throw f : Logging σ α) :=
  fun _ _ hs hc => ⟨rfl, hs, hc⟩

theorem Deaf.bind {m : Logging σ α} {f : α → Logging σ β} (hm : Deaf m) (hf : ∀ a, Deaf (f a)) :
    Deaf (m >>= f) := by
  intro x y hs hc
  obtain ⟨hr, hs', hc'⟩ := hm x y hs hc
  rw [run_bind, run_bind]
  cases hx : m x with
  | mk result x' =>
    cases hy : m y with
    | mk result' y' =>
      rw [hx, hy] at hr hs' hc'
      obtain rfl : result = result' := hr
      cases result with
      | ok a => exact hf a x' y' hs' hc'
      | error e => exact ⟨rfl, hs', hc'⟩

theorem Deaf.inspect (f : σ → Except Fault α) : Deaf (Logging.inspect f) := by
  intro x y hs hc
  rw [run_inspect, run_inspect]
  exact ⟨congrArg f hs, hs, hc⟩

theorem Deaf.update (f : σ → Except Fault σ) : Deaf (Logging.update f) := by
  intro x y hs hc
  rw [run_update, run_update, hs]
  cases f y.state with
  | ok s => exact ⟨rfl, rfl, hc⟩
  | error e => exact ⟨rfl, hs, hc⟩

theorem Deaf.report (e : Event) : Deaf (Logging.report e : Logging σ Unit) := by
  intro x y hs hc
  rw [run_report, run_report]
  refine ⟨?_, hs, by rw [Log.context_record, Log.context_record, hc]⟩
  rw [Log.record, Log.record, hc]
  cases y.log.context.clash? e <;> rfl

theorem Deaf.onPart {ρ : Type} {m : Logging ρ α} (hm : Deaf m) (part : σ → ρ) (put : ρ → σ → σ) :
    Deaf (Logging.onPart part put m) := by
  intro x y hs hc
  obtain ⟨hr, hs', hc'⟩ := hm ⟨part x.state, x.log⟩ ⟨part y.state, y.log⟩ (congrArg part hs) hc
  refine ⟨hr, ?_, hc'⟩
  show put _ x.state = put _ y.state
  rw [hs, show (m ⟨part y.state, x.log⟩).2.state = _ from hs ▸ hs']

end Logging

end Audit

namespace Backend

open Audit Audit.Logging

variable {setup : Setup} {c : Call} {s : RoleStore} {log : Log}

/-- The roles after a call: unchanged if it is refused. -/
def Call.after (c : Call) (s : RoleStore) : RoleStore :=
  match c.apply s with
  | .ok t => t
  | .error _ => s

/-- What a call answers if its event can be recorded. -/
def Call.answer (setup : Setup) : (c : Call) → RoleStore → Except Fault c.Answer
  | .authorize p path a, s => ((authorizes setup p path a s).mapError .malformed).map some
  | .createRole role, s => (s.create role).map fun _ => ()
  | .dropRole role, s => (s.drop role).map fun _ => ()
  | .attach role p, s => (s.change role (Role.attach p)).map fun _ => ()
  | .detach role p, s => (s.change role (Role.detach p)).map fun _ => ()
  | .grant path role actions, s => (s.change role (Role.grant path actions)).map fun _ => ()
  | .revoke path role actions, s => (s.change role (Role.revoke path actions)).map fun _ => ()
  | .revokeAllOn _, _ => .ok ()
  | .listPrivileges p, s => privileges setup p s
  | .listRoles p, s => (rolesFor setup p s).mapError .malformed
  | .listAllRoles, s => .ok s.names

/-- The events that an authorization may report; of the other calls nothing is said. -/
def Call.Reports : Call → Event → Prop
  | .authorize p path a, e => ∃ b, e = .authorizationChecked p.text path.text a b
  | _, _ => True

theorem settles_update (f : RoleStore → Except Fault RoleStore) (e : Event) (x : Logged RoleStore) :
    Settles x (fun _ => True) (match f x.state with | .ok t => t | .error _ => x.state)
      ((f x.state).map fun _ => ()) ((update f >>= fun _ => report e : Service Unit) x) := by
  have hm : Settles x (fun _ => True) (match f x.state with | .ok t => t | .error _ => x.state)
      ((f x.state).map fun _ => ()) (update f x) := by
    rw [run_update]
    cases f x.state with
    | error fault => exact ⟨rfl, rfl, fun _ h => h, fun _ => rfl, .inl rfl⟩
    | ok t => exact ⟨rfl, rfl, fun _ _ => rfl, fun _ => rfl, .inl rfl⟩
  simpa using hm.report (fun _ => e) fun _ => trivial

theorem settles_authorize (setup : Setup) (p : Principal) (path : Path) (a : Action)
    (x : Logged RoleStore) :
    Settles x (Call.Reports (.authorize p path a)) x.state
      ((authorizes setup p path a x.state).mapError .malformed) (authorize setup p path a x) :=
  (Settles.inspect (fun s => (authorizes setup p path a s).mapError .malformed) x _).report
    (fun b => .authorizationChecked p.text path.text a b) fun b => ⟨b, rfl⟩

theorem settles_serve (setup : Setup) (c : Call) (x : Logged RoleStore) :
    Settles x c.Reports (c.after x.state) (c.answer setup x.state) (serve setup c x) := by
  cases c with
  | authorize p path a => exact (settles_authorize setup p path a x).map some
  | createRole role => exact settles_update _ _ x
  | dropRole role => exact settles_update _ _ x
  | attach role p => exact settles_update _ _ x
  | detach role p => exact settles_update _ _ x
  | grant path role actions => exact settles_update _ _ x
  | revoke path role actions => exact settles_update _ _ x
  | revokeAllOn path =>
    exact settles_update (fun s => .ok (s.clear path)) (.resourceCleared path.text (x.state.affected path)) x
  | listPrivileges p => exact Settles.inspect _ x _
  | listRoles p => exact Settles.inspect _ x _
  | listAllRoles => exact Settles.inspect _ x _

theorem deaf_authorize (setup : Setup) (p : Principal) (path : Path) (a : Action) :
    Deaf (authorize setup p path a) :=
  (Deaf.inspect _).bind fun _ => (Deaf.report _).bind fun _ => Deaf.pure _

theorem deaf_serve (setup : Setup) (c : Call) : Deaf (serve setup c) := by
  have hwrite : ∀ f e, Deaf (update f >>= fun _ => report e : Service Unit) :=
    fun f e => (Deaf.update f).bind fun _ => Deaf.report e
  cases c with
  | authorize p path a =>
    have := (deaf_authorize setup p path a).bind fun b => Deaf.pure (some b)
    rwa [bind_pure_comp] at this
  | createRole role => exact hwrite _ _
  | dropRole role => exact hwrite _ _
  | attach role p => exact hwrite _ _
  | detach role p => exact hwrite _ _
  | grant path role actions => exact hwrite _ _
  | revoke path role actions => exact hwrite _ _
  | revokeAllOn path => exact (Deaf.inspect _).bind fun _ => hwrite _ _
  | listPrivileges p => exact Deaf.inspect _
  | listRoles p => exact Deaf.inspect _
  | listAllRoles => exact Deaf.inspect _

theorem deaf_serveReadOnly (setup : Setup) (c : Call) : Deaf (serveReadOnly setup c) := by
  cases c with
  | authorize p path a =>
    exact (deaf_authorize setup p path a).bind fun _ =>
      (Deaf.report _).bind fun _ => Deaf.pure _
  | _ => exact (Deaf.report _).bind fun _ => Deaf.throw _

/-- What a guarded backend answers if its events can be recorded. -/
def Call.answerGuarded (setup : Setup) : (c : Call) → RoleStore → Except Fault c.Answer
  | .authorize p path a, s => ((authorizes setup p path a s).mapError .malformed).map some
  | c, _ => .error (.unsupportedOperation c.name)

theorem settles_serveReadOnly (setup : Setup) (c : Call) (x : Logged RoleStore) :
    Settles x c.Reports x.state (c.answerGuarded setup x.state) (serveReadOnly setup c x) := by
  cases c with
  | authorize p path a =>
    have h := ((settles_authorize setup p path a x).report
      (fun b => .authorizationChecked p.text path.text a b) fun b => ⟨b, rfl⟩).map some
    rw [map_bind] at h
    simp only [map_bind, map_pure] at h
    exact h
  | _ => exact Settles.refuse _ _ trivial

end Backend

namespace Engine

open Audit Audit.Logging

namespace Site

variable {r : Resolver} {s : Site} {c : Call} {k : Cache.Key}

/-- The site after a call. -/
def after (s : Site) : Call → Site
  | .policy c => if s.readOnly then s else { s with store := c.after s.store }
  | .groupsOf _ => s

/-- What a call answers if its events can be recorded. -/
def answer (s : Site) : (c : Call) → Except Fault c.Answer
  | .policy c =>
    if s.readOnly then c.answerGuarded s.backend s.store else c.answer s.backend s.store
  | .groupsOf user => .ok ((s.identity.map fun i => i.groupsOf user).getD [])

/-- The events that a call may report. -/
def Reports : Call → Event → Prop
  | .policy c => c.Reports
  | .groupsOf _ => fun _ => False

theorem settles_serve (c : Call) (x : Logged Site) :
    Settles x (Reports c) (x.state.after c) (x.state.answer c) (x.state.serve c x) := by
  cases c with
  | groupsOf user => exact ⟨rfl, rfl, fun _ h => h, fun _ => rfl, .inl rfl⟩
  | policy c =>
    have hguarded := Backend.settles_serveReadOnly x.state.backend c ⟨x.state.store, x.log⟩
    have hdirect := Backend.settles_serve x.state.backend c ⟨x.state.store, x.log⟩
    show Settles x c.Reports (x.state.after (.policy c)) (x.state.answer (.policy c))
      (x.state.policy c x)
    by_cases hr : x.state.readOnly = true
    · rw [after, answer, Site.policy, if_pos hr, if_pos hr, if_pos hr]
      exact hguarded.onPart fun store s => { s with store }
    · rw [after, answer, Site.policy, if_neg hr, if_neg hr, if_neg hr]
      exact hdirect.onPart fun store s => { s with store }

theorem deaf_serve (s : Site) (c : Call) : Deaf (s.serve c) := by
  cases c with
  | groupsOf user => exact Deaf.pure _
  | policy c =>
    show Deaf (s.policy c)
    rw [Site.policy]
    split
    · exact (Backend.deaf_serveReadOnly s.backend c).onPart _ _
    · exact (Backend.deaf_serve s.backend c).onPart _ _

/-- What the policy backend decides on a key. -/
def verdict (r : Resolver) (s : Site) (k : Cache.Key) : Except Fault Bool := do
  let path ← r.resolve k.entity
  (Backend.authorizes s.backend k.principal path k.action s.store).mapError .malformed

theorem verdict_eq_ok_iff {b : Bool} : s.verdict r k = .ok b ↔ ∃ path,
    r.resolve k.entity = .ok path ∧
      Backend.authorizes s.backend k.principal path k.action s.store = .ok b := by
  rw [verdict]
  cases r.resolve k.entity with
  | error f =>
    constructor
    · intro h
      cases h
    · rintro ⟨path, h, -⟩
      cases h
  | ok path =>
    have hmap : ∀ x : Except Malformed Bool, x.mapError Fault.malformed = .ok b ↔ x = .ok b := by
      intro x
      constructor
      · intro h
        cases x with
        | ok a =>
          obtain rfl := Except.ok.inj h
          rfl
        | error m => cases h
      · rintro rfl
        rfl
    refine (hmap _).trans ⟨fun h => ⟨path, rfl, h⟩, ?_⟩
    rintro ⟨path', h, h'⟩
    obtain rfl := Except.ok.inj h
    exact h'

theorem after_store_eq (s : Site) (c : Call) : (s.after c).store = s.store ∨
    ∃ d, c = .policy d ∧ d.apply s.store = .ok (s.after c).store := by
  cases c with
  | groupsOf user => exact .inl rfl
  | policy d =>
    rw [after]
    split
    · exact .inl rfl
    · dsimp only [Backend.Call.after]
      cases h : d.apply s.store with
      | error f => exact .inl rfl
      | ok t => exact .inr ⟨d, rfl, h⟩

/-- A call changes the roles only. -/
theorem after_services (s : Site) (c : Call) :
    s.after c = { s with store := (s.after c).store } := by
  unfold after
  split
  · split <;> rfl
  · rfl

theorem after_backend (s : Site) (c : Call) : (s.after c).backend = s.backend := by
  rw [after_services]

theorem after_identity (s : Site) (c : Call) : (s.after c).identity = s.identity := by
  rw [after_services]

theorem after_readOnly (s : Site) (c : Call) : (s.after c).readOnly = s.readOnly := by
  rw [after_services]

end Site

/-- The path reaches keys inside only: those on its entity and below it are. -/
def Reaches (inside : Cache.Key → Prop) (q : Path) : Prop :=
  ∀ k : Cache.Key, q.covers k.entity.path = true → inside k

/-- The call grants nothing improper and can change verdicts on keys inside only. -/
def Call.Within (inside : Cache.Key → Prop) : Call → Prop
  | .policy c => c.Proper ∧ ∀ q, c.Touches q → Reaches inside q
  | .groupsOf _ => True

namespace Site

variable {r : Resolver} {s : Site} {c : Call} {k : Cache.Key} {inside : Cache.Key → Prop}

/-- The sites have the same services and decide alike on every key that is not inside. -/
structure AgreesOff (r : Resolver) (inside : Cache.Key → Prop) (s t : Site) : Prop where
  backend : s.backend = t.backend
  identity : s.identity = t.identity
  verdict : ∀ k, ¬ inside k → s.verdict r k = t.verdict r k

theorem verdict_congr {t : Site} (hb : s.backend = t.backend) (hs : s.store = t.store) :
    s.verdict r k = t.verdict r k := by
  rw [verdict, verdict, hb, hs]

theorem AgreesOff.refl (r : Resolver) (inside : Cache.Key → Prop) (s : Site) :
    AgreesOff r inside s s := ⟨rfl, rfl, fun _ _ => rfl⟩

theorem AgreesOff.trans {t u : Site} (h : AgreesOff r inside s t) (h' : AgreesOff r inside t u) :
    AgreesOff r inside s u :=
  ⟨h.backend.trans h'.backend, h.identity.trans h'.identity,
    fun k hk => (h.verdict k hk).trans (h'.verdict k hk)⟩

theorem after_agreesOff (hc : s.store.Confined) (hw : c.Within inside) :
    AgreesOff r inside s (s.after c) := by
  refine ⟨(after_backend s c).symm, (after_identity s c).symm, fun k hk => ?_⟩
  unfold verdict
  cases hp : r.resolve k.entity with
  | error f => rfl
  | ok path =>
    obtain rfl := Resolver.eq_path_of_resolve hp
    have hagree : ∀ q, q.covers k.entity.path = true →
        RoleStore.AgreesOn q s.store (s.after c).store := by
      intro q hq
      rcases after_store_eq s c with h | ⟨d, rfl, h⟩
      · rw [h]
        exact RoleStore.AgreesOn.refl q s.store
      · exact d.apply_agreesOn hc (fun ht => hk (hw.2 q ht k hq)) h
    show (Backend.authorizes s.backend _ _ _ s.store).mapError _ =
      (Backend.authorizes (s.after c).backend _ _ _ (s.after c).store).mapError _
    rw [after_backend, Backend.authorizes_congr hagree]

theorem after_confined (hc : s.store.Confined) (hw : c.Within inside) :
    (s.after c).store.Confined := by
  rcases after_store_eq s c with h | ⟨d, rfl, h⟩
  · rwa [h]
  · exact d.apply_confined hc hw.1 h

end Site

end Engine

namespace World

open Engine

variable {τ : Type} [Add τ] [LE τ] [DecidableLE τ] {w : World Site τ} {c : Engine.Call}

/-- Makes a remote call that is answered at once. -/
def call (c : Engine.Call) (w : World Site τ) : Except Fault c.Answer × World Site τ :=
  answer (.call c) w

/-- A call changes what is remote and the events recorded. -/
theorem call_world (c : Engine.Call) (w : World Site τ) : ∃ log, log.context = w.log.context ∧
    (w.call c).2 = { w with remote := w.remote.after c, log } := by
  have h := Site.settles_serve c ⟨w.remote, w.log⟩
  refine ⟨_, h.context, ?_⟩
  rw [← show _ = w.remote.after c from h.state]
  rfl

theorem call_sound {a : c.Answer} (h : (w.call c).1 = .ok a) : w.remote.answer c = .ok a :=
  (Site.settles_serve c ⟨w.remote, w.log⟩).sound a h

theorem call_quiet (h : ∀ e, Site.Reports c e → w.log.context.clash? e = none) :
    (w.call c).1 = w.remote.answer c :=
  (Site.settles_serve c ⟨w.remote, w.log⟩).quiet h

theorem call_clash (c : Engine.Call) (w : World Site τ) :
    (w.call c).1 = w.remote.answer c ∨ ∃ field, (w.call c).1 = .error (.fieldClash field) :=
  (Site.settles_serve c ⟨w.remote, w.log⟩).clash

/-- What a call answers depends on the site and the context only. -/
theorem call_congr {v : World Site τ} (hr : w.remote = v.remote)
    (hc : w.log.context = v.log.context) : (w.call c).1 = (v.call c).1 := by
  have h := Site.deaf_serve w.remote c ⟨w.remote, w.log⟩ ⟨v.remote, v.log⟩ hr hc
  show (w.remote.serve c ⟨w.remote, w.log⟩).1 = (v.remote.serve c ⟨v.remote, v.log⟩).1
  rw [h.1, hr]

end World

end Warrant
