import Warrant.Proofs.Attaching
import Warrant.Proofs.Isolation

/-!
# Taking back in company

A revocation for a user or group, and the deletion of an entity, go on while others drop the roles that
they are about, empty them or create them again. Whatever their calls find, they pass over a role that is
gone and fail with no fault about roles; they put nothing into the roles, and touch no roles but their
own (`withdrawal_survives_races`). Nothing needs to be known of the others: each call is answered by some
site (`company`), and what a call takes away is plain from the call (`Reduces`).
-/

namespace Warrant

/-- A role is there that was to be created, or is not there that was to be used. -/
def Fault.IsRace (f : Fault) : Prop := ∃ role, f = .roleNotFound role ∨ f = .roleAlreadyExists role

theorem Fault.IsRefusal.not_isRace {f : Fault} (h : f.IsRefusal) : ¬ f.IsRace := by
  rintro ⟨role, rfl | rfl⟩
  all_goals obtain ⟨word, hf⟩ | ⟨reason, hf⟩ := h <;> cases hf

namespace RoleStore

variable {mine : String → Prop} {cleared : Path → Prop} {s t : RoleStore}

/-- Nothing comes to the roles, and what goes belongs to the roles that are given, or it is held on a path
that is cleared. -/
structure Dwindles (mine : String → Prop) (cleared : Path → Prop) (s t : RoleStore) : Prop where
  roles : ∀ n, t.Has n → s.Has n
  members : ∀ n m, t.HasMember n m → s.HasMember n m
  holds : ∀ n q a, t.Holds n q a → s.Holds n q a
  others : ∀ n, ¬ mine n → t.roles.get? n = s.roles.get? n ∨
    ∃ q, cleared q ∧ t.roles.get? n = (s.roles.get? n).map (Role.clear q)

theorem Dwindles.refl (s : RoleStore) : Dwindles mine cleared s s :=
  ⟨fun _ => id, fun _ _ => id, fun _ _ _ => id, fun _ _ => .inl rfl⟩

theorem Loses.dwindles {lost : String → Path → Action → Prop} {left : String → Principal → Prop}
    (h : Loses lost left s t) (hothers : ∀ n, ¬ mine n → t.roles.get? n = s.roles.get? n ∨
      ∃ q, cleared q ∧ t.roles.get? n = (s.roles.get? n).map (Role.clear q)) :
    Dwindles mine cleared s t :=
  ⟨h.roles, fun n m hm => ((h.members n m).mp hm).1, fun n q a hh => ((h.holds n q a).mp hh).1, hothers⟩

end RoleStore

namespace Engine

open Procedure RoleStore

/-! ### Who takes back, and by which calls -/

/-- The operation takes back what is granted on the entity, from a user or group or from everyone. -/
inductive Operation.Withdraws (e : Entity) : Operation → Prop
  | fromOne {p : Principal} (hk : p.kind ≠ .role) (actions : List Action) :
    Withdraws e (.revoke e p actions)
  | fromAll : Withdraws e (.revokeAll e)

/-- The shadow roles that the operation may take from and drop. -/
def Operation.Strips (E : Engine) : Operation → String → Prop
  | .revoke e p _, role => ShadowRole.name? E.resolver e p = .ok role
  | .revokeAll e, role => ShadowRole.owner? E.resolver role = some e
  | _, _ => False

/-- The path that the operation clears in every role. -/
def Operation.Clears (E : Engine) : Operation → Path → Prop
  | .revokeAll e, path => E.resolver.resolve e = .ok path
  | _, _ => False

/-- The requests of those who take from the roles that are given and clear the paths that are given. -/
def Reduces (mine : String → Prop) (cleared : Path → Prop) : Request Call → Prop
  | .call (.policy (.revoke _ role _)) | .call (.policy (.dropRole role)) => mine role
  | .call (.policy (.revokeAllOn path)) => cleared path
  | .call (.policy (.listPrivileges p)) => p.kind = .role
  | .call (.policy .listAllRoles) => True
  | .call _ => False
  | .chore _ => True

section Requests

variable {E : Engine} {e : Entity} {o : Operation} {mine : String → Prop} {cleared : Path → Prop}

theorem Reduces.dwindles {c : Backend.Call} {s t : RoleStore}
    (hc : Reduces mine cleared (.call (.policy c))) (h : c.apply s = .ok t) :
    Dwindles mine cleared s t := by
  cases c with
  | dropRole role =>
    refine (loses_drop h).dwindles fun n hn => .inl ?_
    rw [get?_drop h, if_neg]
    rintro rfl
    exact hn hc
  | revoke path role actions =>
    obtain ⟨r, -, hget⟩ := get?_change h
    refine (loses_revoke h).dwindles fun n hn => .inl ?_
    rw [hget, if_neg]
    rintro rfl
    exact hn hc
  | revokeAllOn path =>
    obtain rfl : s.clear path = t := Except.ok.inj h
    exact (loses_clear path s).dwindles fun n _ => .inr ⟨path, hc, get?_clear ..⟩
  | listPrivileges | listAllRoles =>
    obtain rfl : s = t := Except.ok.inj h
    exact .refl s
  | createRole | attach | detach | grant | authorize | listRoles => exact hc.elim

theorem Operation.Withdraws.resolves (ho : o.Withdraws e) : o.Resolves e := by
  cases ho <;> rfl

/-- Whoever takes back asks for nothing that could put anything into the roles. -/
theorem Operation.Withdraws.asks (ho : o.Withdraws e) :
    (E.perform o).Asks (Reduces (o.Strips E) (o.Clears E)) := by
  cases hp : E.resolver.resolve e with
  | error f =>
    rw [perform_of_unresolved hp ho.resolves]
    exact Asks.throw f
  | ok path =>
    cases ho with
    | @fromOne p hk actions =>
      show (E.revoke e p actions).Asks _
      rw [revoke_of_resolve p actions hp, revokeOn, if_neg hk]
      refine asks_sweeping trivial (fun _ => trivial) (Asks.locked trivial trivial ?_)
      exact asks_revokeThrough (fun _ => trivial) fun role hname => ⟨hname, fun q hq _ => hq, hname⟩
    | fromAll =>
      show (E.revokeAll e).Asks _
      rw [revokeAll_of_resolve hp]
      refine asks_sweeping trivial (fun _ => trivial) ?_
      refine Asks.bind (Asks.call hp) fun _ => Asks.bind (Asks.call trivial) fun roles => ?_
      refine asks_dropOwned (fun _ => trivial) (fun role howned => ?_) _
      exact (ShadowRole.isOwnedBy?_iff_owner? hp).mp howned

end Requests

/-! ### In company -/

/-- The rules for those who make the requests in `may` while others go on: whatever they call is answered
at some site, of which only `I` is known. -/
def company (context : Audit.Context) (I : Site → Prop) (may : Request Call → Prop) :
    Rules (Request Call) Request.Reply Unit where
  may q _ := may q
  gives
    | .call c, _, reply, _ => ∃ s, I s ∧ reply = s.reply context c
    | .chore q, _, reply, _ => Allows context q reply

/-- The call takes something from a role. -/
def Removes : Backend.Call → Prop
  | .revoke .. | .dropRole _ => True
  | _ => False

/-- Where `I` holds, those who take back meet no bad fault, unless it is that the role is gone that they
would take from. -/
structure Forgiving (context : Audit.Context) (I : Site → Prop) (Bad : Fault → Prop) : Prop where
  report : ∀ event f, context.reply event = .error f → ¬ Bad f
  call : ∀ s c f, I s → Reduces (fun _ => True) (fun _ => True) (.call (.policy c)) →
    s.reply context (.policy c) = .error f → Bad f → Removes c ∧ ∃ role, f = .roleNotFound role
  handling : ∀ f : Fault, Bad f.whileHandling → Bad f

/-- In company the procedure does not end in a bad fault. -/
def Averts (context : Audit.Context) (I : Site → Prop) (Bad : Fault → Prop) {α : Type} (p : Task α) :
    Prop :=
  p.Leads (company context I fun _ => True) (fun x _ => ∀ f, x = .error f → ¬ Bad f) ()

section Company

variable {context : Audit.Context} {I : Site → Prop} {Bad : Fault → Prop} {α β : Type}
  {E : Engine} {e : Entity} {path : Path} {p : Principal} {role : String} {actions : List Action}

namespace Averts

theorem pure (a : α) : Averts context I Bad (Pure.pure a : Task α) := fun _ => nofun

theorem bind {p : Task α} {f : α → Task β} (hp : Averts context I Bad p)
    (hf : ∀ a, Averts context I Bad (f a)) : Averts context I Bad (p >>= f) := by
  refine Leads.bind hp (fun a _ _ => hf a) ?_
  rintro fault _ h _ ⟨⟩
  exact h fault rfl

theorem bind_conclude {x : Except Fault α} {f : α → Task β} (hx : ∃ a, x = .ok a)
    (hf : ∀ a, x = .ok a → Averts context I Bad (f a)) : Averts context I Bad (conclude x >>= f) := by
  obtain ⟨a, rfl⟩ := hx
  exact hf a rfl

theorem handling (hbad : ∀ f : Fault, Bad f.whileHandling → Bad f) {p : Task α}
    (hp : Averts context I Bad p) : Averts context I Bad p.handling := by
  refine Leads.handling (Dialogue.Leads.mono hp fun x _ h f hf => ?_)
  cases x with
  | ok a => cases hf
  | error fault =>
    obtain rfl := Except.error.inj hf
    exact fun hb => h fault rfl (hbad fault hb)

theorem onFault (hbad : ∀ f : Fault, Bad f.whileHandling → Bad f) {p : Task α}
    {f : Fault → Task Unit} (hp : Averts context I Bad p)
    (hf : ∀ fault, Averts context I Bad (f fault)) : Averts context I Bad (p.onFault f) := by
  refine Leads.outcome_bind hp fun x _ h => ?_
  cases x with
  | ok a => exact pure a
  | error fault => exact bind (handling hbad (hf fault)) fun _ => h

theorem locked {p : Task α} {pair : Pair} (hp : Averts context I Bad p) :
    Averts context I Bad (p.locked pair) :=
  Leads.locked trivial fun _ _ => Dialogue.Leads.mono hp fun _ _ h => ⟨trivial, fun _ _ => h⟩

/-- What is passed on is not that a role is gone, so it is nothing bad. -/
theorem throw {c : Backend.Call} {f : Fault} (hother : ∀ role, f ≠ .roleNotFound role)
    (hf : Bad f → Removes c ∧ ∃ role, f = .roleNotFound role) :
    Averts context I Bad (MonadExcept.throw f : Task α) := by
  rintro _ ⟨⟩ hbad
  obtain ⟨-, role, hrole⟩ := hf hbad
  exact hother role hrole

end Averts

namespace Forgiving

variable (h : Forgiving context I Bad)
include h

theorem averts_report (event : Audit.Event) :
    Averts context I Bad (Procedure.report event : Task Unit) := by
  refine ⟨trivial, fun x _ hgives => ?_⟩
  obtain rfl : x = context.reply event := hgives
  exact h.report event

theorem averts_invalidateSubtree (e : Entity) :
    Averts context I Bad (Cache.invalidateSubtree e : Task Nat) :=
  ⟨trivial, fun n _ _ => (h.averts_report _).bind fun _ => .pure n⟩

theorem averts_sweeping {body : Task α} {failed : Fault → Audit.Event} {succeeded : α → Audit.Event}
    (hbody : Averts context I Bad body) : Averts context I Bad (sweeping e body failed succeeded) :=
  (h.averts_invalidateSubtree e).bind fun _ =>
    (Averts.onFault h.handling hbody fun _ => h.averts_report _).bind fun _ =>
      (h.averts_invalidateSubtree e).bind fun _ => h.averts_report _

/-- What is taken from a role is passed over if the role is gone. -/
theorem leads_policy {c : Backend.Call}
    (hc : Reduces (fun _ => True) (fun _ => True) (.call (.policy c))) :
    (policy c).Leads (company context I fun _ => True)
      (fun x _ => ∀ f, x = .error f → Bad f → Removes c ∧ ∃ role, f = .roleNotFound role) () := by
  refine ⟨trivial, ?_⟩
  rintro x _ ⟨s, hs, rfl⟩ f hf
  exact h.call s c f hs hc hf

theorem averts_policy {c : Backend.Call}
    (hc : Reduces (fun _ => True) (fun _ => True) (.call (.policy c))) (hr : ¬ Removes c) :
    Averts context I Bad (policy c) :=
  Dialogue.Leads.mono (h.leads_policy hc) fun _ _ hx f hf hbad => hr (hx f hf hbad).1

theorem averts_dropRoleFor (reason role : String) : Averts context I Bad (dropRoleFor reason role) := by
  refine Leads.outcome_bind (h.leads_policy (c := .dropRole role) trivial) fun x _ hx => ?_
  split
  · exact Averts.pure false
  · rename_i f hother
    exact Averts.throw hother (hx f rfl)
  · exact (h.averts_report _).bind fun _ => .pure true

theorem averts_privilegesOfRole (hrole : role ≠ "") : Averts context I Bad (privilegesOfRole role) := by
  have hmake : Principal.make? .role role = .ok ⟨.role, role, hrole⟩ := by
    rw [Principal.make?, dif_pos hrole]
  refine Averts.bind_conclude ⟨⟨.role, role, hrole⟩, by rw [hmake]; rfl⟩ fun q hq => ?_
  obtain ⟨hkind, -⟩ := Principal.of_make? (Fault.lift_eq_ok_iff.mp hq)
  exact h.averts_policy hkind id

theorem averts_revokeThrough (hp : E.resolver.resolve e = .ok path) (hk : p.kind ≠ .role) :
    Averts context I Bad (E.revokeThrough e path p actions) := by
  refine Averts.bind_conclude ⟨_, ShadowRole.name?_of_resolve hp hk⟩ fun role hname => ?_
  have hne : role ≠ "" := by
    rintro rfl
    exact absurd (ShadowRole.isReserved_of_name? hname) (by decide)
  refine Leads.outcome_bind (h.leads_policy (c := .revoke path role actions) trivial) fun x _ hx => ?_
  split
  · exact Averts.pure role
  · rename_i f hother
    exact Averts.throw hother (hx f rfl)
  · refine (h.averts_privilegesOfRole hne).bind fun remaining => Averts.bind ?_ fun _ => .pure role
    rw [collect]
    split
    · exact (h.averts_dropRoleFor _ role).bind fun _ => .pure ()
    · exact h.averts_report _

theorem averts_dropOwned (hp : E.resolver.resolve e = .ok path) (roles : List String) :
    Averts context I Bad (E.dropOwned e roles) := by
  induction roles with
  | nil => exact .pure 0
  | cons role rest ih =>
    refine Averts.bind_conclude ⟨_, ShadowRole.isOwnedBy?_of_resolve hp role⟩ fun owned _ => ?_
    have hrest : ∀ dropped : Bool, Averts context I Bad (do
        let more ← E.dropOwned e rest
        return if dropped then more + 1 else more : Task Nat) :=
      fun dropped => ih.bind fun more => .pure _
    cases owned with
    | true => exact (h.averts_dropRoleFor _ role).bind hrest
    | false => exact Averts.bind (.pure false) hrest

theorem averts_withdrawal {o : Operation} (ho : o.Withdraws e)
    (hresolve : ∀ f, E.resolver.resolve e = .error f → ¬ Bad f) :
    Averts context I Bad (E.perform o) := by
  cases hp : E.resolver.resolve e with
  | error f =>
    rw [perform_of_unresolved hp ho.resolves]
    rintro _ ⟨⟩
    exact hresolve f hp
  | ok path =>
    cases ho with
    | @fromOne p hk actions =>
      show Averts context I Bad (E.revoke e p actions)
      rw [revoke_of_resolve p actions hp, revokeOn, if_neg hk]
      exact h.averts_sweeping (h.averts_revokeThrough hp hk).locked
    | fromAll =>
      show Averts context I Bad (E.revokeAll e)
      rw [revokeAll_of_resolve hp]
      refine h.averts_sweeping ((h.averts_policy (c := .revokeAllOn path) trivial id).bind fun _ => ?_)
      exact (h.averts_policy (c := .listAllRoles) trivial id).bind fun _ => h.averts_dropOwned hp _

end Forgiving

end Company

/-! ### What the sites answer -/

section Sites

variable {context : Audit.Context} {f : Fault}

/-- A call that takes back fails for want of its role, or because a path cannot be read back. -/
theorem fault_of_reduces {mine : String → Prop} {cleared : Path → Prop} {c : Backend.Call}
    {setup : Backend.Setup} {s : RoleStore} (hc : Reduces mine cleared (.call (.policy c)))
    (h : c.answer setup s = .error f) : (Removes c ∧ ∃ role, f = .roleNotFound role) ∨
      ∃ p, c = .listPrivileges p ∧ p.kind = .role ∧ f.IsRefusal := by
  cases c with
  | dropRole role =>
    have happly : s.drop role = .error f := map_eq_error_iff.mp h
    exact .inl ⟨trivial, role, (drop_error happly).1⟩
  | revoke path role actions =>
    have happly : s.change role (Role.revoke path actions) = .error f := map_eq_error_iff.mp h
    exact .inl ⟨trivial, role, (change_error happly).1⟩
  | listPrivileges p => exact .inr ⟨p, rfl, hc, Backend.isRefusal_of_privileges h⟩
  | revokeAllOn | listAllRoles => cases h
  | createRole | attach | detach | grant | authorize | listRoles => exact hc.elim

/-- Wherever a call is answered, its fault is about a role only if it would take from the role. -/
theorem forgiving_races (context : Audit.Context) :
    Forgiving context (fun _ => True) Fault.IsRace := by
  have hclash : ∀ field, ¬ (Fault.fieldClash field).IsRace := by
    rintro field ⟨role, hf | hf⟩ <;> cases hf
  refine ⟨fun event f hf => ?_, fun s c f _ hc hf hrace => ?_, fun f hrace => ?_⟩
  · obtain ⟨-, field, rfl⟩ := Audit.Context.fault_of_reply hf
    exact hclash field
  · rcases s.reply_cases context (.policy c) with hanswer | ⟨-, field, hfield⟩
    · rw [hanswer, Site.answer] at hf
      split at hf
      · cases c with
        | authorize => exact hc.elim
        | _ =>
          -- the guard refuses the call without a look at the roles
          obtain rfl := Except.error.inj hf
          obtain ⟨role, hf | hf⟩ := hrace <;> cases hf
      · rcases fault_of_reduces hc hf with hgone | ⟨-, -, -, hrefusal⟩
        · exact hgone
        · exact absurd hrace hrefusal.not_isRace
    · obtain rfl := Except.error.inj (hf.symm.trans hfield)
      exact absurd hrace (hclash field)
  · rcases f.whileHandling_cases with hsame | ⟨field, -, hmissing⟩
    · rwa [hsame] at hrace
    · rw [hmissing] at hrace
      obtain ⟨role, hf | hf⟩ := hrace <;> cases hf

/-- Where nothing gets in the way and every event can be recorded, only a role that is gone does. -/
theorem forgiving_ready {E : Engine} (hq : context.Quiet) :
    Forgiving context (Site.Ready E) fun _ => True := by
  refine ⟨fun event f hf => absurd hq (Audit.Context.fault_of_reply hf).1, fun s c f hs hc hf _ => ?_,
    fun _ => id⟩
  rcases s.reply_cases context (.policy c) with hanswer | ⟨hnot, -⟩
  · rw [hanswer, Site.answer, if_neg (by simp [hs.provided.readOnly])] at hf
    rcases fault_of_reduces hc hf with hgone | ⟨p, rfl, hkind, -⟩
    · exact hgone
    · obtain ⟨_, hlisted, -⟩ := Backend.privileges_of_role (p := p) s.backend hkind hs.filled
        fun q a hh => hs.traceable _ q a hh
      cases hf.symm.trans hlisted
  · exact absurd hq hnot

end Sites

/-! ### The thread among the others -/

section Threads

variable {τ : Type} [Add τ] [LE τ] [DecidableLE τ] {E : Engine} {P : Pool τ} {n : Nat}
  {Ok : Request Call → Prop} {I : Site → Prop} {may : Request Call → Prop}
  {Post : Except Fault Unit → Prop}

/-- Whoever goes on in a pool is answered by the site as it is, or by the process. -/
theorem gives_of_answer? {q : Request Call} {reply : q.Reply} {P' : Pool τ}
    (h : P.answer? .carriedOut q = some (reply, P')) (hI : I P.world.remote) :
    (company P.world.log.context I may).gives q () reply () := by
  cases q with
  | call c =>
    obtain ⟨rfl, -⟩ := Prod.mk.inj (Option.some.inj h)
    exact ⟨P.world.remote, hI, (call_reply c P.world).1⟩
  | chore q =>
    cases q with
    | report event =>
      obtain ⟨rfl, -⟩ := Prod.mk.inj (Option.some.inj h)
      exact (chore_allows (.report event) P.world).1
    | acquire | release | find | keep | forget => trivial

/-- The thread of the number goes where it leads in the company of the others, who keep the site as `I`
says. -/
structure Pool.Accompanied (Ok : Request Call → Prop) (I : Site → Prop) (may : Request Call → Prop)
    (Post : Except Fault Unit → Prop) (n : Nat) (P : Pool τ) : Prop where
  obeys : P.Obeys Ok I
  leads : ∃ d, P.threads[n]? = some d ∧
    Dialogue.Leads (company P.world.log.context I may) (fun x _ => Post x) d ()

namespace Pool.Accompanied

omit [Add τ] [LE τ] [DecidableLE τ] in
theorem leads_of (h : Accompanied Ok I may Post n P) {d : Thread} (hd : P.threads[n]? = some d) :
    Dialogue.Leads (company P.world.log.context I may) (fun x _ => Post x) d () := by
  obtain ⟨d', hd', hlead⟩ := h.leads
  obtain rfl := Option.some.inj (hd.symm.trans hd')
  exact hlead

omit [Add τ] [LE τ] [DecidableLE τ] in
theorem ended (h : Accompanied Ok I may Post n P) {x : Except Fault Unit} (hx : P.result? n = some x) :
    Post x := h.leads_of (result?_eq_some_iff.mp hx)

omit [Add τ] [LE τ] [DecidableLE τ] in
theorem asks (h : Accompanied Ok I may Post n P) {q : Request Call} {next : q.Reply → Thread}
    (hthread : P.threads[n]? = some (.ask q next)) : may q := (h.leads_of hthread).1

theorem go (h : Accompanied Ok I may Post n P) {i : Nat} {fate : Fate}
    (hown : i = n → fate = .carriedOut) : ∃ d, (P.go i fate).threads[n]? = some d ∧
      Dialogue.Leads (company P.world.log.context I may) (fun x _ => Post x) d () := by
  rcases go_cases i fate P with hgo | ⟨q, next, reply, P', hthread, hanswer, hgo⟩
  · rw [hgo]
    exact h.leads
  · rw [hgo]
    by_cases hi : i = n
    · subst hi
      obtain rfl := hown rfl
      refine ⟨next reply, List.getElem?_set_self (List.getElem?_eq_some_iff.mp hthread).1, ?_⟩
      exact (h.leads_of hthread).2 reply () (gives_of_answer? hanswer h.obeys.site)
    · obtain ⟨d, hd, hlead⟩ := h.leads
      exact ⟨d, (List.getElem?_set_ne hi).trans hd, hlead⟩

theorem run (h : Accompanied Ok I may Post n P) (hcall : ∀ c s, Ok (.call c) → I s → I (s.after c))
    (hask : ∀ errand : Errand, (errand.task E).Asks Ok) {schedule : List (Move τ)}
    (hown : ∀ fate, .go n fate ∈ schedule → fate = .carriedOut) :
    Accompanied Ok I may Post n (Pool.run E schedule P) := by
  induction schedule generalizing P with
  | nil => exact h
  | cons m rest ih =>
    have hobeys : Obeys Ok I (Pool.run E [m] P) := h.obeys.run hcall fun errand _ => hask errand
    refine ih ⟨hobeys, ?_⟩ fun fate hmem => hown fate (List.mem_cons_of_mem m hmem)
    have hcontext : (step E m P).world.log.context = P.world.log.context := context_reached [m] P
    rw [hcontext]
    cases m with
    | start errand =>
      obtain ⟨d, hd, hlead⟩ := h.leads
      exact ⟨d, (List.getElem?_append_left (List.getElem?_eq_some_iff.mp hd).1).trans hd, hlead⟩
    | wait d => exact h.leads
    | go i fate => exact h.go fun hi => hown fate (hi ▸ List.mem_cons_self)

end Pool.Accompanied

omit [Add τ] [LE τ] [DecidableLE τ] in
theorem Pool.accompanied_gather {w : World Site τ} {ops : List Operation} {o : Operation}
    (hI : I w.remote) (hask : ∀ errand : Errand, (errand.task E).Asks Ok) (ho : ops[n]? = some o)
    (hlead : (E.perform o).Leads (company w.log.context I may) (fun x _ => Post x) ()) :
    Accompanied Ok I may Post n (gather E w ops) := by
  refine ⟨⟨fun d hd => ?_, hI⟩, ExceptT.run (E.perform o), ?_, hlead⟩
  · obtain ⟨o', -, rfl⟩ := List.mem_map.mp hd
    exact hask (.perform o')
  · rw [gather, List.getElem?_map, ho, Option.map_some]

/-- A step of a thread that only takes back only takes from the roles. -/
theorem Pool.dwindles_go {mine : String → Prop} {cleared : Path → Prop}
    (hasks : ∀ q next, P.threads[n]? = some (.ask q next) → Reduces mine cleared q) (fate : Fate) :
    Dwindles mine cleared P.world.remote.store (P.go n fate).world.remote.store := by
  rcases go_cases n fate P with hgo | ⟨q, next, reply, P', hthread, hanswer, hgo⟩
  · rw [hgo]
    exact .refl _
  · rw [hgo]
    show Dwindles mine cleared P.world.remote.store P'.world.remote.store
    rcases world_of_answer? hanswer with hworld | hworld
    · rw [hworld]
      exact .refl _
    · rw [hworld]
      rcases remote_answer q P.world with hsame | ⟨c, rfl, hafter⟩
      · rw [hsame]
        exact .refl _
      · rw [hafter]
        rcases Site.after_store_eq P.world.remote c with hsame | ⟨c, rfl, happly⟩
        · rw [hsame]
          exact .refl _
        · exact (hasks _ next hthread).dwindles happly

/-- Whatever runs side by side with it, whenever that begins and ends and whatever becomes of its calls,
a revocation from a user or group, or the deletion of an entity, does not fail because a role is gone or
is there already. Where nothing else gets in the way it succeeds. No step of it puts a role, a member or a
privilege into the roles, and none touches other roles than the shadow role of the pair, or than those
that the entity owns and, in all roles, what they hold on exactly its path. -/
theorem withdrawal_survives_races {w : World Site τ} {ops : List Operation} {o : Operation} {e : Entity}
    (ho : ops[n]? = some o) (hback : o.Withdraws e) {schedule : List (Move τ)}
    (hown : ∀ fate, .go n fate ∈ schedule → fate = .carriedOut) :
    let start := Pool.gather E w ops
    (∀ f, (Pool.run E schedule start).result? n = some (.error f) → ¬ f.IsRace) ∧
    (w.remote.Ready E → w.log.context.Quiet → (∃ path, E.resolver.resolve e = .ok path) →
      ∀ x, (Pool.run E schedule start).result? n = some x → x = .ok ()) ∧
    ∀ before fate after, schedule = before ++ .go n fate :: after →
      let P := Pool.run E before start
      Dwindles (o.Strips E) (o.Clears E) P.world.remote.store (P.go n fate).world.remote.store := by
  intro start
  have hlead : ∀ {I : Site → Prop} {Bad : Fault → Prop}, Forgiving w.log.context I Bad →
      (∀ f, E.resolver.resolve e = .error f → ¬ Bad f) →
      (E.perform o).Leads (company w.log.context I (Reduces (o.Strips E) (o.Clears E)))
        (fun x _ => ∀ f, x = .error f → ¬ Bad f) () := fun hforgiving hresolve =>
    Dialogue.Leads.of_asks (fun q _ hq _ => hq) (fun q _ _ _ h => by cases q <;> exact h)
      (hforgiving.averts_withdrawal hback hresolve) hback.asks
  have hall : ∀ errand : Errand, (errand.task E).Asks fun _ => True := fun _ => Dialogue.Asks.of_all _
  -- of races nothing has to be known of the sites
  have hraces : Pool.Accompanied (fun _ => True) (fun _ => True) (Reduces (o.Strips E) (o.Clears E))
      (fun x => ∀ f, x = .error f → ¬ f.IsRace) n start := by
    refine Pool.accompanied_gather trivial hall ho ?_
    exact hlead (forgiving_races w.log.context) fun f hf => (Resolver.isRefusal_of_resolve hf).not_isRace
  refine ⟨fun f hf => ?_, fun hready hquiet ⟨path, hp⟩ x hx => ?_, ?_⟩
  · exact (hraces.run (fun _ _ _ => id) hall hown).ended hf f rfl
  · have hfounded : ∀ errand : Errand, (errand.task E).Asks (Founded E) := asks_founded E
    have hready : Pool.Accompanied (Founded E) (Site.Ready E) (Reduces (o.Strips E) (o.Clears E))
        (fun x => ∀ f, x = .error f → ¬ True) n start := by
      refine Pool.accompanied_gather hready hfounded ho (hlead (forgiving_ready hquiet) fun f hf => ?_)
      cases hp.symm.trans hf
    have hended := (hready.run (fun c s hc hs => hs.after hc) hfounded hown).ended hx
    cases x with
    | ok u => rfl
    | error f => exact absurd trivial (hended f rfl)
  · rintro before fate after rfl
    have hbefore := hraces.run (fun _ _ _ => id) hall fun fate (hmem : .go n fate ∈ before) =>
      hown fate (List.mem_append_left _ hmem)
    exact Pool.dwindles_go (fun q next hthread => hbefore.asks hthread) fate

end Threads

namespace Sample

/-- Ben loses everything on the root while the root is deleted. -/
def overlapping : Pool Nat :=
  .gather team entrusted [.revoke root ben [.read, .write], .revokeAll root]

/-- The root is deleted when Ben's role holds nothing any more and is about to be dropped. The role is gone
then, and Ben's loss is a success all the same. -/
theorem dropped_by_another :
    (Pool.run team (interrupted 5 0) overlapping).asks? 0 =
      some (.call (.policy (.dropRole ".:instance=cdap:u:ben"))) ∧
    (Pool.run team (interrupted 5 0) overlapping).world.remote.store.roles = .empty ∧
    (Pool.run team (interrupted 5 6) overlapping).result? 0 = some (.ok ()) ∧
    ∀ before fate after, interrupted 5 6 = before ++ .go 0 fate :: after →
      let P := Pool.run team before overlapping
      Dwindles (fun role => ShadowRole.name? team.resolver root ben = .ok role) (fun _ => False)
        P.world.remote.store (P.go 0 fate).world.remote.store := by
  obtain ⟨_, haccounted⟩ := accounted_entrusted
  have hquiet : entrusted.log.context.Quiet := (context_run Nat _ _).symm ▸ Audit.Context.quiet_empty
  have hended : ((Pool.run team (interrupted 5 6) overlapping).result? 0).isSome = true := by
    decide +kernel
  obtain ⟨x, hx⟩ := Option.isSome_iff_exists.mp hended
  have hrevokes : [Operation.revoke root ben [.read, .write], .revokeAll root][0]? =
      some (.revoke root ben [.read, .write]) := rfl
  have hben : (Operation.revoke root ben [.read, .write]).Withdraws root := .fromOne (by decide) _
  have hown : ∀ fate, .go 0 fate ∈ interrupted 5 6 → fate = .carriedOut := carriedOut_of_mem_interrupted
  obtain ⟨-, hsucceeds, hdwindles⟩ :=
    withdrawal_survives_races (E := team) (w := entrusted) hrevokes hben hown
  obtain rfl := hsucceeds haccounted.kept.ready hquiet ⟨root.path, rfl⟩ x hx
  exact ⟨by decide +kernel, by decide +kernel, hx, hdwindles⟩

end Sample

end Engine

end Warrant
