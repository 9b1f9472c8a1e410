import Warrant.Proofs.Relations
import Warrant.Proofs.Sessions
import Warrant.Proofs.Threads

/-!
# Pairs that stay apart

A grant or revocation for a user or group keeps to the shadow role of its pair: each of its calls reads
and writes this role alone (`Site.reply_alike`, `Site.after_alike`, `Site.after_elsewhere`), and two
pairs have two shadow roles. So operations on two pairs may be interleaved in any way: each ends as it
does alone, and the roles are left as by one after the other (`pairs_independent`).
-/

namespace Warrant

namespace Table

variable {κ ν : Type} [DecidableEq κ]

/-- The entries with a key: one or none. -/
theorem filter_key (t : Table κ ν) (k : κ) : (t.entries.filter fun e => decide (e.1 = k)) =
    ((t.get? k).map fun v => (k, v)).toList := by
  obtain ⟨entries, nodup⟩ := t
  induction entries with
  | nil => rfl
  | cons e rest ih =>
    obtain ⟨hfresh, hrest⟩ := List.nodup_cons.mp nodup
    have ih := ih hrest
    obtain ⟨j, v⟩ := e
    by_cases hj : j = k
    · subst hj
      have hnone : (rest.filter fun e => decide (e.1 = j)) = [] :=
        List.filter_eq_nil_iff.mpr fun e he hk =>
          hfresh (List.mem_map.mpr ⟨e, he, of_decide_eq_true hk⟩)
      rw [List.filter_cons_of_pos (by simp), hnone]
      simp [get?]
    · rw [List.filter_cons_of_neg (by simpa using hj), ih]
      simp [get?, hj]

end Table

namespace Backend

open RoleStore

variable {c : Call} {n m : String} {s t : RoleStore} {setup : Setup}

/-- The one role that a call is about, if there is one. -/
def Call.subject? : Call → Option String
  | .createRole role | .dropRole role | .attach role _ | .detach role _ | .grant _ role _
  | .revoke _ role _ => some role
  | .listPrivileges p => if p.kind = .role then some p.name else none
  | _ => none

theorem change_subject {f : Role → Role} (h : t.roles.get? n = s.roles.get? n) :
    (∃ e, s.change n f = .error e ∧ t.change n f = .error e) ∨
      ∃ s' t', s.change n f = .ok s' ∧ t.change n f = .ok t' ∧
        t'.roles.get? n = s'.roles.get? n ∧ ∀ m, m ≠ n → s'.roles.get? m = s.roles.get? m := by
  have hfind : t.find n = s.find n := by rw [RoleStore.find, RoleStore.find, h]
  cases hs : s.change n f with
  | error e =>
    refine .inl ⟨e, rfl, ?_⟩
    obtain ⟨rfl, hnone⟩ := change_error hs
    rw [RoleStore.change, RoleStore.find, h, hnone]
    rfl
  | ok s' =>
    obtain ⟨r, hr, hget⟩ := get?_change hs
    have hhas : t.Has n := ⟨r, h.trans hr⟩
    obtain ⟨t', ht⟩ := hhas.change f
    obtain ⟨r', hr', hget'⟩ := get?_change ht
    obtain rfl : r' = r := by
      rw [h, hr] at hr'
      exact (Option.some.inj hr').symm
    refine .inr ⟨s', t', rfl, ht, ?_, fun m hm => by rw [hget, if_neg hm]⟩
    rw [hget, hget', if_pos rfl, if_pos rfl]

/-- A call reads and writes the role that it is about, and no other one. -/
theorem Call.apply_subject (hc : c.subject? = some n) (h : t.roles.get? n = s.roles.get? n) :
    (∃ f, c.apply s = .error f ∧ c.apply t = .error f) ∨
      ∃ s' t', c.apply s = .ok s' ∧ c.apply t = .ok t' ∧
        t'.roles.get? n = s'.roles.get? n ∧ ∀ m, m ≠ n → s'.roles.get? m = s.roles.get? m := by
  cases c with
  | attach role p | detach role p | grant path role actions | revoke path role actions =>
    obtain rfl : role = n := Option.some.inj hc
    exact change_subject h
  | createRole role =>
    obtain rfl : role = n := Option.some.inj hc
    have hsame : t.roles.contains role = s.roles.contains role := by
      rw [Bool.eq_iff_iff, contains_iff_has, contains_iff_has, RoleStore.Has, RoleStore.Has, h]
    by_cases hs : s.roles.contains role = true
    · refine .inl ⟨.roleAlreadyExists role, ?_, ?_⟩
      · exact if_pos hs
      · exact if_pos (hsame.trans hs)
    · refine .inr ⟨_, _, if_neg hs, if_neg (hsame ▸ hs), ?_, fun m hm => ?_⟩
      · rw [Table.get?_put, Table.get?_put, if_pos rfl, if_pos rfl]
      · rw [Table.get?_put, if_neg hm]
  | dropRole role =>
    obtain rfl : role = n := Option.some.inj hc
    have hfind : t.find role = s.find role := by rw [RoleStore.find, RoleStore.find, h]
    cases hs : s.find role with
    | error f =>
      refine .inl ⟨f, ?_, ?_⟩
      · exact congrArg (· >>= fun _ => _) hs
      · exact congrArg (· >>= fun _ => _) (hfind.trans hs)
    | ok r =>
      refine .inr ⟨⟨s.roles.erase role⟩, ⟨t.roles.erase role⟩, ?_, ?_, ?_, fun m hm => ?_⟩
      · exact congrArg (· >>= fun _ => _) hs
      · exact congrArg (· >>= fun _ => _) (hfind.trans hs)
      · rw [Table.get?_erase, Table.get?_erase, if_pos rfl, if_pos rfl]
      · rw [Table.get?_erase, if_neg hm]
  | listPrivileges p => exact .inr ⟨s, t, rfl, rfl, h, fun m _ => rfl⟩
  | authorize | listRoles | listAllRoles | revokeAllOn => cases hc

theorem Call.after_subject (hc : c.subject? = some n) (h : t.roles.get? n = s.roles.get? n) :
    (c.after t).roles.get? n = (c.after s).roles.get? n := by
  rw [Call.after, Call.after]
  rcases Call.apply_subject hc h with ⟨f, hs, ht⟩ | ⟨s', t', hs, ht, hsame, -⟩
  · rw [hs, ht]
    exact h
  · rw [hs, ht]
    exact hsame

theorem Call.after_other (hc : c.subject? = some n) (hm : m ≠ n) :
    (c.after s).roles.get? m = s.roles.get? m := by
  rw [Call.after]
  rcases Call.apply_subject hc (s := s) rfl with ⟨f, hs, -⟩ | ⟨s', t', hs, -, -, hother⟩
  · rw [hs]
  · rw [hs]
    exact hother m hm

/-- What a role holds is listed from the role of its name alone. -/
theorem privileges_congr (setup : Setup) {p : Principal} (hp : p.kind = .role)
    (h : t.roles.get? p.name = s.roles.get? p.name) :
    privileges setup p t = privileges setup p s := by
  have hroles : ∀ s, rolesFor setup p s =
      .ok (if s.roles.contains p.name then [p.name] else []) := by
    intro s
    rw [rolesFor, hp]
    rfl
  have hlisted : ∀ s : RoleStore, (s.roles.entries.filter fun entry =>
      decide (entry.1 ∈ if s.roles.contains p.name then [p.name] else [])) =
        ((s.roles.get? p.name).map fun r => (p.name, r)).toList := by
    intro s
    rw [← Table.filter_key]
    refine List.filter_congr fun e he => ?_
    have hkey : e.1 = p.name → s.roles.contains p.name = true := fun h =>
      decide_eq_true (h ▸ List.mem_map_of_mem he)
    by_cases hname : e.1 = p.name
    · simp [hname, hkey hname]
    · by_cases hcontains : s.roles.contains p.name = true <;> simp [hname, hcontains]
  rw [privileges, privileges, hroles, hroles]
  show (List.mapM _ (List.filter (fun entry => _) _) >>= _ : Except Fault _) =
    (List.mapM _ (List.filter (fun entry => _) _) >>= _)
  rw [hlisted, hlisted, h]

/-- What a call answers depends on the role that it is about. -/
theorem Call.answer_subject (hc : c.subject? = some n) (h : t.roles.get? n = s.roles.get? n) :
    c.answer setup t = c.answer setup s := by
  have hwrite : (c.apply t).map (fun _ => ()) = (c.apply s).map fun _ => () := by
    rcases Call.apply_subject hc h with ⟨f, hs, ht⟩ | ⟨s', t', hs, ht, -⟩
    · rw [hs, ht]
    · rw [hs, ht]
      rfl
  cases c with
  | createRole | dropRole | attach | detach | grant | revoke => exact hwrite
  | listPrivileges p =>
    have hp : p.kind = .role ∧ p.name = n := by
      rw [subject?] at hc
      split at hc
      · exact ⟨‹_›, Option.some.inj hc⟩
      · cases hc
    show privileges setup p t = privileges setup p s
    exact privileges_congr setup hp.1 (hp.2 ▸ h)
  | authorize | listRoles | listAllRoles | revokeAllOn => cases hc

/-- What a call about one role is answered under a context: its own answer, unless the event that it
reports cannot be recorded. -/
theorem serve_subject (hc : c.subject? = some n) (setup : Setup) (context : Audit.Context) :
    ∃ event : Option Audit.Event, ∀ s, (serve setup c ⟨s, ⟨context, []⟩⟩).1 =
      (c.answer setup s).bind fun a => (event.elim (.ok ()) context.reply).map fun _ => a := by
  have hwrite : ∀ (g : RoleStore → Except Fault RoleStore) (e : Audit.Event) (s : RoleStore),
      ((Audit.Logging.update g >>= fun _ => Audit.Logging.report e : Service Unit)
        ⟨s, ⟨context, []⟩⟩).1 =
          ((g s).map fun _ => ()).bind fun a => (context.reply e).map fun _ => a := by
    intro g e s
    rw [Audit.Logging.run_bind, Audit.Logging.run_update]
    cases g s with
    | error f => rfl
    | ok t =>
      show context.reply e = (context.reply e).map fun _ => ()
      cases context.reply e <;> rfl
  cases c with
  | createRole role => exact ⟨some _, hwrite _ _⟩
  | dropRole role => exact ⟨some _, hwrite _ _⟩
  | attach role p => exact ⟨some _, hwrite _ _⟩
  | detach role p => exact ⟨some _, hwrite _ _⟩
  | grant path role actions => exact ⟨some _, hwrite _ _⟩
  | revoke path role actions => exact ⟨some _, hwrite _ _⟩
  | listPrivileges p =>
    refine ⟨none, fun s => ?_⟩
    show privileges setup p s = (privileges setup p s).bind fun a => .ok a
    cases privileges setup p s <;> rfl
  | authorize | listRoles | listAllRoles | revokeAllOn => cases hc

end Backend

namespace Engine

open Procedure

/-- The call is about a role of the given names, or about none. -/
def Concerns (names : String → Prop) : Call → Prop
  | .policy c => ∃ n, c.subject? = some n ∧ names n
  | .groupsOf _ => True

namespace Site

variable {names : String → Prop} {s t : Site} {c : Call}

/-- The sites have the same services, and the same roles of the given names. -/
structure Alike (names : String → Prop) (s t : Site) : Prop where
  backend : t.backend = s.backend
  readOnly : t.readOnly = s.readOnly
  identity : t.identity = s.identity
  roles : ∀ n, names n → t.store.roles.get? n = s.store.roles.get? n

theorem Alike.refl (names : String → Prop) (s : Site) : Alike names s s :=
  ⟨rfl, rfl, rfl, fun _ _ => rfl⟩

theorem Alike.trans {u : Site} (h : Alike names s t) (h' : Alike names t u) : Alike names s u :=
  ⟨h'.backend.trans h.backend, h'.readOnly.trans h.readOnly, h'.identity.trans h.identity,
    fun n hn => (h'.roles n hn).trans (h.roles n hn)⟩

theorem Alike.symm (h : Alike names s t) : Alike names t s :=
  ⟨h.backend.symm, h.readOnly.symm, h.identity.symm, fun n hn => (h.roles n hn).symm⟩

theorem Alike.mono {fewer : String → Prop} (h : Alike names s t) (hn : ∀ n, fewer n → names n) :
    Alike fewer s t := ⟨h.backend, h.readOnly, h.identity, fun n hf => h.roles n (hn n hf)⟩

theorem reply_alike (context : Audit.Context) (hc : Concerns names c) (h : Alike names s t) :
    t.reply context c = s.reply context c := by
  cases c with
  | groupsOf user =>
    show Except.ok ((t.identity.map _).getD []) = Except.ok ((s.identity.map _).getD [])
    rw [h.identity]
  | policy c =>
    obtain ⟨n, hsubject, hn⟩ := hc
    show (t.policy c ⟨t, ⟨context, []⟩⟩).1 = (s.policy c ⟨s, ⟨context, []⟩⟩).1
    rw [policy, policy, h.readOnly]
    split
    · -- a guarded backend refuses the call without a look at the roles
      have hrefuse : ∀ {α : Type} (e : Audit.Event) (f : Fault),
          ((Audit.Logging.report e >>= fun _ => throw f : Backend.Service α)
              ⟨t.store, ⟨context, []⟩⟩).1 =
            ((Audit.Logging.report e >>= fun _ => throw f : Backend.Service α)
              ⟨s.store, ⟨context, []⟩⟩).1 := by
        intro α e f
        rw [Audit.Logging.run_bind, Audit.Logging.run_bind, Audit.Logging.run_report,
          Audit.Logging.run_report]
        dsimp only
        cases ((⟨context, []⟩ : Audit.Log).record e).1 <;> rfl
      cases c with
      | authorize | listRoles | listAllRoles | revokeAllOn => cases hsubject
      | createRole | dropRole | attach | detach | grant | revoke | listPrivileges =>
        exact hrefuse _ _
    · obtain ⟨event, hserve⟩ := Backend.serve_subject hsubject s.backend context
      show (Backend.serve t.backend c ⟨t.store, ⟨context, []⟩⟩).1 =
        (Backend.serve s.backend c ⟨s.store, ⟨context, []⟩⟩).1
      rw [h.backend, hserve, hserve, Backend.Call.answer_subject hsubject (h.roles n hn)]

theorem after_alike (hc : Concerns names c) (h : Alike names s t) :
    Alike names (s.after c) (t.after c) := by
  refine ⟨?_, ?_, ?_, fun m hm => ?_⟩
  · rw [after_backend, after_backend, h.backend]
  · rw [after_readOnly, after_readOnly, h.readOnly]
  · rw [after_identity, after_identity, h.identity]
  · cases c with
    | groupsOf user => exact h.roles m hm
    | policy c =>
      obtain ⟨n, hsubject, hn⟩ := hc
      rw [after, after, h.readOnly]
      split
      · exact h.roles m hm
      · show (c.after t.store).roles.get? m = (c.after s.store).roles.get? m
        by_cases hmn : m = n
        · subst hmn
          exact Backend.Call.after_subject hsubject (h.roles m hm)
        · rw [Backend.Call.after_other hsubject hmn, Backend.Call.after_other hsubject hmn]
          exact h.roles m hm

/-- A call leaves the roles alone that it is not about. -/
theorem after_elsewhere {others : String → Prop} (hc : Concerns names c)
    (hapart : ∀ n, names n → ¬ others n) : Alike others s (s.after c) := by
  refine ⟨after_backend s c, after_readOnly s c, after_identity s c, fun m hm => ?_⟩
  cases c with
  | groupsOf user => rfl
  | policy c =>
    obtain ⟨n, hsubject, hn⟩ := hc
    rw [after]
    split
    · rfl
    · exact Backend.Call.after_other hsubject fun hmn => hapart n hn (hmn ▸ hm)

end Site

/-! ### What a grant or a revocation asks for -/

/-- The requests whose answers are certain: calls about the roles of the names, and reports. -/
def Certain (names : String → Prop) : Request Call → Prop
  | .call c => Concerns names c
  | .chore (.report _) => True
  | _ => False

/-- Those, that decisions be dropped, and requests for the lock of the pair. -/
def Keeping (names : String → Prop) (pair : Pair) : Request Call → Prop
  | .chore (.forget _) => True
  | .chore (.acquire q) | .chore (.release q) => q = pair
  | q => Certain names q

theorem Certain.keeping {names : String → Prop} {pair : Pair} {q : Request Call}
    (h : Certain names q) : Keeping names pair q := by
  unfold Keeping
  split
  · trivial
  · exact h.elim
  · exact h.elim
  · exact h

/-- The name of the shadow role of a pair. -/
def ShadowName (E : Engine) (pair : Pair) (n : String) : Prop :=
  ShadowRole.name? E.resolver pair.entity pair.principal = .ok n

variable {E : Engine} {e : Entity} {p : Principal} {path : Path} {actions : List Action}
  {names : String → Prop} {pair : Pair} {context : Audit.Context}

/-- Two pairs have no name of a shadow role in common. -/
theorem shadowName_injective {a b : Pair} {n : String} (ha : ShadowName E a n)
    (hb : ShadowName E b n) : a = b := by
  obtain ⟨he, hp⟩ := ShadowRole.name?_injective ha hb
  cases a
  cases b
  cases he
  cases hp
  rfl

theorem certain_grantThrough :
    (E.grantThrough e path p actions).Asks (Certain (ShadowName E ⟨e, p⟩)) :=
  asks_grantThrough (fun _ => trivial) (fun _ => trivial) fun role hname =>
    ⟨⟨role, rfl, hname⟩, fun _ _ => ⟨role, rfl, hname⟩, ⟨role, rfl, hname⟩⟩

theorem certain_revokeThrough :
    (E.revokeThrough e path p actions).Asks (Certain (ShadowName E ⟨e, p⟩)) := by
  refine asks_revokeThrough (fun _ => trivial) fun role hname => ?_
  refine ⟨⟨role, rfl, hname⟩, fun q hq hqname => ?_, ⟨role, rfl, hname⟩⟩
  exact ⟨role, by rw [Backend.Call.subject?, if_pos hq, hqname], hname⟩

theorem settled_of_certain {α : Type} (context : Audit.Context) {task : Task α}
    {may : Request Call → Prop}
    (hmay : ∀ q, Certain names q → may q) (h : task.Asks (Certain names)) (s : Site) :
    task.Settled (alone context may) s := by
  refine Asks.settled (fun q _ hq => hmay q hq) (fun q s hq => ?_) h s
  cases q with
  | call c => exact ⟨_, _, fun b u hb => hb⟩
  | chore q =>
    cases q with
    | report event => exact ⟨_, _, fun b u hb => hb⟩
    | find | keep | forget | acquire | release => exact hq.elim

/-- Where nobody else is, the work under the lock is done as without it. -/
theorem leads_locked {α : Type} {body : Task α} {Post : Except Fault α → Site → Prop} {s : Site}
    (h : body.Leads (alone context (Keeping names pair)) Post s) :
    (Procedure.locked pair body).Leads (alone context (Keeping names pair)) Post s := by
  refine Leads.locked rfl ?_
  rintro _ ⟨-, rfl⟩
  refine Dialogue.Leads.mono h fun x u hpost => ⟨rfl, ?_⟩
  rintro _ ⟨-, rfl⟩
  exact hpost

/-- How many decisions are dropped makes no difference to what comes after. -/
theorem settled_invalidate {β : Type} {rest : Task β}
    (h : ∀ s, rest.Settled (alone context (Keeping names pair)) s) (s : Site) :
    (do let _ ← Cache.invalidateSubtree e; rest : Task β).Settled
      (alone context (Keeping names pair)) s := by
  have hreply : ∀ n : Nat, context.reply (.entriesInvalidated e.text n) =
      context.reply (.entriesInvalidated e.text 0) := fun n => Audit.Context.reply_congr rfl
  -- either no such event can be recorded or each one can
  cases hfirst : context.reply (.entriesInvalidated e.text 0) with
  | error fault =>
    refine ⟨.error fault, s, trivial, ?_⟩
    rintro n _ ⟨-, rfl⟩
    refine ⟨trivial, ?_⟩
    rintro reply _ ⟨hallows, rfl⟩
    obtain rfl : reply = .error fault := (show reply = _ from hallows).trans ((hreply n).trans hfirst)
    exact ⟨rfl, rfl⟩
  | ok u =>
    obtain ⟨x, t, hlead⟩ := h s
    refine ⟨x, t, trivial, ?_⟩
    rintro n _ ⟨-, rfl⟩
    refine ⟨trivial, ?_⟩
    rintro reply _ ⟨hallows, rfl⟩
    obtain rfl : reply = .ok u := (show reply = _ from hallows).trans ((hreply n).trans hfirst)
    exact hlead

/-- Whatever is held in the cache, a grant or a revocation on a pair ends in one way. -/
theorem settled_perform (E : Engine) (context : Audit.Context) {o : Operation}
    (ho : o.pair? = some pair) (s : Site) :
    (E.perform o).Settled (alone context (Keeping (ShadowName E pair) pair)) s := by
  rcases perform_of_pair ho with ⟨x, h⟩ | ⟨path, actions, body, failed, succeeded, -, h, -, hbody⟩
  · rw [h]
    exact ⟨x, s, rfl, rfl⟩
  · have hcertain : body.Asks (Certain (ShadowName E pair)) := by
      rcases hbody with rfl | rfl
      · exact certain_grantThrough
      · exact certain_revokeThrough
    have hlocked : ∀ s, (Procedure.locked pair body).Settled
        (alone context (Keeping (ShadowName E pair) pair)) s := by
      intro s
      obtain ⟨x, t, hlead⟩ := settled_of_certain context (fun _ => Certain.keeping) hcertain s
      exact ⟨x, t, leads_locked hlead⟩
    have hreport : ∀ event s, (Procedure.report event : Task Unit).Settled
        (alone context (Keeping (ShadowName E pair) pair)) s := fun event =>
      settled_of_certain context (fun _ => Certain.keeping) (Asks.report trivial)
    rw [h]
    refine settled_invalidate (fun t => ?_) s
    refine Settled.bind (Settled.onFault (hlocked t) fun _ => hreport _) fun a u => ?_
    exact settled_invalidate (hreport _) u

/-! ### Side by side -/

namespace Pool

variable {τ : Type} {lane : Nat → Pair} {ends : Nat → Except Fault Unit} {leaves : Nat → Site}
  {start : Site} {stage : Nat → Site} {P : Pool τ}

/-- Each thread has a pair of its own and takes the shadow role of it for what it would be if the thread
were alone; all other roles are as in the beginning. -/
structure Apart (E : Engine) (context : Audit.Context) (lane : Nat → Pair)
    (ends : Nat → Except Fault Unit) (leaves : Nat → Site) (start : Site) (stage : Nat → Site)
    (P : Pool τ) : Prop where
  bound : P.world.log.context = context
  threads : Led (fun i => alone context (Keeping (ShadowName E (lane i)) (lane i)))
    (fun i x t => x = ends i ∧ t = leaves i) stage P.threads
  distinct : ∀ i j, i < P.threads.length → j < P.threads.length → lane i = lane j → i = j
  own : ∀ i, i < P.threads.length →
    Site.Alike (ShadowName E (lane i)) (stage i) P.world.remote
  others : Site.Alike (fun n => ∀ i, i < P.threads.length → ¬ ShadowName E (lane i) n) start
    P.world.remote

variable [Add τ] [LE τ] [DecidableLE τ]

omit [Add τ] [LE τ] [DecidableLE τ] in
theorem Apart.still (h : Apart E context lane ends leaves start stage P) {n : Nat} {q : Request Call}
    {next : q.Reply → Thread} {reply : q.Reply} {v : World Site τ} {locked : List Pair}
    (hthread : P.threads[n]? = some (.ask q next)) (hremote : v.remote = P.world.remote)
    (hcontext : v.log.context = P.world.log.context)
    (hgives : (alone context (Keeping (ShadowName E (lane n)) (lane n))).gives q (stage n) reply
      (stage n)) :
    Apart E context lane ends leaves start stage ⟨v, P.threads.set n (next reply), locked⟩ := by
  refine ⟨hcontext.trans h.bound, h.threads.stay hthread hgives, ?_, ?_, ?_⟩
  · simpa only [List.length_set] using h.distinct
  · simpa only [List.length_set, hremote] using h.own
  · simpa only [List.length_set, hremote] using h.others

/-- A call changes the shadow role of its thread as it does where the thread is alone. -/
theorem Apart.call (h : Apart E context lane ends leaves start stage P) {n : Nat} {c : Call}
    {next : Request.Reply (.call c) → Thread} (hthread : P.threads[n]? = some (.ask (.call c) next)) :
    Apart E context lane ends leaves start (moved stage n ((stage n).after c))
      ⟨(P.world.call c).2, P.threads.set n (next (P.world.call c).1), P.locked⟩ := by
  have hmay := h.threads.may hthread
  have hlt : n < P.threads.length := (List.getElem?_eq_some_iff.mp hthread).1
  obtain ⟨hcall, hremote, hcontext⟩ := call_reply c P.world
  rw [h.bound] at hcall
  have hcall : (P.world.call c).1 = (stage n).reply context c :=
    hcall.trans (Site.reply_alike context hmay (h.own n hlt))
  refine ⟨hcontext.trans h.bound, h.threads.set hthread ⟨hcall, rfl⟩, ?_, ?_, ?_⟩
  · simpa only [List.length_set] using h.distinct
  · intro i hi
    rw [List.length_set] at hi
    show Site.Alike _ _ (P.world.call c).2.remote
    rw [hremote]
    by_cases hin : i = n
    · subst hin
      rw [moved_self]
      exact Site.after_alike hmay (h.own i hi)
    · rw [moved_other hin]
      refine (h.own i hi).trans (Site.after_elsewhere hmay fun name hn hname => hin ?_)
      exact h.distinct i n hi hlt (shadowName_injective hname hn)
  · show Site.Alike _ _ (P.world.call c).2.remote
    rw [hremote]
    simp only [List.length_set]
    exact h.others.trans (Site.after_elsewhere hmay fun name hn hrest => hrest n hlt hn)

theorem Apart.go (h : Apart E context lane ends leaves start stage P) (n : Nat) :
    ∃ stage', Apart E context lane ends leaves start stage' (P.go n .carriedOut) := by
  have hgoes := P.goes n
  generalize P.go n .carriedOut = P', P.taker? (.go n .carriedOut) = who at hgoes ⊢
  cases hgoes with
  | stays => exact ⟨stage, h⟩
  | takes hthread hfree => exact ⟨stage, h.still hthread rfl rfl ⟨trivial, rfl⟩⟩
  | gives hthread => exact ⟨stage, h.still hthread rfl rfl ⟨trivial, rfl⟩⟩
  | @answered q next hthread hlockless =>
    cases q with
    | call c => exact ⟨_, h.call hthread⟩
    | chore q =>
      obtain ⟨hallows, hremote, hcontext⟩ := chore_allows q P.world
      rw [h.bound] at hallows
      exact ⟨stage, h.still hthread hremote hcontext ⟨hallows, rfl⟩⟩

theorem Apart.run (h : Apart E context lane ends leaves start stage P) {schedule : List (Move τ)}
    (hsmooth : ∀ m ∈ schedule, m.Smooth) :
    ∃ stage', Apart E context lane ends leaves start stage' (run E schedule P) := by
  refine run_keeps (I := fun P => ∃ stage', Apart E context lane ends leaves start stage' P) ?_ hsmooth
    ⟨stage, h⟩
  rintro m P hm ⟨stage, h⟩
  cases m with
  | start errand => exact hm.elim
  | wait d => exact ⟨stage, h.bound, h.threads, h.distinct, h.own, h.others⟩
  | go n fate =>
    cases fate with
    | carriedOut => exact h.go n
    | refused f | cutOff f => exact hm.elim

end Pool

section Alone

variable {τ : Type} [Add τ] [LE τ] [DecidableLE τ] {o : Operation}

/-- What an operation on a pair leads to where it is alone is what its run alone comes to. -/
theorem leads_of_pair (E : Engine) (ho : o.pair? = some pair) (w : World Site τ) :
    (E.perform o).Leads (alone w.log.context (Keeping (ShadowName E pair) pair))
      (fun x t => x = (World.run (E.perform o) w).1 ∧
        t = (World.run (E.perform o) w).2.remote) w.remote := by
  obtain ⟨x, t, hlead⟩ := settled_perform E w.log.context ho w.remote
  obtain ⟨hx, ht⟩ := run_leads hlead rfl
  rwa [hx, ht]

/-- An operation on a pair ends in the same way in worlds that have the shadow role of the pair in
common, does the same to it, and changes no other role. -/
theorem run_of_alike (E : Engine) (ho : o.pair? = some pair) {w v : World Site τ}
    (hcontext : v.log.context = w.log.context)
    (hs : Site.Alike (ShadowName E pair) w.remote v.remote) :
    (World.run (E.perform o) v).1 = (World.run (E.perform o) w).1 ∧
      Site.Alike (ShadowName E pair) (World.run (E.perform o) w).2.remote
        (World.run (E.perform o) v).2.remote ∧
      Site.Alike (fun n => ¬ ShadowName E pair n) v.remote (World.run (E.perform o) v).2.remote := by
  let L : Site → World Site τ → Prop := fun s u => u.log.context = w.log.context ∧
    Site.Alike (ShadowName E pair) s u.remote ∧
      Site.Alike (fun n => ¬ ShadowName E pair n) v.remote u.remote
  have hanswer : ∀ q s u, L s u → Keeping (ShadowName E pair) pair q → ∃ s',
      (alone w.log.context (Keeping (ShadowName E pair) pair)).gives q s (World.answer q u).1 s' ∧
        L s' (World.answer q u).2 := by
    rintro q s u ⟨hu, hown, hother⟩ hq
    cases q with
    | call c =>
      obtain ⟨hreply, hremote, hlog⟩ := call_reply c u
      rw [hu] at hreply
      refine ⟨s.after c, ⟨hreply.trans (Site.reply_alike _ hq hown), rfl⟩, hlog.trans hu, ?_⟩
      rw [show (World.answer (.call c) u).2.remote = u.remote.after c from hremote]
      exact ⟨Site.after_alike hq hown,
        hother.trans (Site.after_elsewhere hq fun n hn hnot => hnot hn)⟩
    | chore q =>
      obtain ⟨hallows, hremote, hlog⟩ := chore_allows q u
      rw [hu] at hallows
      refine ⟨s, ⟨hallows, rfl⟩, hlog.trans hu, ?_⟩
      rw [show (World.answer (.chore q) u).2.remote = u.remote from hremote]
      exact ⟨hown, hother⟩
  obtain ⟨s, ⟨hx, rfl⟩, -, hown, hother⟩ :=
    Dialogue.Leads.run hanswer (leads_of_pair E ho w) ⟨hcontext, hs, .refl _ _⟩
  exact ⟨hx, hown, hother⟩

/-- The shadow role of one pair is as in one site, that of the other pair as in another one, and all
other roles are as in a third. -/
structure Merged (E : Engine) (a b : Pair) (s t rest u : Site) : Prop where
  first : Site.Alike (ShadowName E a) s u
  second : Site.Alike (ShadowName E b) t u
  others : Site.Alike (fun n => ¬ ShadowName E a n ∧ ¬ ShadowName E b n) rest u

theorem Merged.symm {a b : Pair} {s t rest u : Site} (h : Merged E a b s t rest u) :
    Merged E b a t s rest u :=
  ⟨h.second, h.first, h.others.backend, h.others.readOnly, h.others.identity,
    fun n hn => h.others.roles n hn.symm⟩

theorem Merged.roles {a b : Pair} {s t rest u v : Site} (hu : Merged E a b s t rest u)
    (hv : Merged E a b s t rest v) (n : String) :
    u.store.roles.get? n = v.store.roles.get? n := by
  by_cases ha : ShadowName E a n
  · rw [hu.first.roles n ha, hv.first.roles n ha]
  · by_cases hb : ShadowName E b n
    · rw [hu.second.roles n hb, hv.second.roles n hb]
    · rw [hu.others.roles n ⟨ha, hb⟩, hv.others.roles n ⟨ha, hb⟩]

variable {o₁ o₂ : Operation} {a b : Pair}

/-- Of two operations on different pairs the second one does not notice the first. -/
theorem merged_in_turn (E : Engine) (h₁ : o₁.pair? = some a) (h₂ : o₂.pair? = some b) (hab : a ≠ b)
    (w : World Site τ) :
    (World.run (E.perform o₂) (World.run (E.perform o₁) w).2).1 = (World.run (E.perform o₂) w).1 ∧
      Merged E a b (World.run (E.perform o₁) w).2.remote (World.run (E.perform o₂) w).2.remote
        w.remote (World.run (E.perform o₂) (World.run (E.perform o₁) w).2).2.remote := by
  have hdistinct : ∀ n, ShadowName E a n → ¬ ShadowName E b n := fun n ha hb =>
    hab (shadowName_injective ha hb)
  obtain ⟨-, -, hrest⟩ := run_of_alike E h₁ (w := w) rfl (.refl _ _)
  obtain ⟨hend, hown, hrest'⟩ := run_of_alike E h₂ (w := w) (context_run τ (E.perform o₁) w)
    (hrest.mono fun n hb ha => hdistinct n ha hb)
  refine ⟨hend, hrest'.mono hdistinct, hown, ?_⟩
  exact (hrest.mono fun n hn => hn.1).trans (hrest'.mono fun n hn => hn.2)

/-- What belongs to the first of two threads, and what to the other. -/
def either {α : Type} (x y : α) (i : Nat) : α := if i = 0 then x else y

theorem either_of_getElem? {α : Type} {x y z : α} {i : Nat} (h : [x, y][i]? = some z) :
    z = either x y i := by
  match i with
  | 0 => exact (Option.some.inj h).symm
  | 1 => exact (Option.some.inj h).symm
  | i + 2 => cases h

theorem either_injective {α : Type} {x y : α} (hxy : x ≠ y) {i j : Nat} (hi : i < 2) (hj : j < 2)
    (h : either x y i = either x y j) : i = j := by
  match i, j with
  | 0, 0 | 1, 1 => rfl
  | 0, 1 => exact absurd h hxy
  | 1, 0 => exact absurd h.symm hxy
  | i + 2, _ | _, j + 2 => omega

theorem pair?_either (h₁ : o₁.pair? = some a) (h₂ : o₂.pair? = some b) (i : Nat) :
    (either o₁ o₂ i).pair? = some (either a b i) := by
  rw [either, either]
  split
  · exact h₁
  · exact h₂

theorem apart_gather (E : Engine) (w : World Site τ) (h₁ : o₁.pair? = some a)
    (h₂ : o₂.pair? = some b) (hab : a ≠ b) :
    Pool.Apart E w.log.context (either a b)
      (fun i => (World.run (E.perform (either o₁ o₂ i)) w).1)
      (fun i => (World.run (E.perform (either o₁ o₂ i)) w).2.remote) w.remote (fun _ => w.remote)
      (Pool.gather E w [o₁, o₂]) where
  bound := rfl
  threads := Pool.led_gather fun i o ho => by
    rw [either_of_getElem? ho]
    exact leads_of_pair E (pair?_either h₁ h₂ i) w
  distinct _ _ := either_injective hab
  own _ _ := .refl _ _
  others := .refl _ _

/-- Threads that have pairs of their own never wait. -/
theorem Pool.Apart.never_waits {context : Audit.Context} {lane : Nat → Pair}
    {ends : Nat → Except Fault Unit} {leaves : Nat → Site} {start : Site} {stage : Nat → Site}
    {P : Pool τ} (h : Apart E context lane ends leaves start stage P) {held : Nat → Option Pair}
    (hheld : P.Held (fun i pair => pair = lane i) held) (i : Nat) : ¬ P.Waits i := by
  intro hwaits
  obtain ⟨q, next, hthread, -⟩ := id hwaits
  obtain ⟨pair, j, hi, hnone, hj⟩ := hheld.holder_of_waits hwaits
  obtain ⟨hlt, hmine⟩ := hheld.mine j pair hj
  obtain rfl := h.distinct i j (List.getElem?_eq_some_iff.mp hthread).1 hlt (hi.symm.trans hmine)
  rw [hnone] at hj
  cases hj

/-- Operations on two pairs of an entity and a user or group are independent of each other. Side by
side, whatever the order of their steps, neither has to wait for the other, each ends as it does when
it runs alone, and when both have ended every role is as after one of them and then the other, in
either order. Each changes no role but the shadow role of its pair. -/
theorem pairs_independent (E : Engine) (w : World Site τ) (h₁ : o₁.pair? = some a)
    (h₂ : o₂.pair? = some b) (hab : a ≠ b) :
    (∀ schedule : List (Move τ), (∀ m ∈ schedule, m.Smooth) →
      let P := Pool.run E schedule (Pool.gather E w [o₁, o₂])
      (∀ i, ¬ P.Waits i) ∧
      (∀ x, P.result? 0 = some x → x = (World.run (E.perform o₁) w).1) ∧
      (∀ x, P.result? 1 = some x → x = (World.run (E.perform o₂) w).1) ∧
      (∀ x y, P.result? 0 = some x → P.result? 1 = some y → ∀ n, P.world.remote.store.roles.get? n =
        (World.run (E.perform o₂) (World.run (E.perform o₁) w).2).2.remote.store.roles.get? n)) ∧
    (World.run (E.perform o₂) (World.run (E.perform o₁) w).2).1 = (World.run (E.perform o₂) w).1 ∧
    (World.run (E.perform o₁) (World.run (E.perform o₂) w).2).1 = (World.run (E.perform o₁) w).1 ∧
    (∀ n, (World.run (E.perform o₂) (World.run (E.perform o₁) w).2).2.remote.store.roles.get? n =
      (World.run (E.perform o₁) (World.run (E.perform o₂) w).2).2.remote.store.roles.get? n) ∧
    (∀ n, ¬ ShadowName E a n → (World.run (E.perform o₁) w).2.remote.store.roles.get? n =
      w.remote.store.roles.get? n) ∧
    ∀ n, ¬ ShadowName E b n → (World.run (E.perform o₂) w).2.remote.store.roles.get? n =
      w.remote.store.roles.get? n := by
  obtain ⟨hsecond, hmerged⟩ := merged_in_turn E h₁ h₂ hab w
  obtain ⟨hfirst, hmerged'⟩ := merged_in_turn E h₂ h₁ hab.symm w
  refine ⟨fun schedule hsmooth => ?_, hsecond, hfirst, hmerged.roles hmerged'.symm, ?_, ?_⟩
  · obtain ⟨stage, hapart⟩ := (apart_gather E w h₁ h₂ hab).run (E := E) hsmooth
    have hmine : ∀ i o pair, [o₁, o₂][i]? = some o → o.pair? = some pair → pair = either a b i := by
      intro i o pair ho hpair
      rw [either_of_getElem? ho, pair?_either h₁ h₂ i] at hpair
      exact (Option.some.inj hpair).symm
    obtain ⟨held, hheld⟩ := (Pool.held_gather E w hmine).run (E := E) hsmooth
    have hended : ∀ i x, (Pool.run E schedule (Pool.gather E w [o₁, o₂])).result? i = some x →
        i < 2 → x = (World.run (E.perform (either o₁ o₂ i)) w).1 ∧
          Site.Alike (ShadowName E (either a b i)) (World.run (E.perform (either o₁ o₂ i)) w).2.remote
            (Pool.run E schedule (Pool.gather E w [o₁, o₂])).world.remote := by
      intro i x hx hi
      obtain ⟨hresult, hstage⟩ := hapart.threads.ended (Pool.result?_eq_some_iff.mp hx)
      rw [← hstage]
      exact ⟨hresult, hapart.own i ((Pool.length_run hsmooth _).symm ▸ hi)⟩
    -- each role is the shadow role of the one thread or of the other, or of neither
    refine ⟨hapart.never_waits hheld, fun x hx => (hended 0 x hx (by decide)).1,
      fun y hy => (hended 1 y hy (by decide)).1, fun x y hx hy => Merged.roles ?_ hmerged⟩
    refine ⟨(hended 0 x hx (by decide)).2, (hended 1 y hy (by decide)).2, ?_⟩
    refine hapart.others.mono fun n hn i hi => ?_
    rw [either]
    split
    · exact hn.1
    · exact hn.2
  · exact (run_of_alike E h₁ (w := w) rfl (.refl _ _)).2.2.roles
  · exact (run_of_alike E h₂ (w := w) rfl (.refl _ _)).2.2.roles

end Alone

namespace Sample

/-- Ada may write in the namespace. -/
def writing : World Site Nat := (World.run (engine.perform (.grant research ada [.write])) start).2

/-- The steps of two operations in turns. -/
def turns : List (Move Nat) :=
  (List.replicate 20 [.go 0 .carriedOut, .wait 1, .go 1 .carriedOut]).flatten

/-- While Ada is granted to read on the root, her right to write in the namespace is revoked. -/
def crossing : Pool Nat := Pool.run engine turns
  (.gather engine writing [.grant root ada [.read], .revoke research ada [.write]])

theorem crossing_as_in_turn :
    crossing.result? 0 = some (.ok ()) ∧ crossing.result? 1 = some (.ok ()) ∧
    (∀ i, ¬ crossing.Waits i) ∧
    ∀ n, crossing.world.remote.store.roles.get? n =
      (World.run (engine.perform (.revoke research ada [.write]))
        (World.run (engine.perform (.grant root ada [.read])) writing).2).2.remote.store.roles.get?
          n := by
  have hok : ∀ i, (crossing.result? i).bind Except.toOption = some () →
      crossing.result? i = some (.ok ()) := by
    intro i h
    obtain ⟨x, hx, hok⟩ := Option.bind_eq_some_iff.mp h
    rw [hx, toOption_eq_some_iff.mp hok]
  have hfirst := hok 0 (by decide +kernel)
  have hsecond := hok 1 (by decide +kernel)
  have hsmooth : ∀ m ∈ turns, m.Smooth := by
    intro m hm
    simp only [turns, List.mem_flatten, List.mem_replicate] at hm
    obtain ⟨l, ⟨-, rfl⟩, hm⟩ := hm
    simp only [List.mem_cons, List.not_mem_nil, or_false] at hm
    rcases hm with rfl | rfl | rfl <;> trivial
  have hgrant : (Operation.grant root ada [.read]).pair? = some ⟨root, ada⟩ := rfl
  have hrevoke : (Operation.revoke research ada [.write]).pair? = some ⟨research, ada⟩ := rfl
  obtain ⟨hnever, -, -, hroles⟩ :=
    (pairs_independent engine writing hgrant hrevoke (by decide)).1 turns hsmooth
  rw [crossing] at hfirst hsecond ⊢
  exact ⟨hfirst, hsecond, hnever, hroles _ _ hfirst hsecond⟩

end Sample

end Engine

end Warrant
