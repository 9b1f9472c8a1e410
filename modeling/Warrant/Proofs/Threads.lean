import Warrant.Proofs.Leading
import Warrant.Proofs.Pools

/-!
# Threads that keep to rules

Operations that are run side by side are followed by giving each thread a stage, which its own steps
alone change, and in which the thread leads somewhere under its rules (`Led`). The rules for locks let
a thread ask for a lock only while it holds none and give back only the one that it holds. All
operations keep to them, so no two threads ever hold the same lock (`Pool.Held`).
-/

namespace Warrant.Engine

open Procedure

variable {ρ : Type}

/-- Each thread leads somewhere under its rules from its stage. -/
def Led (R : Nat → Rules (Request Call) Request.Reply ρ)
    (Post : Nat → Except Fault Unit → ρ → Prop) (stage : Nat → ρ) (threads : List Thread) : Prop :=
  ∀ i d, threads[i]? = some d → Dialogue.Leads (R i) (Post i) d (stage i)

/-- The stages when that of one thread is another. -/
def moved (stage : Nat → ρ) (n : Nat) (r : ρ) : Nat → ρ := fun i => if i = n then r else stage i

theorem moved_self (stage : Nat → ρ) (n : Nat) (r : ρ) : moved stage n r n = r := if_pos rfl

theorem moved_other {stage : Nat → ρ} {n i : Nat} {r : ρ} (h : i ≠ n) :
    moved stage n r i = stage i := if_neg h

theorem moved_same (stage : Nat → ρ) (n : Nat) : moved stage n (stage n) = stage := by
  funext i
  by_cases hi : i = n
  · rw [hi, moved_self]
  · exact moved_other hi

theorem getElem?_concat_cases {α : Type} {l : List α} {a b : α} {i : Nat}
    (h : (l ++ [a])[i]? = some b) : l[i]? = some b ∨ (i = l.length ∧ b = a) := by
  rcases Nat.lt_or_ge i l.length with hi | hi
  · rw [List.getElem?_append_left hi] at h
    exact .inl h
  · have hlt := (List.getElem?_eq_some_iff.mp h).1
    rw [List.length_append, List.length_singleton] at hlt
    obtain rfl : i = l.length := by omega
    rw [List.getElem?_concat_length] at h
    exact .inr ⟨rfl, (Option.some.inj h).symm⟩

namespace Led

variable {R : Nat → Rules (Request Call) Request.Reply ρ} {Post : Nat → Except Fault Unit → ρ → Prop}
  {stage : Nat → ρ} {threads : List Thread} {n : Nat} {q : Request Call} {next : q.Reply → Thread}

theorem may (h : Led R Post stage threads) (hthread : threads[n]? = some (.ask q next)) :
    (R n).may q (stage n) := (h n _ hthread).1

theorem ended (h : Led R Post stage threads) {x : Except Fault Unit}
    (hthread : threads[n]? = some (.done x)) : Post n x (stage n) := h n _ hthread

/-- A thread that is answered as its rules say goes to its next stage, and the others stay. -/
theorem set (h : Led R Post stage threads) (hthread : threads[n]? = some (.ask q next))
    {reply : q.Reply} {r : ρ} (hgives : (R n).gives q (stage n) reply r) :
    Led R Post (moved stage n r) (threads.set n (next reply)) := by
  intro i d hd
  by_cases hi : i = n
  · subst hi
    obtain rfl : next reply = d := by
      rw [List.getElem?_set_self (List.getElem?_eq_some_iff.mp hthread).1] at hd
      exact Option.some.inj hd
    rw [moved_self]
    exact (h i _ hthread).2 reply r hgives
  · rw [List.getElem?_set_ne (Ne.symm hi)] at hd
    rw [moved_other hi]
    exact h i d hd

/-- A thread may be answered and keep its stage. -/
theorem stay (h : Led R Post stage threads) (hthread : threads[n]? = some (.ask q next))
    {reply : q.Reply} (hgives : (R n).gives q (stage n) reply (stage n)) :
    Led R Post stage (threads.set n (next reply)) := by
  have hset := h.set hthread hgives
  rwa [moved_same] at hset

/-- Another thread may begin if it leads somewhere from the stage that it has. -/
theorem start (h : Led R Post stage threads) {d : Thread}
    (hd : Dialogue.Leads (R threads.length) (Post threads.length) d (stage threads.length)) :
    Led R Post stage (threads ++ [d]) := by
  intro i d' hd'
  rcases getElem?_concat_cases hd' with hold | ⟨rfl, rfl⟩
  · exact h i d' hold
  · exact hd

end Led

/-- The request has nothing to do with locks. -/
def Lockless : Request Call → Prop
  | .chore (.acquire _) | .chore (.release _) => False
  | _ => True

/-- What the thread has ended in, if it has. -/
def ended? : Thread → Option (Except Fault Unit)
  | .done x => some x
  | .ask .. => none

namespace Move

variable {τ : Type}

/-- Time passes, or a thread goes on and the call that it makes is carried out. -/
def Smooth : Move τ → Prop
  | .wait _ | .go _ .carriedOut => True
  | _ => False

end Move

namespace Pool

variable {τ : Type}

/-- The operations in a world, none of them begun. -/
def gather (E : Engine) (w : World Site τ) (ops : List Operation) : Pool τ :=
  ⟨w, ops.map fun o => ExceptT.run (E.perform o), []⟩

theorem led_gather {R : Nat → Rules (Request Call) Request.Reply ρ}
    {Post : Nat → Except Fault Unit → ρ → Prop} {stage : Nat → ρ} {E : Engine} {w : World Site τ}
    {ops : List Operation}
    (h : ∀ i o, ops[i]? = some o → (E.perform o).Leads (R i) (Post i) (stage i)) :
    Led R Post stage (gather E w ops).threads := by
  intro i d hd
  rw [gather, List.getElem?_map] at hd
  obtain ⟨o, ho, rfl⟩ := Option.map_eq_some_iff.mp hd
  exact h i o ho

variable [Add τ] [LE τ] [DecidableLE τ] {E : Engine} {P : Pool τ}

/-- What the thread of the number has ended in, if it has. -/
def result? (P : Pool τ) (n : Nat) : Option (Except Fault Unit) := P.threads[n]?.bind ended?

omit [Add τ] [LE τ] [DecidableLE τ] in
theorem result?_eq_some_iff {n : Nat} {x : Except Fault Unit} :
    P.result? n = some x ↔ P.threads[n]? = some (.done x) := by
  rw [result?]
  cases P.threads[n]? with
  | none => exact ⟨nofun, nofun⟩
  | some d => cases d <;> simp [ended?]

/-- The thread is there and has not ended. -/
def Underway (P : Pool τ) (n : Nat) : Prop := ∃ q next, P.threads[n]? = some (.ask q next)

/-- The thread asks for something that it is not given yet. -/
def Waits (P : Pool τ) (n : Nat) : Prop :=
  ∃ q next, P.threads[n]? = some (.ask q next) ∧ P.answer? .carriedOut q = none

theorem go_cases (n : Nat) (fate : Fate) (P : Pool τ) : P.go n fate = P ∨
    ∃ q next reply P', P.threads[n]? = some (.ask q next) ∧ P.answer? fate q = some (reply, P') ∧
      P.go n fate = { P' with threads := P.threads.set n (next reply) } := by
  rw [go]
  split
  · rename_i q next hthread
    split
    · rename_i reply P' hanswer
      exact .inr ⟨q, next, reply, P', hthread, hanswer, rfl⟩
    · exact .inl rfl
  · exact .inl rfl

theorem go_call {n : Nat} {c : Call} {next : Request.Reply (.call c) → Thread} (fate : Fate)
    (h : P.threads[n]? = some (.ask (.call c) next)) : P.go n fate =
      ⟨(fate.meet c P.world).2, P.threads.set n (next (fate.meet c P.world).1), P.locked⟩ := by
  rw [go, h]
  rfl

/-- Only calls meet a fate. -/
theorem go_of_no_call {n : Nat} (h : ¬ ∃ c next, P.threads[n]? = some (.ask (.call c) next))
    (fate : Fate) : P.go n fate = P.go n .carriedOut := by
  rw [go, go]
  cases hthread : P.threads[n]? with
  | none => rfl
  | some d =>
    cases d with
    | done x => rfl
    | ask q next =>
      cases q with
      | call c => exact absurd ⟨c, next, hthread⟩ h
      | chore q => cases q <;> rfl

omit [Add τ] [LE τ] [DecidableLE τ] in
/-- The thread that takes a lock with the move, if one does. -/
def taker? (P : Pool τ) : Move τ → Option Nat
  | .go n _ =>
    match P.threads[n]? with
    | some (.ask (.chore (.acquire pair)) _) => if pair ∈ P.locked then none else some n
    | _ => none
  | _ => none

/-- What becomes of the pool when a thread goes on, and whether the thread takes a lock: it has ended or
must wait, it takes a lock that is free, gives one back, or is answered by the world. -/
inductive Goes (n : Nat) (P : Pool τ) : Pool τ → Option Nat → Prop
  | stays : Goes n P P none
  | takes {pair : Pair} {next : Unit → Thread} :
    P.threads[n]? = some (.ask (.chore (.acquire pair)) next) → pair ∉ P.locked →
    Goes n P ⟨P.world, P.threads.set n (next ()), pair :: P.locked⟩ (some n)
  | gives {pair : Pair} {next : Unit → Thread} :
    P.threads[n]? = some (.ask (.chore (.release pair)) next) →
    Goes n P ⟨P.world, P.threads.set n (next ()), P.locked.erase pair⟩ none
  | answered {q : Request Call} {next : q.Reply → Thread} :
    P.threads[n]? = some (.ask q next) → Lockless q →
    Goes n P ⟨(World.answer q P.world).2, P.threads.set n (next (World.answer q P.world).1), P.locked⟩
      none

theorem goes (n : Nat) (P : Pool τ) :
    Goes n P (P.go n .carriedOut) (P.taker? (.go n .carriedOut)) := by
  rw [go, taker?]
  cases hthread : P.threads[n]? with
  | none => exact .stays
  | some d =>
    cases d with
    | done x => exact .stays
    | ask q next =>
      cases q with
      | call c => exact .answered hthread trivial
      | chore q =>
        cases q with
        | acquire pair =>
          dsimp only [answer?]
          by_cases hlocked : pair ∈ P.locked
          · rw [if_pos hlocked, if_pos hlocked]
            exact .stays
          · rw [if_neg hlocked, if_neg hlocked]
            exact .takes hthread hlocked
        | release pair => exact .gives hthread
        | report | find | keep | forget => exact .answered hthread trivial

/-- What every smooth move keeps is kept by a smooth schedule. -/
theorem run_keeps {I : Pool τ → Prop} (h : ∀ m P, m.Smooth → I P → I (step E m P))
    {schedule : List (Move τ)} (hsmooth : ∀ m ∈ schedule, m.Smooth) (hP : I P) :
    I (run E schedule P) := by
  induction schedule generalizing P with
  | nil => exact hP
  | cons m rest ih =>
    refine ih (fun m' hm' => hsmooth m' (List.mem_cons_of_mem _ hm')) ?_
    exact h m P (hsmooth m List.mem_cons_self) hP

theorem length_run {schedule : List (Move τ)} (hsmooth : ∀ m ∈ schedule, m.Smooth) (P : Pool τ) :
    (run E schedule P).threads.length = P.threads.length := by
  refine run_keeps (I := fun Q : Pool τ => Q.threads.length = P.threads.length) ?_ hsmooth rfl
  intro m Q hm hQ
  cases m with
  | start errand => exact hm.elim
  | wait d => exact hQ
  | go n fate =>
    show (Q.go n fate).threads.length = _
    rcases go_cases n fate Q with hgo | ⟨q, next, reply, P', -, -, hgo⟩
    · rw [hgo, hQ]
    · rw [hgo]
      exact List.length_set.trans hQ

end Pool

/-! ### Locks -/

/-- The rules for one who may take the given locks: one at a time. -/
def locks (mine : Pair → Prop) : Rules (Request Call) Request.Reply (Option Pair) where
  may
    | .chore (.acquire pair), held => mine pair ∧ held = none
    | .chore (.release pair), held => held = some pair
    | _, _ => True
  gives
    | .chore (.acquire pair), _, _, held' => held' = some pair
    | .chore (.release _), _, _, held' => held' = none
    | _, held, _, held' => held' = held

variable {E : Engine} {mine : Pair → Prop} {α : Type} {held : Option Pair}

theorem locks_gives {q : Request Call} (hq : Lockless q) {reply : q.Reply} {held' : Option Pair} :
    (locks mine).gives q held reply held' ↔ held' = held := by
  cases q with
  | call c => exact .rfl
  | chore q =>
    cases q with
    | acquire | release => exact hq.elim
    | report | find | keep | forget => exact .rfl

theorem Lockless.may {q : Request Call} (hq : Lockless q) (held : Option Pair) :
    (locks mine).may q held := by
  cases q with
  | call c => trivial
  | chore q =>
    cases q with
    | acquire | release => exact hq.elim
    | report | find | keep | forget => trivial

theorem leads_of_lockless {p : Task α} (hp : p.Asks Lockless) (held : Option Pair) :
    p.Leads (locks mine) (fun _ held' => held' = held) held :=
  Asks.leads_still (fun _ hq => ⟨hq.may held, fun _ _ hgives => (locks_gives hq).mp hgives⟩) hp

theorem returns_sweeping {σ : Type} {R : Rules (Request Call) Request.Reply σ} {s : σ} {e : Entity}
    {body : Task α} {failed : Fault → Audit.Event} {succeeded : α → Audit.Event}
    (hinvalidate : (Cache.invalidateSubtree e : Task Nat).Returns R s)
    (hreport : ∀ event, (report event : Task Unit).Returns R s) (hbody : body.Returns R s) :
    (sweeping e body failed succeeded).Returns R s :=
  hinvalidate.bind fun _ => (hbody.onFault fun _ => hreport _).bind fun _ =>
    hinvalidate.bind fun _ => hreport _

/-- The procedure takes locks one at a time, and holds none in the end. -/
def Tidy (mine : Pair → Prop) (p : Task α) : Prop :=
  p.Leads (locks mine) (fun _ held => held = none) none

theorem Tidy.of_lockless {p : Task α} (hp : p.Asks Lockless) : Tidy mine p := leads_of_lockless hp none

theorem Tidy.locked {p : Task α} {pair : Pair} (hmine : mine pair) (hp : p.Asks Lockless) :
    Tidy mine (p.locked pair) := by
  refine Leads.locked ⟨hmine, rfl⟩ ?_
  rintro _ rfl
  refine Dialogue.Leads.mono (leads_of_lockless hp (some pair)) ?_
  rintro x _ rfl
  exact ⟨rfl, fun _ hfree => hfree⟩

/-- The pair whose lock the operation takes. -/
def Operation.pair? : Operation → Option Pair
  | .grant e p _ | .revoke e p _ => if p.kind = .role then none else some ⟨e, p⟩
  | _ => none

/-- A grant or a revocation on a pair is decided before it asks for anything, or it does its work under
the lock of the pair, between two droppings of decisions. -/
theorem perform_of_pair {o : Operation} {pair : Pair} (h : o.pair? = some pair) :
    (∃ x, E.perform o = conclude x) ∨
      ∃ path actions body failed succeeded, E.resolver.resolve pair.entity = .ok path ∧
        E.perform o = sweeping pair.entity (Procedure.locked pair body) failed succeeded ∧
        pair.principal.kind ≠ .role ∧
        (body = E.grantThrough pair.entity path pair.principal actions ∨
          body = E.revokeThrough pair.entity path pair.principal actions) := by
  cases o with
  | grant e p actions =>
    rw [Operation.pair?] at h
    split at h
    · cases h
    · rename_i hk
      obtain rfl := Option.some.inj h
      show (∃ x, E.grant e p actions = conclude x) ∨ _
      by_cases hne : (Action.distinct actions).isEmpty = true
      · refine .inl ⟨.ok (), ?_⟩
        rw [grant]
        exact if_pos hne
      · cases hp : E.resolver.resolve e with
        | error fault =>
          refine .inl ⟨.error fault, ?_⟩
          rw [grant, hp]
          exact if_neg hne
        | ok path =>
          have hgrant := grant_of_resolve (p := p) hne hp
          rw [grantOn, if_neg hk] at hgrant
          exact .inr ⟨path, _, _, _, _, rfl, hgrant, hk, .inl rfl⟩
  | revoke e p actions =>
    rw [Operation.pair?] at h
    split at h
    · cases h
    · rename_i hk
      obtain rfl := Option.some.inj h
      show (∃ x, E.revoke e p actions = conclude x) ∨ _
      cases hp : E.resolver.resolve e with
      | error fault =>
        refine .inl ⟨.error fault, ?_⟩
        rw [revoke, hp]
        rfl
      | ok path =>
        have hrevoke := revoke_of_resolve p actions hp
        rw [revokeOn, if_neg hk] at hrevoke
        exact .inr ⟨path, _, _, _, _, rfl, hrevoke, hk, .inr rfl⟩
  | _ => cases h

theorem lockless_of_work {e : Entity} {p : Principal} {path : Path} {actions : List Action}
    {body : Task String}
    (h : body = E.grantThrough e path p actions ∨ body = E.revokeThrough e path p actions) :
    body.Asks Lockless := by
  rcases h with rfl | rfl
  · refine asks_grantThrough (fun _ => trivial) (fun _ => trivial) fun _ _ => ?_
    exact ⟨trivial, fun _ _ => trivial, trivial⟩
  · refine asks_revokeThrough (fun _ => trivial) fun _ _ => ?_
    exact ⟨trivial, fun _ _ _ => trivial, trivial⟩

/-- The request is none that only some operations may make: it is not about a lock, and not a
grant. -/
def Common : Request Call → Prop
  | .call (.policy (.grant ..)) | .chore (.acquire _) | .chore (.release _) => False
  | _ => True

theorem Common.lockless {q : Request Call} (h : Common q) : Lockless q := by
  unfold Lockless
  split
  · exact h
  · exact h
  · trivial

/-- The request has no part in what operations do to roles and decisions with a check before it: it
creates no role and changes no memberships, grants and keeps nothing, and is not about a lock. -/
def Plain : Request Call → Prop
  | .call (.policy (.createRole _)) | .call (.policy (.attach ..)) => False
  | .call (.policy (.detach ..)) | .call (.policy (.grant ..)) => False
  | .chore (.keep ..) | .chore (.acquire _) | .chore (.release _) => False
  | _ => True

theorem Plain.lockless {q : Request Call} (h : Plain q) : Lockless q := by
  unfold Lockless
  split
  · exact h
  · exact h
  · trivial

/-- The role is the shadow role of the pair that the operation is about. -/
def Operation.Owns (E : Engine) (o : Operation) (role : String) : Prop :=
  ∃ pair, o.pair? = some pair ∧ ShadowRole.name? E.resolver pair.entity pair.principal = .ok role

/-- What an operation asks for, apart from plain requests: the lock of its pair, roles to be created and
members to join and leave them, grants of some action on the path of an entity, and decisions to be kept
on entities that have a path. A role that carries the marker is the shadow role of its pair; none but
groups join it, and nobody is made to leave it. -/
theorem asks_perform_in_full (E : Engine) {P : Request Call → Prop} {o : Operation}
    (hplain : ∀ q, Plain q → P q)
    (hcreate : ∀ role, (ShadowRole.isReserved role = true → o.Owns E role) →
      P (.call (.policy (.createRole role))))
    (hattach : ∀ role (p : Principal),
      (ShadowRole.isReserved role = true → o.Owns E role ∧ p.kind = .group) →
      P (.call (.policy (.attach role p))))
    (hdetach : ∀ role p, ShadowRole.isReserved role = false → P (.call (.policy (.detach role p))))
    (hgrant : ∀ e path role actions, E.resolver.resolve e = .ok path → actions ≠ [] →
      P (.call (.policy (.grant path role actions))))
    (hkeep : ∀ k d path, E.resolver.resolve k.entity = .ok path → P (.chore (.keep k d)))
    (hlock : ∀ pair, o.pair? = some pair → P (.chore (.acquire pair)) ∧ P (.chore (.release pair))) :
    (E.perform o).Asks P := by
  have hreport : ∀ event, P (.chore (.report event)) := fun _ => hplain _ trivial
  have hsweep : ∀ {β : Type} (e : Entity) (body : Task β) failed succeeded, body.Asks P →
      (sweeping e body failed succeeded).Asks P :=
    fun _ _ _ _ => asks_sweeping (hplain _ trivial) hreport
  have hchange : ∀ operation role about (run : Task Unit), run.Asks P →
      (roleOperation operation role about run).Asks P := fun _ _ _ _ hrun =>
    Asks.bind (Asks.onFault hrun fun _ => Asks.report (hreport _)) fun _ => Asks.report (hreport _)
  have hclear : ∀ body : Task Unit, body.Asks P → (clearing body).Asks P := by
    refine fun body hbody => Asks.bind hbody fun _ => Asks.bind ?_ fun _ => Asks.pure _
    exact Asks.bind (Asks.ask (hplain _ trivial)) fun _ =>
      Asks.bind (Asks.report (hreport _)) fun _ => Asks.pure _
  cases o with
  | enforce e p actions =>
    refine asks_enforce_with hreport (fun _ => hplain _ trivial) fun path a hp => ?_
    exact ⟨hplain _ trivial, hplain _ trivial, fun d => hkeep _ d path hp⟩
  | grant e p actions =>
    show (E.grant e p actions).Asks P
    rw [grant]
    split
    · exact Asks.pure ()
    · rename_i hne
      have hgrant : ∀ path, E.resolver.resolve e = .ok path → ∀ role,
          P (.call (.policy (.grant path role (Action.distinct actions)))) :=
        fun path hp role => hgrant e path role _ hp fun h => hne (List.isEmpty_iff.mpr h)
      refine Asks.bind_conclude fun path hp => hsweep e _ _ _ ?_
      rw [grantOn]
      split
      · exact Asks.bind (Asks.call (hgrant path hp _)) fun _ => Asks.pure _
      · rename_i hk
        obtain ⟨hacquire, hrelease⟩ := hlock ⟨e, p⟩ (if_neg hk)
        refine Asks.locked hacquire hrelease (asks_grantThrough hreport ?_ fun role hname => ?_)
        · exact fun _ => hplain _ trivial
        · have howns : Operation.Owns E (.grant e p actions) role := ⟨⟨e, p⟩, if_neg hk, hname⟩
          exact ⟨hcreate role fun _ => howns,
            fun group hgroup => hattach role group fun _ => ⟨howns, hgroup⟩, hgrant path hp role⟩
  | revoke e p actions =>
    refine Asks.bind_conclude fun path _ => hsweep e _ _ _ ?_
    rw [revokeOn]
    split
    · exact Asks.bind (Asks.call (hplain _ trivial)) fun _ => Asks.pure _
    · rename_i hk
      obtain ⟨hacquire, hrelease⟩ := hlock ⟨e, p⟩ (if_neg hk)
      refine Asks.locked hacquire hrelease (asks_revokeThrough hreport fun _ _ => ?_)
      exact ⟨hplain _ trivial, fun _ _ _ => hplain _ trivial, hplain _ trivial⟩
  | revokeAll e =>
    refine Asks.bind_conclude fun path _ => hsweep e _ _ _ ?_
    refine Asks.bind (Asks.call (hplain _ trivial)) fun _ =>
      Asks.bind (Asks.call (hplain _ trivial)) fun roles => ?_
    exact asks_dropOwned hreport (fun _ _ => hplain _ trivial) _
  | createRole role =>
    refine asks_checkRoleName fun hr => hchange _ _ _ _ (Asks.call (hcreate role fun hreserved => ?_))
    rw [hr] at hreserved
    cases hreserved
  | dropRole role =>
    exact asks_checkRoleName fun _ => hclear _ (hchange _ _ _ _ (Asks.call (hplain _ trivial)))
  | addMember role p =>
    refine asks_checkRoleName fun hr => Asks.bind (asks_checkMember _ p) fun _ =>
      hclear _ (hchange _ _ _ _ (Asks.call (hattach role p fun hreserved => ?_)))
    rw [hr] at hreserved
    cases hreserved
  | removeMember role p =>
    exact asks_checkRoleName fun hr => Asks.bind (asks_checkMember _ p) fun _ =>
      hclear _ (hchange _ _ _ _ (Asks.call (hdetach role p hr)))

/-- An errand that is no operation makes plain requests. -/
theorem Errand.asks_plain {P : Request Call → Prop} (hplain : ∀ q, Plain q → P q) {errand : Errand}
    (hperform : ∀ o, errand = .perform o → (E.perform o).Asks P) : (errand.task E).Asks P := by
  have hcall : ∀ c : Backend.Call, Plain (.call (.policy c)) → (policy c).Asks P := fun c hc =>
    Asks.call (hplain _ hc)
  cases errand with
  | perform o => exact hperform o rfl
  | listRoles p =>
    refine Asks.bind (Asks.bind (asks_checkMember _ p) fun _ => ?_) fun _ => Asks.pure _
    exact hcall (.listRoles p) trivial
  | listAllRoles => exact Asks.bind (hcall .listAllRoles trivial) fun _ => Asks.pure _
  | listPrivileges p => exact Asks.bind (hcall (.listPrivileges p) trivial) fun _ => Asks.pure _

/-- What an operation asks for: apart from common requests, grants of some action on the path of an
entity, memberships that make nobody but groups members of shadow roles, and the lock of its pair. -/
theorem asks_perform_with (E : Engine) {P : Request Call → Prop}
    (hcommon : ∀ q, Common q → (∀ role p, q ≠ .call (.policy (.attach role p))) → P q)
    (hattach : ∀ role (p : Principal), (ShadowRole.isReserved role = true → p.kind = .group) →
      P (.call (.policy (.attach role p))))
    (hgrant : ∀ e path role actions, E.resolver.resolve e = .ok path → actions ≠ [] →
      P (.call (.policy (.grant path role actions)))) {o : Operation}
    (hlock : ∀ pair, o.pair? = some pair → P (.chore (.acquire pair)) ∧ P (.chore (.release pair))) :
    (E.perform o).Asks P := by
  refine asks_perform_in_full E (fun q hq => hcommon q ?_ ?_) (fun _ _ => hcommon _ trivial nofun)
    (fun role p hp => hattach role p fun hr => (hp hr).2) (fun _ _ _ => hcommon _ trivial nofun) hgrant
    (fun _ _ _ _ => hcommon _ trivial nofun) hlock
  · unfold Common
    split
    · exact hq
    · exact hq
    · exact hq
    · trivial
  · rintro role p rfl
    exact hq

/-- What an operation asks for: apart from common requests, grants of some action on the path of an
entity, and the lock of its pair. -/
theorem asks_perform (E : Engine) {P : Request Call → Prop} (hcommon : ∀ q, Common q → P q)
    (hgrant : ∀ e path role actions, E.resolver.resolve e = .ok path → actions ≠ [] →
      P (.call (.policy (.grant path role actions)))) {o : Operation}
    (hlock : ∀ pair, o.pair? = some pair → P (.chore (.acquire pair)) ∧ P (.chore (.release pair))) :
    (E.perform o).Asks P :=
  asks_perform_with E (fun q hq _ => hcommon q hq) (fun _ _ _ => hcommon _ trivial) hgrant hlock

/-- Every operation takes locks one at a time, and no lock but that of its pair. -/
theorem tidy_perform (E : Engine) {o : Operation} (hmine : ∀ pair, o.pair? = some pair → mine pair) :
    Tidy mine (E.perform o) := by
  cases ho : o.pair? with
  | none =>
    refine .of_lockless (asks_perform E (fun q => Common.lockless) (fun _ _ _ _ _ _ => trivial) ?_)
    intro pair h
    rw [ho] at h
    cases h
  | some pair =>
    rcases perform_of_pair ho with ⟨x, h⟩ | ⟨path, actions, body, failed, succeeded, -, h, -, hbody⟩
    · rw [h]
      exact .of_lockless (Asks.conclude x)
    · -- only the work in the middle is done under the lock
      have hinvalidate : Tidy mine (Cache.invalidateSubtree pair.entity : Task Nat) :=
        .of_lockless (asks_invalidateSubtree trivial fun _ => trivial)
      rw [h]
      exact returns_sweeping hinvalidate (fun _ => Tidy.of_lockless (Asks.report trivial))
        (Tidy.locked (hmine pair ho) (lockless_of_work hbody))

theorem tidy_errand (E : Engine) {x : Errand}
    (hmine : ∀ o pair, x = .perform o → o.pair? = some pair → mine pair) : Tidy mine (x.task E) := by
  cases x with
  | perform o => exact tidy_perform E fun pair => hmine o pair rfl
  | listRoles | listAllRoles | listPrivileges =>
    exact .of_lockless (Errand.asks_plain (fun _ => Plain.lockless) nofun)

/-! ### Who holds which lock -/

/-- The locked pairs are those that someone holds, and nobody else holds the same. -/
structure Holders (held : Nat → Option Pair) (locked : List Pair) : Prop where
  mem : ∀ pair, pair ∈ locked ↔ ∃ i, held i = some pair
  once : ∀ i j pair, held i = some pair → held j = some pair → i = j
  nodup : locked.Nodup

namespace Holders

variable {held : Nat → Option Pair} {locked : List Pair} {n : Nat} {pair : Pair}

theorem take (h : Holders held locked) (hfree : pair ∉ locked) (hn : held n = none) :
    Holders (moved held n (some pair)) (pair :: locked) := by
  have hnobody : ∀ i, held i ≠ some pair := fun i hi => hfree ((h.mem pair).mpr ⟨i, hi⟩)
  have hheld : ∀ i other, moved held n (some pair) i = some other ↔
      (i = n ∧ other = pair) ∨ held i = some other := by
    intro i other
    by_cases hi : i = n
    · subst hi
      simp [moved_self, hn, eq_comm]
    · simp [moved_other hi, hi]
  refine ⟨fun other => ?_, fun i j other hi hj => ?_, List.nodup_cons.mpr ⟨hfree, h.nodup⟩⟩
  · rw [List.mem_cons, h.mem]
    constructor
    · rintro (rfl | ⟨i, hi⟩)
      · exact ⟨n, (hheld n other).mpr (.inl ⟨rfl, rfl⟩)⟩
      · exact ⟨i, (hheld i other).mpr (.inr hi)⟩
    · rintro ⟨i, hi⟩
      rcases (hheld i other).mp hi with ⟨-, rfl⟩ | hi
      · exact .inl rfl
      · exact .inr ⟨i, hi⟩
  · rcases (hheld i other).mp hi with ⟨rfl, rfl⟩ | hi'
    · rcases (hheld j other).mp hj with ⟨rfl, -⟩ | hj'
      · rfl
      · exact absurd hj' (hnobody j)
    · rcases (hheld j other).mp hj with ⟨-, rfl⟩ | hj'
      · exact absurd hi' (hnobody i)
      · exact h.once i j other hi' hj'

theorem give (h : Holders held locked) (hn : held n = some pair) :
    Holders (moved held n none) (locked.erase pair) := by
  have hheld : ∀ i other, moved held n none i = some other ↔ other ≠ pair ∧ held i = some other := by
    intro i other
    by_cases hi : i = n
    · subst hi
      simp [moved_self, hn, eq_comm]
    · rw [moved_other hi]
      -- nobody else has held it
      refine ⟨fun h' => ⟨?_, h'⟩, And.right⟩
      rintro rfl
      exact hi (h.once i n other h' hn)
  refine ⟨fun other => ?_, fun i j other hi hj => ?_, h.nodup.erase pair⟩
  · simp only [h.nodup.mem_erase_iff, h.mem, hheld, exists_and_left]
  · exact h.once i j other ((hheld i other).mp hi).2 ((hheld j other).mp hj).2

end Holders

namespace Pool

variable {τ : Type} {mine : Nat → Pair → Prop} {held : Nat → Option Pair} {P : Pool τ}

/-- Locks are held by threads that may take them, each lock by one thread. -/
structure Held (mine : Nat → Pair → Prop) (held : Nat → Option Pair) (P : Pool τ) : Prop where
  threads : Led (fun i => locks (mine i)) (fun _ _ held => held = none) held P.threads
  mine : ∀ i pair, held i = some pair → i < P.threads.length ∧ mine i pair
  holders : Holders held P.locked

theorem held_gather (E : Engine) (w : World Site τ) {ops : List Operation}
    (hmine : ∀ i o pair, ops[i]? = some o → o.pair? = some pair → mine i pair) :
    Held mine (fun _ => none) (gather E w ops) where
  threads := led_gather fun i o ho => tidy_perform E fun pair => hmine i o pair ho
  mine := nofun
  holders := ⟨fun _ => ⟨nofun, nofun⟩, nofun, List.nodup_nil⟩

namespace Held

variable {n : Nat} {pair : Pair}

theorem mine_moved (h : Held mine held P) (hn : n < P.threads.length) {r : Option Pair}
    (hr : ∀ pair, r = some pair → mine n pair) (d : Thread) (i : Nat) (pair : Pair)
    (hi : moved held n r i = some pair) : i < (P.threads.set n d).length ∧ mine i pair := by
  rw [List.length_set]
  by_cases hin : i = n
  · subst hin
    rw [moved_self] at hi
    exact ⟨hn, hr pair hi⟩
  · rw [moved_other hin] at hi
    exact h.mine i pair hi

theorem held_length (h : Held mine held P) : held P.threads.length = none := by
  cases hheld : held P.threads.length with
  | none => rfl
  | some pair => exact absurd (h.mine _ pair hheld).1 (Nat.lt_irrefl _)

theorem start (h : Held mine held P) {x : Task Unit} (hx : Tidy (mine P.threads.length) x) :
    Held mine held ⟨P.world, P.threads ++ [ExceptT.run x], P.locked⟩ := by
  refine ⟨h.threads.start ?_, fun i pair hi => ?_, h.holders⟩
  · rw [h.held_length]
    exact hx
  · obtain ⟨hlt, hmine⟩ := h.mine i pair hi
    refine ⟨Nat.lt_of_lt_of_le hlt ?_, hmine⟩
    rw [List.length_append]
    exact Nat.le_add_right _ _

theorem take (h : Held mine held P) {next : Unit → Thread}
    (hthread : P.threads[n]? = some (.ask (.chore (.acquire pair)) next)) (hfree : pair ∉ P.locked) :
    Held mine (moved held n (some pair))
      ⟨P.world, P.threads.set n (next ()), pair :: P.locked⟩ := by
  obtain ⟨hmine, hnone⟩ := h.threads.may hthread
  refine ⟨h.threads.set hthread rfl, h.mine_moved ?_ ?_ _, h.holders.take hfree hnone⟩
  · exact (List.getElem?_eq_some_iff.mp hthread).1
  · rintro _ ⟨rfl⟩
    exact hmine

theorem give (h : Held mine held P) {next : Unit → Thread}
    (hthread : P.threads[n]? = some (.ask (.chore (.release pair)) next)) :
    Held mine (moved held n none) ⟨P.world, P.threads.set n (next ()), P.locked.erase pair⟩ :=
  ⟨h.threads.set hthread rfl, h.mine_moved (r := none) (List.getElem?_eq_some_iff.mp hthread).1
    nofun _, h.holders.give (h.threads.may hthread)⟩

theorem answered (h : Held mine held P) {q : Request Call} {next : q.Reply → Thread}
    (hthread : P.threads[n]? = some (.ask q next)) (hq : Lockless q) (reply : q.Reply)
    (world : World Site τ) :
    Held mine held ⟨world, P.threads.set n (next reply), P.locked⟩ := by
  have hmine := h.mine_moved (List.getElem?_eq_some_iff.mp hthread).1
    (fun pair hp => (h.mine n pair hp).2) (next reply)
  rw [moved_same] at hmine
  exact ⟨h.threads.stay hthread ((locks_gives hq).mpr rfl), hmine, h.holders⟩

end Held

variable [Add τ] [LE τ] [DecidableLE τ]

theorem Held.go (h : Held mine held P) (n : Nat) :
    ∃ held', Held mine held' (P.go n .carriedOut) := by
  have hgoes := P.goes n
  generalize P.go n .carriedOut = P', P.taker? (.go n .carriedOut) = who at hgoes ⊢
  cases hgoes with
  | stays => exact ⟨held, h⟩
  | takes hthread hfree => exact ⟨_, h.take hthread hfree⟩
  | gives hthread => exact ⟨_, h.give hthread⟩
  | answered hthread hq => exact ⟨held, h.answered hthread hq _ _⟩

omit [Add τ] [LE τ] [DecidableLE τ] in
theorem underway_of_lt {n : Nat} (h : n < P.threads.length) :
    P.Underway n ∨ ∃ x, P.result? n = some x := by
  simp only [Underway, result?_eq_some_iff]
  rw [List.getElem?_eq_getElem h]
  cases P.threads[n] with
  | done x => exact .inr ⟨x, rfl⟩
  | ask q next => exact .inl ⟨q, next, rfl⟩

namespace Held

/-- A thread waits for a lock only, and for one that another thread holds. -/
theorem holder_of_waits (h : Held mine held P) {n : Nat} (hwaits : P.Waits n) :
    ∃ pair i, mine n pair ∧ held n = none ∧ held i = some pair := by
  obtain ⟨q, next, hthread, hanswer⟩ := hwaits
  have hmay := h.threads.may hthread
  cases q with
  | call c => cases hanswer
  | chore q =>
    cases q with
    | acquire pair =>
      rw [answer?] at hanswer
      split at hanswer
      · rename_i hlocked
        obtain ⟨i, hi⟩ := (h.holders.mem pair).mp hlocked
        exact ⟨pair, i, hmay.1, hmay.2, hi⟩
      · cases hanswer
    | _ => cases hanswer

/-- A thread that holds a lock is under way and waits for none. -/
theorem goes_on (h : Held mine held P) {i : Nat} {pair : Pair} (hi : held i = some pair) :
    P.Underway i ∧ ¬ P.Waits i := by
  constructor
  · refine (underway_of_lt (h.mine i pair hi).1).resolve_right ?_
    rintro ⟨x, hx⟩
    have hnone := h.threads.ended (result?_eq_some_iff.mp hx)
    rw [hi] at hnone
    cases hnone
  · intro hwaits
    obtain ⟨-, -, -, hnone, -⟩ := h.holder_of_waits hwaits
    rw [hi] at hnone
    cases hnone

/-- There is no deadlock: as long as a thread is under way, some thread is that need not wait. -/
theorem not_stuck (h : Held mine held P) {n : Nat} (hn : P.Underway n) :
    ∃ i, P.Underway i ∧ ¬ P.Waits i := by
  by_cases hwaits : P.Waits n
  · obtain ⟨pair, i, -, -, hi⟩ := h.holder_of_waits hwaits
    exact ⟨i, h.goes_on hi⟩
  · exact ⟨n, hn, hwaits⟩

theorem step (h : Held mine held P) {m : Move τ} (hm : m.Smooth) :
    ∃ held', Held mine held' (Pool.step E m P) := by
  cases m with
  | start errand => exact hm.elim
  | wait d => exact ⟨held, h.threads, h.mine, h.holders⟩
  | go n fate =>
    cases fate with
    | carriedOut => exact h.go n
    | refused f | cutOff f => exact hm.elim

theorem run (h : Held mine held P) {schedule : List (Move τ)} (hsmooth : ∀ m ∈ schedule, m.Smooth) :
    ∃ held', Held mine held' (Pool.run E schedule P) := by
  refine run_keeps (I := fun P => ∃ held', Held mine held' P) ?_ hsmooth ⟨held, h⟩
  rintro m P hm ⟨held, h⟩
  exact h.step hm

end Held

end Pool

end Warrant.Engine
