import Warrant.Proofs.Lookups
import Warrant.Proofs.Owners

/-!
# What the operations of the engine ask for

Every write drops the decisions on a fixed set of keys, `Operation.Drops`, and whatever it does in
between changes verdicts on those keys only (`Engine.Steps`). That a write is proper is up to its
caller in one respect: no role may be named as principal that carries the marker of shadow roles
(`Operation.Honest`).
-/

namespace Warrant.Engine

open Procedure RoleStore

/-- The request leaves the cache alone and can change verdicts on keys inside only. -/
def Steps (inside : Cache.Key → Prop) : Request Call → Prop
  | .call c => c.Within inside
  | .chore (.report _) | .chore (.acquire _) | .chore (.release _) => True
  | .chore _ => False

/-- The request drops the decisions on the keys inside, or it leaves the cache alone and can change
verdicts on those keys only. -/
def Sweeps (inside : Cache.Key → Prop) : Request Call → Prop
  | .chore (.forget scope) => ∀ k, scope.covers k = true ↔ inside k
  | q => Steps inside q

theorem Steps.sweeps {inside : Cache.Key → Prop} {q : Request Call} (h : Steps inside q) :
    Sweeps inside q := by
  unfold Sweeps
  split
  · exact h.elim
  · exact h

/-- The keys of the decisions on an entity and below it. -/
def Below (e : Entity) (k : Cache.Key) : Prop := (Cache.Scope.subtree e).covers k = true

variable {E : Engine} {e : Entity} {path : Path} {p : Principal} {role : String}
  {actions : List Action} {inside : Cache.Key → Prop}

theorem reaches_below (e : Entity) : Reaches (Below e) e.path :=
  fun _ hk => Cache.Scope.subtree_covers_iff.mpr hk

/-- The role is the shadow role of some principal on the entity. -/
def IsShadowOn (e : Entity) (role : String) : Prop :=
  ∃ p, ShadowRole.read? role = some (e.path, p)

namespace IsShadowOn

theorem of_name? (hp : p.kind ≠ .role) (h : E.resolver.resolve e = .ok path)
    (hn : ShadowRole.name? E.resolver e p = .ok role) : IsShadowOn e role := by
  rw [ShadowRole.name?_of_resolve h hp] at hn
  obtain rfl := Except.ok.inj hn
  obtain rfl := Resolver.eq_path_of_resolve h
  exact ⟨p, ShadowRole.read?_of_resolve h hp⟩

/-- The entity owns just the shadow roles on it. -/
theorem iff_owner? (h : E.resolver.resolve e = .ok path) :
    IsShadowOn e role ↔ ShadowRole.owner? E.resolver role = some e := by
  rw [ShadowRole.owner?_eq_some_iff]
  constructor
  · rintro ⟨p, hread⟩
    obtain ⟨hname, hp⟩ := ShadowRole.nameOn_of_read? hread
    obtain rfl := Resolver.eq_path_of_resolve h
    exact ⟨p, ShadowRole.name?_eq_ok_iff.mpr ⟨hp, _, h, hname⟩⟩
  · rintro ⟨p, hname⟩
    exact of_name? (ShadowRole.name?_eq_ok_iff.mp hname).1 h hname

theorem of_isOwnedBy? (h : E.resolver.resolve e = .ok path)
    (ho : ShadowRole.isOwnedBy? E.resolver role e = .ok true) : IsShadowOn e role :=
  (iff_owner? h).mpr ((ShadowRole.isOwnedBy?_iff_owner? h).mp ho)

theorem mayHold (h : IsShadowOn e role) : MayHold role e.path := fun _ => h

theorem reaches (h : IsShadowOn e role) {q : Path} (hq : MayHold role q) : Reaches (Below e) q := by
  obtain ⟨p, hp⟩ := h
  obtain ⟨p', hp'⟩ := hq (ShadowRole.isReserved_of_read? hp)
  obtain rfl : e.path = q := by
    rw [hp] at hp'
    exact congrArg Prod.fst (Option.some.inj hp')
  exact reaches_below e

end IsShadowOn

theorem asks_policy {c : Backend.Call} (h : Call.Within inside (.policy c)) :
    (policy c).Asks (Steps inside) := Asks.call h

theorem asks_reading {c : Backend.Call} (hp : c.Proper) (ht : ∀ q, ¬ c.Touches q) :
    (policy c).Asks (Steps inside) := asks_policy ⟨hp, fun q hq => absurd hq (ht q)⟩

theorem asks_report (e : Audit.Event) : (report e : Task Unit).Asks (Steps inside) :=
  Asks.report trivial

theorem asks_groupsOf {P : Request Call → Prop} {user : String} (h : P (.call (.groupsOf user))) :
    (E.groupsOf user).Asks P := by
  rw [groupsOf]
  split
  · exact Asks.bind (Asks.call h) fun _ => Asks.pure _
  · exact Asks.pure _

theorem loadDecision_of_resolve {k : Cache.Key} (hp : E.resolver.resolve k.entity = .ok path) :
    E.loadDecision k = policy (.authorize k.principal path k.action) := by
  rw [loadDecision, hp]
  rfl

theorem asks_bypass {P : Request Call → Prop} {user : String} (h : P (.call (.groupsOf user))) :
    (E.bypass user).Asks P := by
  rw [bypass]
  split
  · exact Asks.pure _
  · cases E.adminGroup with
    | none => exact Asks.pure _
    | some admins => exact Asks.bind (asks_groupsOf h) fun _ => Asks.pure _

/-! ### The steps of a write

What a step asks for is allowed if its calls on the role that it is about are, and every report. -/

section Parts

variable {P : Request Call → Prop}

theorem asks_standIns (hgroups : ∀ user, P (.call (.groupsOf user))) (p : Principal) :
    (E.standIns p).Asks P := by
  rw [standIns]
  split
  · exact asks_groupsOf (hgroups p.name)
  · exact Asks.pure _

variable (hreport : ∀ event, P (.chore (.report event)))
include hreport

theorem asks_ensureRole (hcreate : P (.call (.policy (.createRole role)))) :
    (ensureRole role).Asks P := by
  refine Asks.bind (Asks.outcome ?_) fun created => ?_
  · exact Asks.bind (Asks.call hcreate) fun _ => Asks.report (hreport _)
  · split
    · exact Asks.handling (Asks.report (hreport _))
    · exact Asks.conclude _

theorem asks_attachGroups (hcreate : P (.call (.policy (.createRole role))))
    (hattach : ∀ group : Principal, group.kind = .group → P (.call (.policy (.attach role group))))
    (names : List String) : (attachGroups role names).Asks P := by
  have hone : ∀ group : Principal, group.kind = .group → (attachGroup role group).Asks P := by
    intro group hk
    refine Asks.bind (Asks.outcome (Asks.call (hattach group hk))) fun result => ?_
    split
    · exact Asks.handling
        (Asks.bind (asks_ensureRole hreport hcreate) fun _ => Asks.call (hattach group hk))
    · exact Asks.conclude _
  induction names with
  | nil => exact Asks.pure _
  | cons name rest ih =>
    refine Asks.bind_conclude fun group hgroup => Asks.bind (hone group ?_) fun _ => ih
    exact (Principal.of_make? (Fault.lift_eq_ok_iff.mp hgroup)).1

theorem asks_grantThrough (hgroups : ∀ user, P (.call (.groupsOf user)))
    (hrole : ∀ role, ShadowRole.name? E.resolver e p = .ok role →
      P (.call (.policy (.createRole role))) ∧
        (∀ group : Principal, group.kind = .group → P (.call (.policy (.attach role group)))) ∧
        P (.call (.policy (.grant path role actions)))) :
    (E.grantThrough e path p actions).Asks P := by
  refine Asks.bind_conclude fun role hname => ?_
  obtain ⟨hcreate, hattach, hgrant⟩ := hrole role hname
  refine Asks.bind (asks_ensureRole hreport hcreate) fun _ => ?_
  refine Asks.bind (asks_standIns hgroups p) fun groups => ?_
  refine Asks.bind (asks_attachGroups hreport hcreate hattach _) fun _ => ?_
  exact Asks.bind (Asks.call hgrant) fun _ => Asks.pure _

theorem asks_dropRoleFor (hdrop : P (.call (.policy (.dropRole role)))) (reason : String) :
    (dropRoleFor reason role).Asks P := by
  refine Asks.bind (Asks.outcome (Asks.call hdrop)) fun result => ?_
  split
  · exact Asks.pure _
  · exact Asks.throw _
  · exact Asks.bind (Asks.report (hreport _)) fun _ => Asks.pure _

theorem asks_revokeThrough
    (hrole : ∀ role, ShadowRole.name? E.resolver e p = .ok role →
      P (.call (.policy (.revoke path role actions))) ∧
        (∀ q : Principal, q.kind = .role → q.name = role → P (.call (.policy (.listPrivileges q)))) ∧
        P (.call (.policy (.dropRole role)))) :
    (E.revokeThrough e path p actions).Asks P := by
  refine Asks.bind_conclude fun role hname => ?_
  obtain ⟨hrevoke, hlist, hdrop⟩ := hrole role hname
  refine Asks.bind (Asks.outcome (Asks.call hrevoke)) fun result => ?_
  split
  · exact Asks.pure _
  · exact Asks.throw _
  · refine Asks.bind (Asks.bind_conclude fun q hq => ?_) fun remaining => ?_
    · obtain ⟨hkind, hqname⟩ := Principal.of_make? (Fault.lift_eq_ok_iff.mp hq)
      exact Asks.call (hlist q hkind hqname)
    · refine Asks.bind ?_ fun _ => Asks.pure _
      rw [collect]
      split
      · exact Asks.bind (asks_dropRoleFor hreport hdrop _) fun _ => Asks.pure _
      · exact Asks.report (hreport _)

theorem asks_dropOwned (hdrop : ∀ role, ShadowRole.isOwnedBy? E.resolver role e = .ok true →
    P (.call (.policy (.dropRole role)))) (roles : List String) : (E.dropOwned e roles).Asks P := by
  induction roles with
  | nil => exact Asks.pure _
  | cons role rest ih =>
    refine Asks.bind_conclude fun owned ho => ?_
    have hrest : ∀ dropped : Bool, (do
        let more ← E.dropOwned e rest
        return if dropped then more + 1 else more : Task Nat).Asks P :=
      fun dropped => Asks.bind ih fun more => Asks.pure _
    cases owned with
    | true => exact Asks.bind (asks_dropRoleFor hreport (hdrop role ho) _) hrest
    | false => exact Asks.bind (Asks.pure false) hrest

end Parts

/-- What comes after the check is done only if the name is not reserved. -/
theorem asks_checkRoleName {P : Request Call → Prop} {f : Unit → Task Unit}
    (h : ShadowRole.isReserved role = false → (f ()).Asks P) : (checkRoleName role >>= f).Asks P := by
  rw [checkRoleName]
  split
  · exact Asks.throw _
  · rename_i hr
    exact h (Bool.eq_false_iff.mpr hr)

theorem asks_checkMember {P : Request Call → Prop} (operation : String) (p : Principal) :
    (checkMember operation p).Asks P := by
  rw [checkMember]
  split
  · exact Asks.throw _
  · exact Asks.pure _

theorem asks_grantOn (h : E.resolver.resolve e = .ok path)
    (hp : p.kind = .role → ShadowRole.isReserved p.name = false) :
    (E.grantOn e path p actions).Asks (Steps (Below e)) := by
  obtain rfl := Resolver.eq_path_of_resolve h
  have hgrant : ∀ role, MayHold role e.path →
      Call.Within (Below e) (.policy (.grant e.path role actions)) := fun role hr =>
    ⟨hr, fun q hq => by obtain rfl : q = e.path := hq; exact reaches_below e⟩
  rw [grantOn]
  split
  · rename_i hk
    refine Asks.bind (asks_policy (hgrant _ fun hr => ?_)) fun _ => Asks.pure _
    rw [hp hk] at hr
    cases hr
  · rename_i hk
    refine Asks.locked trivial trivial ?_
    refine asks_grantThrough (fun _ => trivial) (fun _ => trivial) fun role hn => ?_
    have hs := IsShadowOn.of_name? hk h hn
    exact ⟨⟨trivial, fun q hq => hq.elim⟩, fun _ _ => ⟨trivial, fun q hq => hs.reaches hq⟩,
      hgrant role hs.mayHold⟩

theorem asks_revokeOn (h : E.resolver.resolve e = .ok path) :
    (E.revokeOn e path p actions).Asks (Steps (Below e)) := by
  obtain rfl := Resolver.eq_path_of_resolve h
  have hrevoke : ∀ role, Call.Within (Below e) (.policy (.revoke e.path role actions)) :=
    fun role => ⟨trivial, fun q hq => by obtain rfl : q = e.path := hq; exact reaches_below e⟩
  rw [revokeOn]
  split
  · exact Asks.bind (asks_policy (hrevoke _)) fun _ => Asks.pure _
  · rename_i hk
    refine Asks.locked trivial trivial ?_
    refine asks_revokeThrough (fun _ => trivial) fun role hn => ?_
    have hs := IsShadowOn.of_name? hk h hn
    exact ⟨hrevoke role, fun _ _ _ => ⟨trivial, fun q hq => hq.elim⟩,
      ⟨trivial, fun q hq => hs.reaches hq⟩⟩

theorem asks_revokeAllOn (h : E.resolver.resolve e = .ok path) :
    (E.revokeAllOn e path).Asks (Steps (Below e)) := by
  obtain rfl := Resolver.eq_path_of_resolve h
  have hclear : (policy (.revokeAllOn e.path)).Asks (Steps (Below e)) := asks_policy
    ⟨trivial, fun q hq => by obtain rfl : q = e.path := hq; exact reaches_below e⟩
  refine Asks.bind hclear fun _ => ?_
  refine Asks.bind (asks_reading trivial fun q => id) fun roles => ?_
  refine asks_dropOwned (fun _ => trivial) (fun role ho => ?_) _
  exact ⟨trivial, fun q hq => (IsShadowOn.of_isOwnedBy? h ho).reaches hq⟩

/-! ### What an enforcement asks for -/

/-- The requests of enforcements. -/
def Looks : Request Call → Prop
  | .call (.policy (.authorize ..)) | .call (.groupsOf _) => True
  | .chore (.report _) | .chore (.find _) | .chore (.keep ..) => True
  | _ => False

/-- The calls of enforcements change no site. -/
theorem Looks.after {c : Call} (hc : Looks (.call c)) (s : Site) : s.after c = s := by
  cases c with
  | groupsOf user => rfl
  | policy c =>
    cases c with
    | authorize p path a => exact Site.after_authorize ..
    | _ => exact hc.elim

section Looking

variable {P : Request Call → Prop} (hreport : ∀ event, P (.chore (.report event)))
include hreport

theorem asks_consult {k : Cache.Key} {loader : Cache.Key → Task (Option Bool)} (enabled : Bool)
    (hfind : P (.chore (.find k))) (hkeep : ∀ d, P (.chore (.keep k d))) (h : (loader k).Asks P) :
    (Cache.consult enabled loader k).Asks P := by
  have hload : (Cache.load loader k).Asks P := Asks.onFault h fun _ => Asks.report (hreport _)
  have hstore : ∀ d, (Cache.store k d : Task Unit).Asks P := fun d =>
    Asks.bind (Asks.ask (hkeep d)) (Asks.reports fun _ => hreport _)
  rw [Cache.consult]
  split
  · refine Asks.bind (Asks.ask hfind) fun found => ?_
    cases found with
    | some allowed => exact Asks.bind (Asks.report (hreport _)) fun _ => Asks.pure _
    | none =>
      refine Asks.bind (Asks.report (hreport _)) fun _ => Asks.bind hload fun d => ?_
      exact Asks.bind (hstore d) fun _ => Asks.pure _
  · exact hload

/-- What an enforcement asks for: the groups of users and, if its entity has a path, decisions on
that entity. -/
theorem asks_enforce_with (hgroups : ∀ user, P (.call (.groupsOf user)))
    (hdecide : ∀ path a, E.resolver.resolve e = .ok path →
      P (.call (.policy (.authorize p path a))) ∧ P (.chore (.find ⟨p, e, a⟩)) ∧
        ∀ d, P (.chore (.keep ⟨p, e, a⟩ d))) : (E.enforce e p actions).Asks P := by
  have hdenied : ∀ path, E.resolver.resolve e = .ok path →
      ∀ actions, (E.deniedAmong e p actions).Asks P := by
    intro path hp actions
    induction actions with
    | nil => exact Asks.pure _
    | cons a rest ih =>
      obtain ⟨hcall, hfind, hkeep⟩ := hdecide path a hp
      have hload : (E.loadDecision ⟨p, e, a⟩).Asks P := by
        refine Asks.bind_conclude fun path' hp' => Asks.call ?_
        obtain rfl : path = path' := Except.ok.inj (hp.symm.trans hp')
        exact hcall
      exact Asks.bind (asks_consult hreport _ hfind hkeep hload) fun _ =>
        Asks.bind ih fun _ => Asks.pure _
  have hjudge : ∀ path, E.resolver.resolve e = .ok path →
      (E.judge e p (Action.distinct actions)).Asks P := by
    refine fun path hp => Asks.bind (asks_bypass (hgroups _)) fun reason => ?_
    cases reason with
    | some reason => exact Asks.bind (Asks.report (hreport _)) fun _ => Asks.pure _
    | none => exact Asks.bind (hdenied path hp _) fun _ => Asks.pure _
  rw [enforce]
  split
  · exact Asks.throw _
  · refine Asks.bind_conclude fun path hp => ?_
    refine Asks.bind (Asks.onFault (hjudge path hp) fun _ => Asks.report (hreport _)) fun finding => ?_
    split
    · exact Asks.pure _
    · exact Asks.report (hreport _)
    · exact Asks.bind (Asks.report (hreport _)) fun _ => Asks.throw _

end Looking

theorem asks_enforce (E : Engine) (e : Entity) (p : Principal) (actions : List Action) :
    (E.enforce e p actions).Asks Looks :=
  asks_enforce_with (fun _ => trivial) (fun _ => trivial) fun _ _ _ =>
    ⟨trivial, trivial, fun _ => trivial⟩

/-! ### The shapes of writes -/

/-- Something done between two droppings of the decisions on an entity and below it. -/
def sweeping {α : Type} (e : Entity) (body : Task α) (failed : Fault → Audit.Event)
    (succeeded : α → Audit.Event) : Task Unit := do
  let _ ← Cache.invalidateSubtree e
  let a ← body.onFault fun f => report (failed f)
  let _ ← Cache.invalidateSubtree e
  report (succeeded a)

theorem isEmpty_distinct {actions : List Action} :
    (Action.distinct actions).isEmpty = true ↔ actions = [] := by
  rw [List.isEmpty_iff, Action.distinct_eq_nil]

theorem grant_of_resolve {e : Entity} {p : Principal} {actions : List Action} {path : Path}
    (hne : ¬ (Action.distinct actions).isEmpty = true) (hp : E.resolver.resolve e = .ok path) :
    E.grant e p actions = sweeping e (E.grantOn e path p (Action.distinct actions))
      (fun f => .grantFailed p.text e.text (Action.distinct actions) f)
      fun role => .grantApplied p.text e.text (Action.distinct actions) role := by
  rw [grant, hp]
  exact if_neg hne

theorem revoke_of_resolve {e : Entity} {path : Path} (p : Principal) (actions : List Action)
    (hp : E.resolver.resolve e = .ok path) :
    E.revoke e p actions = sweeping e (E.revokeOn e path p (Action.distinct actions))
      (fun f => .revokeFailed p.text e.text (Action.distinct actions) f)
      fun role => .revokeApplied p.text e.text (Action.distinct actions) role := by
  rw [revoke, hp]
  rfl

theorem revokeAll_of_resolve {e : Entity} {path : Path} (hp : E.resolver.resolve e = .ok path) :
    E.revokeAll e = sweeping e (E.revokeAllOn e path) (fun f => .entityRevokeFailed e.text f)
      fun dropped => .entityRevoked e.text dropped := by
  rw [revokeAll, hp]
  rfl

theorem asks_invalidateSubtree {P : Request Call → Prop}
    (hforget : P (.chore (.forget (.subtree e)))) (hreport : ∀ event, P (.chore (.report event))) :
    (Cache.invalidateSubtree e : Task Nat).Asks P :=
  Asks.bind (Asks.ask hforget) fun _ => Asks.bind (Asks.report (hreport _)) fun _ => Asks.pure _

theorem asks_sweeping {α : Type} {P : Request Call → Prop} {body : Task α}
    {failed : Fault → Audit.Event} {succeeded : α → Audit.Event}
    (hforget : P (.chore (.forget (.subtree e)))) (hreport : ∀ event, P (.chore (.report event)))
    (hbody : body.Asks P) : (sweeping e body failed succeeded).Asks P := by
  have hdrop := asks_invalidateSubtree hforget hreport
  refine Asks.bind hdrop fun _ => Asks.bind ?_ fun _ => Asks.bind hdrop fun _ => ?_
  · exact Asks.onFault hbody fun _ => Asks.report (hreport _)
  · exact Asks.report (hreport _)

/-- Something done before all decisions are dropped. -/
def clearing (body : Task Unit) : Task Unit := do
  body
  let _ ← Cache.clear

/-- The requests that are reports. -/
def Reports : Request Call → Prop
  | .chore (.report _) => True
  | _ => False

/-- The procedure begins with the request and then at most reports. -/
def AsksOnce {α : Type} (q : Request Call) (p : Task α) : Prop :=
  ∃ next, ExceptT.run p = .ask q next ∧ ∀ reply, Dialogue.Asks Reports (next reply)

/-- What a write does that drops the decisions on the keys inside. -/
inductive Shape : (inside : Cache.Key → Prop) → Task Unit → Prop
  | nothing (inside : Cache.Key → Prop) : Shape inside (pure ())
  | refused (inside : Cache.Key → Prop) (f : Fault) : Shape inside (throw f)
  | sweeping {α : Type} (e : Entity) (body : Task α) (failed : Fault → Audit.Event)
      (succeeded : α → Audit.Event) : body.Asks (Steps (Below e)) →
      Shape (Below e) (sweeping e body failed succeeded)
  | clearing (body : Task Unit) (c : Call) : body.Asks (Steps fun _ => True) →
      AsksOnce (.call c) body → Shape (fun _ => True) (clearing body)
  | harmless (body : Task Unit) : body.Asks (Steps fun _ => False) → Shape (fun _ => False) body

namespace Operation

/-- The operation is not an enforcement. -/
def IsWrite : Operation → Prop
  | enforce .. => False
  | _ => True

/-- The operation administers a role. -/
def Administers : Operation → Prop
  | createRole _ | dropRole _ | addMember .. | removeMember .. => True
  | _ => False

/-- No role is named as principal that carries the marker of shadow roles. -/
def Honest : Operation → Prop
  | grant _ p _ | revoke _ p _ => p.kind = .role → ShadowRole.isReserved p.name = false
  | _ => True

/-- The keys of the decisions that the operation drops. -/
def Drops : Operation → Cache.Key → Prop
  | grant e _ _ | revoke e _ _ | revokeAll e => Below e
  | dropRole _ | addMember .. | removeMember .. => fun _ => True
  | createRole _ | enforce .. => fun _ => False

end Operation

theorem AsksOnce.bind {α β : Type} {q : Request Call} {p : Task α} {f : α → Task β}
    (hp : AsksOnce q p) (hf : ∀ a, (f a).Asks Reports) : AsksOnce q (p >>= f) := by
  obtain ⟨next, hrun, hnext⟩ := hp
  refine ⟨_, by rw [ExceptT.run_bind, hrun]; rfl, fun reply => ?_⟩
  refine Dialogue.Asks.bind (hnext reply) fun x => ?_
  cases x with
  | ok a => exact hf a
  | error f => trivial

theorem AsksOnce.onFault {α : Type} {q : Request Call} {p : Task α} {f : Fault → Task Unit}
    (hp : AsksOnce q p) (hf : ∀ e, (f e).Asks Reports) : AsksOnce q (p.onFault f) := by
  obtain ⟨next, hrun, hnext⟩ := hp
  have hout : AsksOnce q (outcome p) := by
    refine ⟨_, by rw [outcome, ExceptT.run_lift, hrun]; rfl, fun reply => ?_⟩
    exact Dialogue.Asks.bind (hnext reply) fun _ => trivial
  refine hout.bind fun x => ?_
  cases x with
  | ok a => exact Asks.pure a
  | error e => exact Asks.bind (Asks.handling (hf e)) fun _ => Asks.throw e

theorem asksOnce_invalidateSubtree (e : Entity) :
    AsksOnce (.chore (.forget (.subtree e))) (Cache.invalidateSubtree e : Task Nat) :=
  AsksOnce.bind (p := ask (.forget (.subtree e))) ⟨_, rfl, fun _ => trivial⟩ fun _ =>
    Asks.bind (Asks.report trivial) fun _ => Asks.pure _

theorem asksOnce_clear :
    AsksOnce (.chore (.forget .everything)) (Cache.clear : Task Nat) :=
  AsksOnce.bind (p := ask (.forget .everything)) ⟨_, rfl, fun _ => trivial⟩ fun _ =>
    Asks.bind (Asks.report trivial) fun _ => Asks.pure _

theorem asksOnce_roleOperation {operation : String} {p : Option Principal} {run : Task Unit}
    {q : Request Call} (h : AsksOnce q run) :
    AsksOnce q (roleOperation operation role p run) :=
  (h.onFault fun _ => Asks.report trivial).bind fun _ => Asks.report trivial

theorem asks_roleOperation {operation : String} {p : Option Principal} {run : Task Unit}
    (h : run.Asks (Steps inside)) : (roleOperation operation role p run).Asks (Steps inside) :=
  Asks.bind (Asks.onFault h fun _ => asks_report _) fun _ => asks_report _

theorem Shape.bind_conclude {α : Type} {x : Except Fault α} {f : α → Task Unit}
    (h : ∀ a, x = .ok a → Shape inside (f a)) : Shape inside (conclude x >>= f) := by
  cases x with
  | ok a => exact h a rfl
  | error e => exact .refused inside e

theorem Shape.checkRoleName {f : Unit → Task Unit} (h : Shape inside (f ())) :
    Shape inside (checkRoleName role >>= f) := by
  rw [Engine.checkRoleName]
  split
  · exact .refused inside _
  · exact h

theorem Shape.checkMember {operation : String} {f : Unit → Task Unit} (h : Shape inside (f ())) :
    Shape inside (checkMember operation p >>= f) := by
  rw [Engine.checkMember]
  split
  · exact .refused inside _
  · exact h

/-- A change of one role, whose decisions are all dropped. -/
theorem Shape.change {operation : String} {p : Option Principal} {run : Task Unit} {c : Call}
    (h : run.Asks (Steps fun _ => True)) (ho : AsksOnce (.call c) run) :
    Shape (fun _ => True) (Engine.clearing (roleOperation operation role p run)) :=
  Shape.clearing _ c (asks_roleOperation h) (asksOnce_roleOperation ho)

/-- A revocation can change verdicts below its entity only, whatever role is named. -/
theorem shape_revoke (E : Engine) (e : Entity) (p : Principal) (actions : List Action) :
    Shape (Below e) (E.revoke e p actions) :=
  Shape.bind_conclude fun _ h => .sweeping e _ _ _ (asks_revokeOn h)

/-- A write drops the decisions on the keys that it can change verdicts on. -/
theorem shape_perform (E : Engine) {o : Operation} (hw : o.IsWrite) (hh : o.Honest) :
    Shape o.Drops (E.perform o) := by
  have hall : ∀ c : Backend.Call, c.Proper → (policy c).Asks (Steps fun _ => True) :=
    fun c hp => asks_policy ⟨hp, fun _ _ _ _ => trivial⟩
  have honce : ∀ c : Backend.Call, AsksOnce (.call (.policy c)) (policy c) :=
    fun c => ⟨_, rfl, fun _ => trivial⟩
  cases o with
  | enforce e p actions => exact hw.elim
  | grant e p actions =>
    show Shape (Below e) (E.grant e p actions)
    rw [grant]
    split
    · exact .nothing _
    · exact Shape.bind_conclude fun path h => .sweeping e _ _ _ (asks_grantOn h hh)
  | revoke e p actions => exact shape_revoke E e p actions
  | revokeAll e =>
    exact Shape.bind_conclude fun path h => .sweeping e _ _ _ (asks_revokeAllOn h)
  | createRole role =>
    refine Shape.checkRoleName (.harmless _ (asks_roleOperation ?_))
    exact asks_reading trivial fun q => id
  | dropRole role =>
    exact Shape.checkRoleName (.change (hall (.dropRole role) trivial) (honce (.dropRole role)))
  | addMember role p =>
    exact Shape.checkRoleName (Shape.checkMember
      (.change (hall (.attach role p) trivial) (honce (.attach role p))))
  | removeMember role p =>
    exact Shape.checkRoleName (Shape.checkMember
      (.change (hall (.detach role p) trivial) (honce (.detach role p))))

theorem Shape.asks {p : Task Unit} (h : Shape inside p) : p.Asks (Sweeps inside) := by
  cases h with
  | nothing => exact Asks.pure _
  | refused => exact Asks.throw _
  | sweeping e body failed succeeded hbody =>
    exact asks_sweeping (fun _ => .rfl) (fun _ => trivial) (hbody.mono fun q => Steps.sweeps)
  | clearing body c hbody honce =>
    refine Asks.bind (hbody.mono fun q => Steps.sweeps) fun _ => Asks.bind ?_ fun _ => Asks.pure _
    refine Asks.bind (Asks.ask fun k => ?_) fun _ =>
      Asks.bind (Asks.report trivial) fun _ => Asks.pure _
    exact iff_of_true rfl trivial
  | harmless body hbody => exact hbody.mono fun q => Steps.sweeps

end Warrant.Engine
