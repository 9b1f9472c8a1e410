import Warrant.Proofs.Ready

/-!
# Instances are isolated

An engine that serves one instance grants on paths of that instance only, makes shadow roles for its
entities only, and keeps decisions on its entities only (`Local`). So nothing else ever gets to the
backend or the cache, whatever is asked side by side and whatever becomes of the calls
(`Pool.isolated_run`). What is asked about an entity of another instance, or of no tier, is refused
before anything happens (`perform_of_unresolved`).
-/

namespace Warrant

/-- The entity is the instance of the name or lies below it. -/
def Entity.IsRootedAt (name : String) (e : Entity) : Prop :=
  e.root.type = .of .root ∧ e.root.name.text = name

namespace Resolver

variable {r : Resolver} {e : Entity} {path : Path} {name : String}

theorem root_of_resolve (h : r.resolve e = .ok path) : e.root.type = .of .root := by
  obtain ⟨t, ht⟩ := supported_of_resolve h e.root (List.head_mem e.nonempty)
  have habove : e.root.type.above? = none := by
    have hdescends := e.descends
    rw [← List.cons_head_tail e.nonempty] at hdescends
    exact hdescends.2.1
  rw [ht] at habove ⊢
  cases t <;> simp_all [EntityType.above?, Tier.above?]

theorem rooted_of_resolve (hr : r.served = some name) (h : r.resolve e = .ok path) :
    e.IsRootedAt name :=
  ⟨root_of_resolve h, check_eq_ok_iff.mp (resolve_eq_ok_iff.mp h).2.1 name hr⟩

theorem segments_of_resolve (hr : r.served = some name) (h : r.resolve e = .ok path) :
    ∃ rest, path.segments = ⟨"instance", name⟩ :: rest := by
  obtain ⟨htype, hname⟩ := rooted_of_resolve hr h
  obtain rfl := eq_path_of_resolve h
  have hplain : e.root.qualifier = none := by
    have hq := Entity.isQualified_of_descends e.descends e.root (List.head_mem e.nonempty)
    cases hqualifier : e.root.qualifier with
    | none => rfl
    | some q =>
      rw [htype, hqualifier] at hq
      cases hq
  have hroot : e.root.segment = ⟨"instance", name⟩ := by
    rw [Node.segment, Node.component, htype, hplain, ← hname]
    rfl
  refine ⟨e.nodes.tail.map Node.segment, ?_⟩
  rw [← hroot]
  exact (congrArg (List.map Node.segment) (List.cons_head_tail e.nonempty)).symm

/-- What a resolver that serves one instance rejects: entities of no tier, and those of another
instance. -/
theorem rejects_iff (hr : r.served = some name) : (∃ f, r.resolve e = .error f) ↔
    (∃ word h, e.type = .foreign word h) ∨ e.root.name.text ≠ name := by
  cases hp : r.resolve e with
  | ok path =>
    obtain ⟨⟨t, ht⟩, hcheck, -⟩ := resolve_eq_ok_iff.mp hp
    refine iff_of_false (fun ⟨f, h⟩ => by cases h) ?_
    rintro (⟨word, h, hforeign⟩ | hname)
    · rw [ht] at hforeign
      cases hforeign
    · exact hname (check_eq_ok_iff.mp hcheck name hr)
  | error f =>
    refine iff_of_true ⟨f, rfl⟩ ?_
    cases ht : e.type with
    | foreign word h => exact .inl ⟨word, h, rfl⟩
    | of t =>
      refine .inr fun hname => ?_
      have hok : r.resolve e = .ok e.path := by
        refine resolve_eq_ok_iff.mpr ⟨⟨t, ht⟩, check_eq_ok_iff.mpr fun served hserved => ?_, rfl⟩
        rw [hname]
        exact Option.some.inj (hr.symm.trans hserved)
      rw [hp] at hok
      cases hok

end Resolver

namespace Backend

open RoleStore

/-- A role that is there after a call was there before, or the call has created it. -/
theorem Call.has_of_apply {c : Call} {s t : RoleStore} {role : String} (h : c.apply s = .ok t)
    (hhas : t.Has role) : s.Has role ∨ c = .createRole role := by
  cases c with
  | createRole name =>
    rcases ((gains_create h).roles role).mp hhas with hhas | rfl
    · exact .inl hhas
    · exact .inr rfl
  | dropRole name => exact .inl ((has_drop h role).mp hhas).1
  | attach | detach | grant | revoke => exact .inl ((has_change h role).mp hhas)
  | revokeAllOn path =>
    obtain rfl := Except.ok.inj h
    exact .inl ((has_clear path s role).mp hhas)
  | authorize | listPrivileges | listRoles | listAllRoles =>
    obtain rfl := Except.ok.inj h
    exact .inl hhas

end Backend

namespace Engine

open Procedure World

/-- The request grants on paths of entities and creates shadow roles of entities that the resolver
accepts, and keeps decisions on such entities. -/
def Local (r : Resolver) : Request Call → Prop
  | .call (.policy (.createRole role)) =>
    ShadowRole.isReserved role = true → ∃ e p, ShadowRole.name? r e p = .ok role
  | .call (.policy (.grant path _ actions)) => actions ≠ [] ∧ ∃ e, r.resolve e = .ok path
  | .chore (.keep k _) => ∃ path, r.resolve k.entity = .ok path
  | _ => True

theorem Plain.local {r : Resolver} {q : Request Call} (h : Plain q) : Local r q := by
  unfold Local
  split
  · exact h.elim
  · exact h.elim
  · exact h.elim
  · trivial

theorem asks_local (E : Engine) (errand : Errand) : (errand.task E).Asks (Local E.resolver) := by
  refine Errand.asks_plain (fun q => Plain.local) fun o _ => ?_
  refine asks_perform_in_full E (fun q => Plain.local) (fun role howns hreserved => ?_)
    (fun _ _ _ => trivial) (fun _ _ _ => trivial) (fun e _ _ _ hp hne => ⟨hne, e, hp⟩)
    (fun _ _ path hp => ⟨path, hp⟩) fun _ _ => ⟨trivial, trivial⟩
  obtain ⟨pair, -, hname⟩ := howns hreserved
  exact ⟨pair.entity, pair.principal, hname⟩

/-- What the site holds belongs to the instance of the name. -/
structure Site.Isolated (r : Resolver) (name : String) (s : Site) : Prop where
  filled : s.store.Filled
  held : ∀ role path a, s.store.Holds role path a →
    ∃ rest, path.segments = ⟨"instance", name⟩ :: rest
  owned : ∀ role, s.store.Has role → ShadowRole.isReserved role = true →
    ∃ e, ShadowRole.owner? r role = some e ∧ e.IsRootedAt name

namespace Site.Isolated

variable {r : Resolver} {name : String} {s : Site}

theorem of_empty (h : s.store = .empty) : s.Isolated r name := by
  refine ⟨h ▸ RoleStore.filled_empty, ?_, ?_⟩
  · rintro role path a ⟨x, hx, -⟩
    rw [h] at hx
    cases hx
  · rintro role ⟨x, hx⟩
    rw [h] at hx
    cases hx

theorem after (h : s.Isolated r name) (hr : r.served = some name) {c : Call}
    (hc : Local r (.call c)) : (s.after c).Isolated r name := by
  rcases after_store_eq s c with hsame | ⟨d, rfl, happly⟩
  · exact ⟨hsame ▸ h.filled, hsame ▸ h.held, hsame ▸ h.owned⟩
  · refine ⟨Backend.Call.apply_filled happly ?_ h.filled, fun role path a hh => ?_,
      fun role hhas hreserved => ?_⟩
    · rintro path role actions rfl
      exact hc.1
    · rcases d.holds_of_apply happly hh with hh | ⟨actions, rfl⟩
      · exact h.held role path a hh
      · obtain ⟨-, e, hp⟩ := hc
        exact Resolver.segments_of_resolve hr hp
    · rcases d.has_of_apply happly hhas with hhas | rfl
      · exact h.owned role hhas hreserved
      · obtain ⟨e, p, hname⟩ := hc hreserved
        obtain ⟨-, path, hp, -⟩ := ShadowRole.name?_eq_ok_iff.mp hname
        exact ⟨e, ShadowRole.owner?_eq_some_iff.mpr ⟨p, hname⟩, Resolver.rooted_of_resolve hr hp⟩

end Site.Isolated

variable {τ : Type}

/-- Whatever is granted, every shadow role and every cached decision belongs to the instance of the
name. -/
structure Isolated (r : Resolver) (name : String) (w : World Site τ) : Prop where
  granted : ∀ role x path held, w.remote.store.roles.get? role = some x →
    x.grants.get? path = some held → ∃ rest, path.segments = ⟨"instance", name⟩ :: rest
  owned : ∀ role, w.remote.store.Has role → ShadowRole.isReserved role = true →
    ∃ e, ShadowRole.ownerOf r role = .ok (some e) ∧ e.IsRootedAt name
  cached : ∀ k slot, w.Holds k slot → k.entity.IsRootedAt name

theorem Site.Isolated.world {r : Resolver} {name : String} {w : World Site τ}
    (h : w.remote.Isolated r name) (hcached : ∀ k slot, w.Holds k slot → k.entity.IsRootedAt name) :
    Engine.Isolated r name w := by
  refine ⟨fun role x path held hx hheld => ?_, fun role hhas hreserved => ?_, hcached⟩
  · obtain ⟨a, ha⟩ := List.exists_mem_of_ne_nil held (h.filled role x hx path held hheld)
    exact h.held role path a ⟨x, hx, Role.mem_heldOn_iff.mpr ⟨held, hheld, ha⟩⟩
  · obtain ⟨e, howner, hrooted⟩ := h.owned role hhas hreserved
    exact ⟨e, by rw [ShadowRole.ownerOf_eq, howner], hrooted⟩

variable [Add τ] [LE τ] [DecidableLE τ] {E : Engine} {name : String}

theorem cached_answer {r : Resolver} (hr : r.served = some name) {q : Request Call}
    {w : World Site τ} (hq : Local r q) (hw : ∀ k slot, w.Holds k slot → k.entity.IsRootedAt name)
    (k : Cache.Key) (slot : Cache.Slot τ) (hk : (World.answer q w).2.Holds k slot) :
    k.entity.IsRootedAt name := by
  cases q with
  | call c =>
    obtain ⟨log, -, hcall⟩ := w.call_world c
    rw [show (World.answer (.call c) w).2 = (w.call c).2 from rfl, hcall] at hk
    exact hw k slot hk
  | chore q =>
    cases q with
    | find j => exact hw k slot (Cache.get?_of_find hk)
    | forget scope => exact hw k slot (Cache.get?_forget.mp hk).1
    | keep j d =>
      rcases Cache.get?_of_keep hk with ⟨rfl, -⟩ | ⟨-, hk⟩
      · obtain ⟨path, hp⟩ := hq
        exact Resolver.rooted_of_resolve hr hp
      · exact hw k slot hk
    | report | acquire | release => exact hw k slot hk

/-- Whatever is asked side by side from the beginning, and whatever becomes of the calls, nothing gets
to the backend or the cache that does not belong to the instance. -/
theorem Pool.isolated_run (hr : E.resolver.served = some name) {w : World Site τ}
    (hcache : w.cache = .empty) (hstore : w.remote.store = .empty) (schedule : List (Move τ)) :
    Engine.Isolated E.resolver name (Pool.run E schedule (.idle w)).world := by
  let Kept (v : World Site τ) : Prop := v.remote.Isolated E.resolver name ∧
    ∀ k slot, v.Holds k slot → k.entity.IsRootedAt name
  have hidle : Upholds (Local E.resolver) Kept (Pool.idle w) := by
    refine .idle ⟨.of_empty hstore, fun k slot hk => ?_⟩
    rw [Holds, hcache] at hk
    cases hk
  have hrun : Upholds (Local E.resolver) Kept (Pool.run E schedule (.idle w)) := by
    refine hidle.run (fun q v hq hv => ⟨?_, cached_answer hr hq hv.2⟩) (fun _ _ hv => hv)
      fun errand _ => asks_local E errand
    rcases remote_answer q v with hsame | ⟨c, rfl, hafter⟩
    · exact hsame ▸ hv.1
    · exact hafter ▸ hv.1.after hr hq
  exact hrun.world.1.world hrun.world.2

/-- The operation has to resolve the entity before it does anything. -/
def Operation.Resolves (e : Entity) : Operation → Prop
  | enforce e' p _ => e' = e ∧ p.kind = .user
  | grant e' _ actions => e' = e ∧ actions ≠ []
  | revoke e' _ _ | revokeAll e' => e' = e
  | _ => False

/-- An operation on an entity that is rejected fails as the resolver does and makes no request. -/
theorem perform_of_unresolved {e : Entity} {f : Fault} (hp : E.resolver.resolve e = .error f)
    {o : Operation} (ho : o.Resolves e) : E.perform o = throw f := by
  cases o with
  | enforce e' p actions =>
    obtain ⟨rfl, hk⟩ := ho
    show E.enforce e' p actions = _
    rw [enforce, if_neg (not_not_intro hk), hp]
    rfl
  | grant e' p actions =>
    obtain ⟨rfl, hne⟩ := ho
    show E.grant e' p actions = _
    rw [grant, if_neg fun h => hne (isEmpty_distinct.mp h), hp]
    rfl
  | revoke e' p actions =>
    obtain rfl := ho
    show E.revoke e' p actions = _
    rw [revoke, hp]
    rfl
  | revokeAll e' =>
    obtain rfl := ho
    show E.revokeAll e' = _
    rw [revokeAll, hp]
    rfl
  | _ => exact ho.elim

/-- An engine that serves one instance keeps to it. Whatever errands are run side by side from an
empty backend and cache, on entities of whatever instance, and whatever becomes of their calls: every
path granted begins with the instance, every role with the marker of shadow roles is owned by an entity
of it, and every cached decision is on such an entity. What is rejected are the entities of no tier
and those of other instances, and an operation that has to resolve one fails as the resolver does,
without a request, and leaves the world as it is. -/
theorem instances_isolated (hr : E.resolver.served = some name) :
    (∀ (w : World Site τ) (schedule : List (Move τ)), w.cache = .empty → w.remote.store = .empty →
      Engine.Isolated E.resolver name (Pool.run E schedule (.idle w)).world) ∧
    (∀ e, (∃ f, E.resolver.resolve e = .error f) ↔
      (∃ word h, e.type = .foreign word h) ∨ e.root.name.text ≠ name) ∧
    ∀ e f o, E.resolver.resolve e = .error f → Operation.Resolves e o →
      E.perform o = throw f ∧ ∀ w : World Site τ, World.run (E.perform o) w = (.error f, w) := by
  refine ⟨fun w schedule hcache hstore => Pool.isolated_run hr hcache hstore schedule,
    fun e => Resolver.rejects_iff hr, fun e f o hp ho => ?_⟩
  have hthrow := perform_of_unresolved hp ho
  exact ⟨hthrow, fun w => by rw [hthrow, World.run_throw]⟩

namespace Sample

/-- An engine that serves one instance. -/
def single : Engine := ⟨⟨some "cdap"⟩, [], none, false, true⟩

/-- Another instance. -/
def elsewhere : Entity :=
  ⟨[⟨.of .root, ⟨"acme", by decide⟩, none⟩], by decide, ⟨by decide, by decide, trivial⟩⟩

/-- Ada is granted to read on the root and on another instance, and asks for the former; the backend
fails after it has carried out the grant, and before it creates a role. -/
def mixed : List (Move Nat) :=
  [.start (.perform (.grant root ada [.read])), .start (.perform (.grant elsewhere ada [.read])),
    .start (.perform (.createRole "readers")), .go 2 (.refused (.backendUnavailable "down")),
    .go 2 .carriedOut] ++
    List.replicate 6 (.go 0 .carriedOut) ++ [.go 0 (.cutOff (.timeout "slow")), .go 0 .carriedOut,
    .go 0 .carriedOut, .start (.perform (.enforce root ada [.read]))] ++
    List.replicate 4 (.go 3 .carriedOut)

/-- The grant on the other instance is refused at once. What is granted and cached belongs to the one
instance, although two of the other operations have failed. -/
theorem nothing_of_others :
    (Pool.run single mixed (.idle start)).result? 0 = some (.error (.timeout "slow")) ∧
    (Pool.run single mixed (.idle start)).result? 1 =
      some (.error (.malformed (.foreignInstance "acme" "cdap"))) ∧
    (Pool.run single mixed (.idle start)).result? 2 =
      some (.error (.backendUnavailable "down")) ∧
    (Pool.run single mixed (.idle start)).world.remote.store.Holds ".:instance=cdap:u:ada" root.path
      .read ∧
    (Pool.run single mixed (.idle start)).world.Holds ⟨ada, root, .read⟩ ⟨some true, 5⟩ ∧
    Engine.Isolated ⟨some "cdap"⟩ "cdap" (Pool.run single mixed (.idle start)).world ∧
    World.run (single.perform (.grant elsewhere ada [.read])) start =
      (.error (.malformed (.foreignInstance "acme" "cdap")), start) := by
  have hserved : single.resolver.served = some "cdap" := rfl
  obtain ⟨hisolated, -, hrejects⟩ := instances_isolated (τ := Nat) hserved
  refine ⟨?_, ?_, ?_, by decide +kernel, by decide +kernel, hisolated start mixed rfl rfl,
    (hrejects elsewhere _ (.grant elsewhere ada [.read]) rfl ⟨rfl, by decide⟩).2 start⟩
  all_goals decide +kernel

end Sample

end Engine

end Warrant
