import Warrant.Proofs.Pools
import Warrant.Proofs.Sessions

/-!
# Names that are reserved to the engine

The operations that administer a role refuse the name of a shadow role before they do anything
(`refused_iff_administers`). Granting and revoking do not look at the name of a role that they are
given as principal. So a shadow role comes to hold something on an entity that does not own it exactly
when someone grants it that by name (`apart_grant_iff`); as long as nobody does, no interleaving of
operations makes it happen.
-/

namespace Warrant

/-- Shadow roles hold something on the entities that own them only. -/
def RoleStore.Apart (r : Resolver) (s : RoleStore) : Prop :=
  ∀ n e q a, ShadowRole.owner? r n = some e → s.Holds n q a → r.resolve e = .ok q

namespace Backend.Call

variable {r : Resolver} {c : Call} {s t : RoleStore}

/-- The call grants a shadow role nothing on an entity that does not own it. -/
def Spares (r : Resolver) : Call → Prop
  | .grant path role _ => ∀ e, ShadowRole.owner? r role = some e → r.resolve e = .ok path
  | _ => True

theorem Proper.spares (hp : c.Proper) : c.Spares r := by
  cases c with
  | grant path role actions =>
    intro e howner
    obtain ⟨p, hname⟩ := ShadowRole.owner?_eq_some_iff.mp howner
    obtain ⟨hk, owned, hresolve, rfl⟩ := ShadowRole.name?_eq_ok_iff.mp hname
    obtain ⟨p', hread⟩ := hp (ShadowRole.isReserved_nameOn owned p)
    rw [ShadowRole.read?_of_resolve hresolve hk] at hread
    obtain ⟨rfl, -⟩ := Prod.mk.inj (Option.some.inj hread)
    exact hresolve
  | _ => trivial

theorem apply_apart (hs : s.Apart r) (hc : c.Spares r) (h : c.apply s = .ok t) : t.Apart r := by
  intro n e q a howner hh
  rcases c.holds_of_apply h hh with hh | ⟨actions, rfl⟩
  · exact hs n e q a howner hh
  · exact hc e howner

end Backend.Call

namespace Engine

open World Procedure

variable {τ : Type} {E : Engine} {e : Entity} {p : Principal} {role : String}
  {actions : List Action} {o : Operation}

/-- The request grants a shadow role nothing on an entity that does not own it. -/
def Spares (r : Resolver) : Request Call → Prop
  | .call (.policy c) => c.Spares r
  | _ => True

theorem Reads.spares {r : Resolver} {q : Request Call} (h : Reads q) : Spares r q := by
  unfold Spares
  split
  · rename_i c
    cases c with
    | grant => exact h.elim
    | _ => trivial
  · trivial

theorem Sweeps.spares {r : Resolver} {inside : Cache.Key → Prop} {q : Request Call}
    (h : Sweeps inside q) : Spares r q := by
  unfold Spares
  split
  · have hwithin : Call.Within inside (.policy _) := h
    exact hwithin.1.spares
  · trivial

theorem Site.after_apart {r : Resolver} {s : Site} {c : Call} (hs : s.store.Apart r)
    (hc : Spares r (.call c)) : (s.after c).store.Apart r := by
  rcases Site.after_store_eq s c with hsame | ⟨d, rfl, happly⟩
  · rwa [hsame]
  · exact Backend.Call.apply_apart hs hc happly

namespace Operation

/-- The role that the caller names. -/
def role? : Operation → Option String
  | grant _ p _ | revoke _ p _ => if p.kind = .role then some p.name else none
  | createRole role | dropRole role | addMember role _ | removeMember role _ => some role
  | enforce .. | revokeAll _ => none

/-- The operation does not name a shadow role to grant it something on an entity that does not own
it. -/
def Spares (E : Engine) : Operation → Prop
  | grant e p _ =>
    p.kind = .role → ∀ owner, ShadowRole.owner? E.resolver p.name = some owner → owner = e
  | _ => True

end Operation

/-! ### Names that are refused -/

theorem checkRoleName_of_reserved (h : ShadowRole.isReserved role = true) :
    checkRoleName role = throw (.reservedRoleName role) := if_pos h

/-- What begins by resolving an entity and then asks for something is not refused for a name. -/
theorem resolving_ne_refused {α : Type} {f : Path → Task α}
    (h : ∀ path, ∃ q next, ExceptT.run (f path) = .ask q next) :
    (do let path ← E.resolver.resolve e; f path : Task α) ≠ throw (.reservedRoleName role) := by
  intro heq
  cases hp : E.resolver.resolve e with
  | error fault =>
    rw [hp] at heq
    obtain rfl : fault = .reservedRoleName role :=
      Except.error.inj (Dialogue.done.inj (congrArg ExceptT.run heq))
    rcases Resolver.isRefusal_of_resolve hp with ⟨word, h⟩ | ⟨reason, h⟩ <;> cases h
  | ok path =>
    rw [hp] at heq
    obtain ⟨q, next, hask⟩ := h path
    have hdone : ExceptT.run (f path) = .done (.error (.reservedRoleName role)) :=
      congrArg ExceptT.run heq
    rw [hask] at hdone
    cases hdone

/-- An operation that is given the name of a shadow role is refused, without a request, exactly if it
administers the role. -/
theorem refused_iff_administers (E : Engine) (h : o.role? = some role)
    (hr : ShadowRole.isReserved role = true) :
    E.perform o = throw (.reservedRoleName role) ↔ o.Administers := by
  have hcheck := checkRoleName_of_reserved hr
  have hsweep : ∀ {α : Type} (e : Entity) (body : Task α) failed succeeded, ∃ q next,
      ExceptT.run (sweeping e body failed succeeded) = .ask q next := fun _ _ _ _ => ⟨_, _, rfl⟩
  cases o with
  | enforce e p actions => cases h
  | revokeAll e => cases h
  | grant e p actions =>
    refine iff_of_false (fun heq => ?_) id
    replace heq : E.grant e p actions = _ := heq
    rw [grant] at heq
    split at heq
    · cases congrArg ExceptT.run heq
    · exact resolving_ne_refused (fun path => hsweep e _ _ _) heq
  | revoke e p actions =>
    exact iff_of_false (resolving_ne_refused fun path => hsweep e _ _ _) id
  | createRole _ | dropRole _ | addMember _ _ | removeMember _ _ =>
    obtain rfl := Option.some.inj h
    refine iff_of_true ?_ trivial
    simp only [perform, createRole, dropRole, addMember, removeMember, hcheck]
    rfl

/-! ### What shadow roles come to hold -/

theorem asks_grant_role (hk : p.kind = .role) (hs : (Operation.grant e p actions).Spares E) :
    (E.grant e p actions).Asks (Spares E.resolver) := by
  rw [grant]
  split
  · exact Asks.pure _
  · refine Asks.bind_conclude fun path hp => ?_
    have hgrant : (E.grantOn e path p (Action.distinct actions)).Asks (Spares E.resolver) := by
      rw [grantOn, if_pos hk]
      refine Asks.bind (Asks.call fun owner howner => ?_) fun _ => Asks.pure _
      rw [hs hk owner howner]
      exact hp
    exact asks_sweeping trivial (fun _ => trivial) hgrant

theorem asks_spares (hw : o.IsWrite) (hs : o.Spares E) :
    (E.perform o).Asks (Spares E.resolver) := by
  by_cases hh : o.Honest
  · exact (shape_perform E hw hh).asks.mono fun q => Sweeps.spares
  · -- only a role that is the principal can be named dishonestly
    cases o with
    | grant e p actions =>
      have hk : p.kind = .role := Classical.byContradiction fun hk => hh fun hk' => absurd hk' hk
      exact asks_grant_role hk hs
    | revoke e p actions => exact (shape_revoke E e p actions).asks.mono fun q => Sweeps.spares
    | enforce => exact hw.elim
    | _ => exact absurd trivial hh

variable [Add τ] [LE τ] [DecidableLE τ] {w v : World Site τ}

theorem apart_run {p : Task Unit} (hp : p.Asks (Spares E.resolver))
    (hw : w.remote.store.Apart E.resolver) :
    (World.run p w).2.remote.store.Apart E.resolver :=
  site_run_keeps (I := fun s => s.store.Apart E.resolver)
    (fun _ _ hc hs => Site.after_apart hs hc) hp hw

/-- Whatever is under way at the same time and whatever becomes of the remote calls: shadow roles stay
apart as long as no errand grants one of them something on an entity that does not own it. -/
theorem Pool.apart_run (hw : w.remote.store.Apart E.resolver) {schedule : List (Move τ)}
    (hs : ∀ o, .start (.perform o) ∈ schedule → o.Spares E) :
    (Pool.run E schedule (.idle w)).world.remote.store.Apart E.resolver := by
  have hobeys : Obeys (Spares E.resolver) (fun s => s.store.Apart E.resolver) (Pool.idle w) :=
    .idle hw
  refine (hobeys.run (fun c s hc hs => Site.after_apart hs hc) fun errand herrand => ?_).site
  refine Errand.asks (fun q => Reads.spares) fun o ho hwrite => asks_spares hwrite (hs o ?_)
  rwa [← ho]

/-- What succeeds between two droppings of decisions has succeeded at the site, and the site is as it
has left it. -/
theorem ok_of_run_sweeping {α : Type} {body : Task α} {failed : Fault → Audit.Event}
    {succeeded : α → Audit.Event}
    (h : World.run (sweeping e body failed succeeded) w = (.ok (), v)) : ∃ a, ∃ u u' : World Site τ,
      u.remote = w.remote ∧ World.run body u = (.ok a, u') ∧ v.remote = u'.remote := by
  have hdrop : ∀ w : World Site τ,
      (World.run (Cache.invalidateSubtree e : Task Nat) w).2.remote = w.remote :=
    remote_of_no_call τ (asks_invalidateSubtree (fun c h => by cases h) fun event c h => by cases h)
  obtain ⟨_, u, hu, h⟩ := ok_of_run_bind h
  obtain ⟨a, u', hbody, h⟩ := ok_of_run_bind h
  obtain ⟨_, u'', hu'', h⟩ := ok_of_run_bind h
  rw [run_report] at h
  refine ⟨a, u, u', ?_, ok_of_run_onFault hbody, ?_⟩
  · rw [← hdrop w, hu]
  · rw [← hdrop u', hu'', ← (Prod.mk.inj h).2]

/-- A grant that the backend has carried out has given the role the actions. -/
theorem holds_of_call {path : Path}
    (h : w.call (.policy (.grant path role actions)) = (.ok (), v)) {a : Action} (ha : a ∈ actions) :
    v.remote.store.Holds role path a := by
  let c : Backend.Call := .grant path role actions
  have hanswer : w.remote.answer (.policy c) = .ok () := call_sound (congrArg Prod.fst h)
  have hopen : ¬ w.remote.readOnly = true := fun hr => by
    rw [Site.answer, if_pos hr] at hanswer
    cases hanswer
  rw [Site.answer, if_neg hopen] at hanswer
  have hafter : v.remote = w.remote.after (.policy c) := by
    obtain ⟨log, -, hworld⟩ := w.call_world (.policy c)
    rw [h] at hworld
    exact congrArg World.remote hworld
  rw [hafter, Site.after, if_neg hopen]
  rcases answer_cases c w.remote.backend w.remote.store with ⟨-, -, happly⟩ | ⟨f, hf, -⟩
  · have hgains := RoleStore.gains_grant happly (List.ne_nil_of_mem ha)
    exact (hgains.holds _ _ _).mpr (.inr ⟨rfl, rfl, ha⟩)
  · rw [hanswer] at hf
    cases hf

/-- A grant to a role that succeeds has given it the actions on the path of the entity. -/
theorem holds_of_granted (hk : p.kind = .role) (h : World.run (E.grant e p actions) w = (.ok (), v))
    {a : Action} (ha : a ∈ actions) :
    ∃ path, E.resolver.resolve e = .ok path ∧ v.remote.store.Holds p.name path a := by
  rw [grant] at h
  split at h
  · rename_i hnil
    rw [← Action.mem_distinct, List.isEmpty_iff.mp hnil] at ha
    cases ha
  · obtain ⟨path, u₀, hp, h⟩ := ok_of_run_bind h
    obtain ⟨_, u, u', -, hbody, hv⟩ := ok_of_run_sweeping h
    rw [grantOn, if_pos hk] at hbody
    obtain ⟨_, u₁, hcall, hbody⟩ := ok_of_run_bind hbody
    cases hbody
    refine ⟨path, (Prod.mk.inj hp).1, ?_⟩
    rw [hv]
    exact holds_of_call hcall (Action.mem_distinct.mpr ha)

/-- A grant that succeeds keeps shadow roles apart exactly if it does not name one that its entity does
not own. -/
theorem apart_grant_iff (hw : w.remote.store.Apart E.resolver) (hne : actions ≠ [])
    (h : World.run (E.grant e p actions) w = (.ok (), v)) :
    v.remote.store.Apart E.resolver ↔ (Operation.grant e p actions).Spares E := by
  constructor
  · intro hv hk owner howner
    obtain ⟨a, ha⟩ := List.exists_mem_of_ne_nil _ hne
    obtain ⟨path, hp, hh⟩ := holds_of_granted hk h ha
    have howned := hv p.name owner path a howner hh
    rw [Resolver.eq_path_of_resolve hp] at howned
    exact Entity.path_injective (Resolver.eq_path_of_resolve howned).symm
  · intro hs
    have hrun := apart_run (asks_spares (E := E) (o := .grant e p actions) trivial hs) hw
    rw [show World.run (E.perform (.grant e p actions)) w = (.ok (), v) from h] at hrun
    exact hrun

/-- The names of shadow roles are refused by exactly the operations that administer roles. As long as
no grant names the shadow role of another entity, shadow roles hold something on their own entities
only, in every state that errands reach side by side from an empty backend, whatever becomes of their
remote calls; and a grant that names one and succeeds is what ends this. -/
theorem reserved_names (E : Engine) :
    (∀ o role, o.role? = some role → ShadowRole.isReserved role = true →
      (E.perform o = throw (.reservedRoleName role) ↔ o.Administers)) ∧
    (∀ (w : World Site τ) (schedule : List (Move τ)), w.remote.store = .empty →
      (∀ o, .start (.perform o) ∈ schedule → o.Spares E) →
      (Pool.run E schedule (.idle w)).world.remote.store.Apart E.resolver) ∧
    ∀ (w : World Site τ) e p actions, w.remote.store.Apart E.resolver → actions ≠ [] →
      (World.run (E.perform (.grant e p actions)) w).1 = .ok () →
      ((World.run (E.perform (.grant e p actions)) w).2.remote.store.Apart E.resolver ↔
        (Operation.grant e p actions).Spares E) := by
  refine ⟨fun o role h hr => refused_iff_administers E h hr, fun w schedule hempty hs => ?_,
    fun w e p actions hw hne hok => apart_grant_iff hw hne (Prod.ext hok rfl)⟩
  refine Pool.apart_run ?_ hs
  rw [hempty]
  rintro n e q a - ⟨r, hr, -⟩
  cases hr

namespace Sample

/-- The shadow role of Ada on the root, named as a principal. -/
def shadow : Principal := ⟨.role, ".:instance=cdap:u:ada", by decide⟩

/-- While Ada is granted to read on the root, someone grants her shadow role there to write. -/
def meddling : List (Move Nat) :=
  [.start (.perform (.grant root ada [.read])), .start (.perform (.grant root shadow [.write]))] ++
    List.replicate 5 (.go 0 .carriedOut) ++ List.replicate 6 (.go 1 .carriedOut) ++
    List.replicate 7 (.go 0 .carriedOut)

theorem owner_of_shadow : ShadowRole.owner? engine.resolver shadow.name = some root := by
  decide +kernel

/-- Ada has been granted to read on the root. -/
def reading : World Site Nat := (World.run (engine.perform (.grant root ada [.read])) start).2

/-- Then her shadow role on the root is granted to write in a namespace. -/
def strayed : Except Fault Unit × World Site Nat :=
  World.run (engine.perform (.grant research shadow [.write])) reading

/-- Ada's shadow role cannot be dropped by its name. What it holds is on the root as long as others
meddle with it there only, and not any more once it has been granted to write in a namespace. -/
theorem kept_on_root :
    engine.perform (.dropRole shadow.name) = throw (.reservedRoleName shadow.name) ∧
    (Pool.run engine meddling (.idle start)).world.remote.store.Holds shadow.name root.path .write ∧
    (∀ q a, (Pool.run engine meddling (.idle start)).world.remote.store.Holds shadow.name q a →
      engine.resolver.resolve root = .ok q) ∧
    ¬ strayed.2.remote.store.Apart engine.resolver := by
  obtain ⟨hrefused, hapart, hgrant⟩ := reserved_names (τ := Nat) engine
  have hspares : ∀ o, .start (.perform o) ∈ meddling → o.Spares engine := by
    intro o ho
    have ho : o = .grant root ada [.read] ∨ o = .grant root shadow [.write] := by
      simpa [meddling, List.mem_replicate] using ho
    rcases ho with rfl | rfl
    · intro hk
      cases hk
    · intro _ owner howner
      rw [owner_of_shadow] at howner
      exact (Option.some.inj howner).symm
  have hreading : reading.remote.store.Apart engine.resolver :=
    (hgrant start root ada [.read] (hapart start [] rfl fun _ ho => by cases ho) (by decide)
      (congrArg Prod.fst (eq_of_isOk (by decide +kernel)))).mpr fun hk => by cases hk
  refine ⟨(hrefused _ _ rfl (by decide)).mpr trivial, by decide +kernel,
    fun q a => hapart start meddling rfl hspares _ root q a owner_of_shadow, fun hstrayed => ?_⟩
  have hsame := (hgrant reading research shadow [.write] hreading (by decide)
    (congrArg Prod.fst (eq_of_isOk (by decide +kernel)))).mp hstrayed rfl root owner_of_shadow
  exact absurd hsame (by decide)

/-- The grant to a reserved name is not refused, and the shadow role of the root holds something in
the namespace. -/
theorem shadow_role_strayed : ShadowRole.isReserved shadow.name = true ∧ strayed.1 = .ok () ∧
    ShadowRole.owner? engine.resolver shadow.name = some root ∧ research ≠ root ∧
    strayed.2.remote.store.Holds shadow.name research.path .write := by
  have hok : strayed.1.isOk = true := by decide +kernel
  exact ⟨by decide, congrArg Prod.fst (eq_of_isOk hok), owner_of_shadow, by decide,
    by decide +kernel⟩

end Sample

end Engine

end Warrant
