import Warrant.Proofs.Sessions
import Warrant.Proofs.Threads

/-!
# Whether a grant takes effect

A grant to a user is made to the groups that stand for the user. The engine looks them up, and takes
the group of the user's own name if there are none; the policy backend looks them up for itself, and
takes none if there are none. So a grant that succeeds reaches the user, on the entity and on all
below it, exactly if the user has some group, or could do what is granted without it
(`takes_effect_iff`).
-/

namespace Warrant

/-- Nobody but groups is a member of a shadow role. -/
def RoleStore.GroupsOnly (s : RoleStore) : Prop :=
  ∀ n m, ShadowRole.isReserved n = true → s.HasMember n m → m.kind = .group

namespace Backend.Call

variable {c : Call} {s t : RoleStore}

/-- The call makes nobody but a group a member of a shadow role. -/
def Admits : Call → Prop
  | .attach role p => ShadowRole.isReserved role = true → p.kind = .group
  | _ => True

/-- Who is a member after a call was one before, or the call has made it one. -/
theorem member_of_apply (h : c.apply s = .ok t) {n : String} {m : Principal} (hm : t.HasMember n m) :
    s.HasMember n m ∨ c = .attach n m := by
  replace hm : t.relations.member n m := hm
  rw [relations_of_apply h] at hm
  cases c with
  | attach role p =>
    rcases hm with hm | ⟨rfl, rfl⟩
    · exact .inl hm
    · exact .inr rfl
  | dropRole role => exact .inl hm.1
  | detach role p => exact .inl hm.1
  | _ => exact .inl hm

theorem apply_groupsOnly (hs : s.GroupsOnly) (hc : c.Admits) (h : c.apply s = .ok t) :
    t.GroupsOnly := by
  intro n m hn hm
  rcases member_of_apply h hm with hm | rfl
  · exact hs n m hn hm
  · exact hc hn

end Backend.Call

namespace Engine

open World Procedure RoleStore

variable {τ : Type} {E : Engine} {s t : Site} {e e' : Entity} {path : Path} {u : Principal}
  {actions : List Action}

def Admits : Request Call → Prop
  | .call (.policy c) => c.Admits
  | _ => True

theorem Reads.admits {q : Request Call} (h : Reads q) : Admits q := by
  unfold Admits
  split
  · rename_i c
    cases c with
    | attach => exact h.elim
    | _ => trivial
  · trivial

/-- Whatever is asked of the engine, no user and no role becomes a member of a shadow role. -/
theorem asks_admits (E : Engine) (x : Errand) : (x.task E).Asks Admits := by
  refine Errand.asks (fun q => Reads.admits) fun o _ _ => ?_
  refine asks_perform_with E (fun q _ hq => ?_) (fun role p h => h) (fun _ _ _ _ _ _ => trivial)
    fun _ _ => ⟨trivial, trivial⟩
  cases q with
  | chore q => trivial
  | call c =>
    cases c with
    | groupsOf user => trivial
    | policy c =>
      cases c with
      | attach role p => exact absurd rfl (hq role p)
      | _ => trivial

variable [Add τ] [LE τ] [DecidableLE τ] {w : World Site τ}

theorem groupsOnly_run {p : Task Unit} (hp : p.Asks Admits) (hw : w.remote.store.GroupsOnly) :
    (World.run p w).2.remote.store.GroupsOnly := by
  refine site_run_keeps (I := fun s => s.store.GroupsOnly) (fun c s hc hs => ?_) hp hw
  rcases Site.after_store_eq s c with hsame | ⟨d, rfl, happly⟩
  · rwa [hsame]
  · exact d.apply_groupsOnly hs hc happly

theorem groupsOnly_attend (history : List (Occasion τ)) (hw : w.remote.store = .empty) :
    (E.attend history w).remote.store.GroupsOnly := by
  refine attend_keeps (I := fun v : World Site τ => v.remote.store.GroupsOnly)
    (fun x _ v hv => groupsOnly_run (asks_admits E x) hv) (fun _ _ hv => hv) ?_
  rw [hw]
  rintro n m - ⟨r, hr, -⟩
  cases hr

/-! ### What a grant does to verdicts -/

section Granted

variable {q : Path} {k : Cache.Key}

omit [Add τ] [LE τ] [DecidableLE τ] in
/-- What is granted to a user reaches the user through any group that stands for the user and is known
to the backend as well. -/
theorem verdict_of_granted (hnamed : s.backend.Named)
    (ht : s.Alters (Granted E s path u actions) t) (hu : u.kind = .user) {group : String}
    (hstand : group ∈ E.standInsAt s u) (hgroup : group ∈ s.backend.identity.groupsOf u.name)
    (hk : k.principal = u) (hp : E.resolver.resolve k.entity = .ok q) (hq : path.covers q = true)
    (ha : k.action ∈ actions) : t.verdict E.resolver k = .ok true := by
  have hbackend : t.backend = s.backend := by rw [ht.services]
  have hrole : u.kind ≠ .role := by rw [hu]; exact nofun
  have hne : group ≠ "" := fun h => hnamed u.name u.named (h ▸ hgroup)
  obtain ⟨b, hb, hiff⟩ := Site.verdict_of_named (hbackend ▸ hnamed) hp
  rw [hb]
  refine congrArg Except.ok (hiff.mpr ⟨holder path u, ?_, path, k.action, ?_, hq, .inl rfl⟩)
  · have hmember : t.store.HasMember (holder path u) ⟨.group, group, hne⟩ :=
      (ht.roles.members _ _).mpr (.inr ⟨rfl, hrole, rfl, hstand⟩)
    rw [Relations.ActsIn, hk, hu, hbackend]
    exact .inr ⟨_, rfl, hgroup, hmember⟩
  · exact (ht.roles.holds _ _ _).mpr (.inr ⟨rfl, rfl, ha⟩)

omit [Add τ] [LE τ] [DecidableLE τ] in
/-- What is granted to a user of whom the backend knows no group does not reach the user. -/
theorem verdict_granted_iff (hnamed : s.backend.Named) (honly : s.store.GroupsOnly)
    (ht : s.Alters (Granted E s path u actions) t) (hu : u.kind = .user)
    (hgroups : s.backend.identity.groupsOf u.name = []) (hk : k.principal = u)
    (hp : E.resolver.resolve k.entity = .ok q) :
    t.verdict E.resolver k = .ok true ↔ s.verdict E.resolver k = .ok true := by
  have hbackend : t.backend = s.backend := by rw [ht.services]
  have hrole : u.kind ≠ .role := by rw [hu]; exact nofun
  have hacts : ∀ (r : Relations) n,
      r.ActsIn s.backend.identity.groupsOf k.principal n ↔ r.member n u := by
    intro r n
    rw [Relations.ActsIn, hk, hu, hgroups]
    exact or_iff_left fun ⟨_, _, hm, _⟩ => List.not_mem_nil hm
  -- the groups that have joined are no users
  have hmember : ∀ n, t.store.HasMember n u ↔ s.store.HasMember n u := fun n =>
    (ht.roles.members n u).trans
      (or_iff_left fun ⟨_, _, hgroup, _⟩ => absurd (hu.symm.trans hgroup) nofun)
  -- the user is no member of the shadow role that has gained the actions
  have hholds : ∀ n p a, s.store.HasMember n u → (t.store.Holds n p a ↔ s.store.Holds n p a) := by
    refine fun n p a hn => (ht.roles.holds n p a).trans (or_iff_left ?_)
    rintro ⟨rfl, -⟩
    exact absurd (hu.symm.trans (honly _ u (isReserved_holder path hrole) hn)) nofun
  obtain ⟨b, hb, hiff⟩ := Site.verdict_of_named hnamed hp
  obtain ⟨b', hb', hiff'⟩ := Site.verdict_of_named (s := t) (hbackend ▸ hnamed) hp
  rw [hb, hb', Except.ok.injEq, Except.ok.injEq, hiff, hiff', hbackend]
  refine exists_congr fun n => ?_
  rw [hacts, hacts]
  show t.store.HasMember n u ∧ _ ↔ s.store.HasMember n u ∧ _
  rw [hmember]
  exact and_congr_right fun hn => exists₂_congr fun p a => and_congr_left' (hholds n p a hn)

omit [Add τ] [LE τ] [DecidableLE τ] in
/-- After a grant to a user of actions on an entity and all below it, the user passes with these if the
user has a group, or would have passed before. -/
theorem ruling_granted_iff (hlook : E.looksUpGroups = true)
    (hshared : s.identity = some s.backend.identity) (hnamed : s.backend.Named)
    (honly : s.store.GroupsOnly) (ht : s.Alters (Granted E s path u actions) t)
    (hu : u.kind = .user) (hp : E.resolver.resolve e = .ok q) (hq : path.covers q = true) :
    E.ruling t e u actions = .ok () ↔
      s.backend.identity.groupsOf u.name ≠ [] ∨ E.ruling s e u actions = .ok () := by
  rw [ruling_eq_ok_iff, ruling_eq_ok_iff,
    bypassAt_congr (show t.identity = s.identity by rw [ht.services])]
  cases hgroups : s.backend.identity.groupsOf u.name with
  | nil =>
    have hverdict : ∀ a, t.verdict E.resolver ⟨u, e, a⟩ = .ok true ↔
        s.verdict E.resolver ⟨u, e, a⟩ = .ok true := fun a =>
      verdict_granted_iff hnamed honly ht hu hgroups rfl hp
    simp only [hverdict, ne_eq, not_true_eq_false, false_or]
  | cons group rest =>
    have hgroup : group ∈ s.backend.identity.groupsOf u.name := by
      rw [hgroups]
      exact List.mem_cons_self ..
    have hstand : group ∈ E.standInsAt s u := by
      rw [standInsAt, if_pos hu, groupsAt, hlook, hshared]
      show group ∈ if (s.backend.identity.groupsOf u.name).isEmpty then [u.name]
        else s.backend.identity.groupsOf u.name
      rw [hgroups]
      exact List.mem_cons_self ..
    have hverdict : ∀ a ∈ actions, t.verdict E.resolver ⟨u, e, a⟩ = .ok true := fun a ha =>
      verdict_of_granted hnamed ht hu hstand hgroup rfl hp hq ha
    exact iff_of_true ⟨hu, ⟨q, hp⟩, .inr hverdict⟩ (.inl (List.cons_ne_nil _ _))

end Granted

/-- What a grant has changed when it has ended well. -/
theorem alters_of_grant (hquiet : w.log.context.Quiet) (hopen : w.remote.readOnly = false)
    (hstand : "" ∉ E.standInsAt w.remote u) (hne : actions ≠ [])
    (hok : (World.run (E.grant e u actions) w).1 = .ok ()) :
    E.resolver.resolve e = .ok e.path ∧
      w.remote.Alters (Granted E w.remote e.path u actions)
        (World.run (E.grant e u actions) w).2.remote := by
  have hend : AllOrNothing (Effect E w.remote (.grant e u actions)) w.remote
      (World.run (E.grant e u actions) w).1 (World.run (E.grant e u actions) w).2.remote :=
    (ends_grant hopen hstand).of_quiet hquiet rfl
  rw [hok] at hend
  have hgranted : w.remote.Alters (Effect E w.remote (.grant e u actions))
      (World.run (E.grant e u actions) w).2.remote := hend
  obtain ⟨path, hp, hroles⟩ := (hgranted.roles.resolve_left fun h => hne h.1).2
  obtain rfl := Resolver.eq_path_of_resolve hp
  exact ⟨hp, hgranted.services, hroles⟩

/-- A grant to a user has left no decision in the cache on the entity or below it. -/
theorem not_below_of_grant (hu : u.kind = .user) (hne : actions ≠ [])
    (hp : E.resolver.resolve e = .ok path) {k : Cache.Key} {slot : Cache.Slot τ}
    (hk : (World.run (E.grant e u actions) w).2.Holds k slot) : ¬ Below e k := by
  rw [grant, hp] at hk
  split at hk
  · rename_i hnil
    obtain ⟨a, ha⟩ := List.exists_mem_of_ne_nil _ hne
    rw [← Action.mem_distinct, List.isEmpty_iff.mp hnil] at ha
    cases ha
  · exact not_below_of_sweeping (asks_grantOn hp fun hrole => by rw [hu] at hrole; cases hrole) hk

/-- Where every event can be recorded, and the engine and the backend look groups up in the same place:
after any errands on an empty backend, a grant to a user that succeeds is in effect at once, on the
entity and on everything below it, exactly if the user is reported to have a group, or would have been
allowed the actions without the grant. -/
theorem takes_effect_iff (E : Engine) (hlook : E.looksUpGroups = true) (site : Site)
    (hshared : site.identity = some site.backend.identity) (hnamed : site.backend.Named)
    (hopen : site.readOnly = false) (hempty : site.store = .empty) (limits : Cache.Limits τ)
    (clock : τ) (context : Audit.Context) (hquiet : context.Quiet) (history : List (Occasion τ))
    (e : Entity) (u : Principal) (hu : u.kind = .user) (actions : List Action) (hne : actions ≠ []) :
    let before := E.attend history (World.new limits clock context site)
    let granted := World.run (E.grant e u actions) before
    granted.1 = .ok () → ∀ e', e' = e ∨ e'.climbsTo e = true →
      ((World.run (E.enforce e' u actions) granted.2).1 = .ok () ↔
        site.backend.identity.groupsOf u.name ≠ [] ∨
          E.ruling before.remote e' u actions = .ok ()) := by
  intro before granted hok e' hbelow
  have hservices := services_attend (E := E) history (World.new limits clock context site)
  have hbackend : before.remote.backend = site.backend := by rw [hservices]; rfl
  have hidentity : before.remote.identity = some site.backend.identity := by
    rw [hservices]
    exact hshared
  have hcontext : before.log.context.Quiet := by rw [context_attend]; exact hquiet
  have hstand : "" ∉ E.standInsAt before.remote u := by
    refine named_standInsAt (fun I hI user huser => ?_) u
    rw [hidentity] at hI
    obtain rfl := Option.some.inj hI
    exact hnamed user huser
  have hopen' : before.remote.readOnly = false := by rw [hservices]; exact hopen
  obtain ⟨hp, hgranted⟩ := alters_of_grant hcontext hopen' hstand hne hok
  have hcovers : e.path.covers e'.path = true :=
    Entity.path_covers_iff.mpr (hbelow.imp Eq.symm id)
  have hp' : E.resolver.resolve e' = .ok e'.path := by
    rcases hbelow with rfl | hbelow
    · exact hp
    · exact Entity.resolve_of_climbsTo hp hbelow
  have hbacked : Backed E granted.2 e' u := fun a slot hk =>
    absurd (Cache.Scope.subtree_covers_iff.mpr hcovers) (not_below_of_grant hu hne hp hk)
  have hcontext' : granted.2.log.context.Quiet := by rw [context_run]; exact hcontext
  rw [run_enforce hcontext' hbacked, ← hbackend]
  exact ruling_granted_iff hlook (by rw [hidentity, hbackend]) (hbackend ▸ hnamed)
    (groupsOnly_attend history hempty) hgranted hu hp' hcovers

namespace Sample

/-- Ben has been denied to write below the root; a grant on the root changes that. -/
theorem granted_below :
    let start : World Site Nat := .new ⟨10, 5⟩ 0 .empty office
    let before := team.attend [.errand (.perform (.enforce research ben [.write])), .wait 1] start
    let granted := World.run (team.grant root ben [.write]) before
    research.climbsTo root = true ∧
    (World.run (team.enforce research ben [.write]) before).1 =
      .error (.unauthorized ben research [.write]) ∧
    (World.run (team.enforce research ben [.write]) granted.2).1 = .ok () := by
  have hbelow : research.climbsTo root = true := by
    rw [Entity.climbsTo_eq_isBelow]
    decide
  refine ⟨hbelow, by decide +kernel, ?_⟩
  exact (takes_effect_iff team rfl office rfl (Backend.Setup.named_of_memberships (by decide)) rfl rfl
    ⟨10, 5⟩ 0 .empty Audit.Context.quiet_empty _ root ben rfl [.write] (by decide)
    (by decide +kernel) research (.inr hbelow)).mpr (.inl (by decide))

/-- Nobody knows of any group of Ada, so what she is granted goes to a group that she is not in. -/
theorem granted_in_vain :
    let start : World Site Nat := .new ⟨10, 5⟩ 0 .empty vacant
    let granted := World.run (team.grant root ada [.read]) start
    vacant.identity = some vacant.backend.identity ∧ vacant.backend.Named ∧ granted.1 = .ok () ∧
      (World.run (team.enforce root ada [.read]) granted.2).1 =
        .error (.unauthorized ada root [.read]) :=
  ⟨rfl, Backend.Setup.named_of_memberships (by decide), by decide +kernel, by decide +kernel⟩

end Sample

end Engine

end Warrant
