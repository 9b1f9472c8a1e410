import Warrant.Proofs.Effects
import Warrant.Proofs.Owners

/-!
# A ledger of what has been granted

A ledger is what a bookkeeper knows who sees only which operations have succeeded: the privileges that
were granted and not revoked, and the members of the callers' roles. The roles of the policy backend
mirror it (`Mirrors`), shadow roles and all, whatever operations succeed (`Mirrors.record`), and what
the backend allows a user is what the ledger covers (`Mirrors.verdict_eq`).
-/

namespace Warrant.Engine

open RoleStore

/-- What has been granted, and who belongs to which role. -/
structure Ledger where
  grants : List Privilege
  members : List (String × Principal)

namespace Ledger

/-- The ledger without entries. -/
def empty : Ledger := ⟨[], []⟩

/-- The ledger after an operation that has succeeded. -/
def record (L : Ledger) : Operation → Ledger
  | .enforce .. | .createRole _ => L
  | .grant e p actions => { L with grants := L.grants ++ actions.map fun a => ⟨p, e, a⟩ }
  | .revoke e p actions => { L with
      grants := L.grants.filter fun t =>
        !decide (t.principal = p ∧ t.entity = e ∧ t.action ∈ actions) }
  | .revokeAll e => { L with grants := L.grants.filter fun t => !decide (t.entity = e) }
  | .dropRole role =>
    { grants := L.grants.filter fun t =>
        !decide (t.principal.kind = .role ∧ t.principal.name = role)
      members := L.members.filter fun (r, _) => !decide (r = role) }
  | .addMember role p => { L with members := L.members ++ [(role, p)] }
  | .removeMember role p => { L with members := L.members.filter fun m => !decide (m = (role, p)) }

/-- What is granted to the principal reaches the user: through a group that stands for both of them,
or through a role that the user or a group of the user belongs to. -/
def reaches (L : Ledger) (groups : String → List String) (p u : Principal) : Bool :=
  match p.kind with
  | .user => (groups p.name).any fun g => decide (g ∈ groups u.name)
  | .group => decide (p.name ∈ groups u.name)
  | .role => L.members.any fun (role, m) => decide (role = p.name) &&
      (decide (m = u) || decide (m.kind = .group) && decide (m.name ∈ groups u.name))

/-- The action, or the one that stands for all, has been granted on the entity or above it to a
principal that reaches the user. -/
def covers (L : Ledger) (groups : String → List String) (u : Principal) (e : Entity) (a : Action) :
    Bool :=
  L.grants.any fun t => (decide (t.entity = e) || e.isBelow t.entity) &&
    (decide (t.action = a) || decide (t.action = .all)) && L.reaches groups t.principal u

/-- The requested actions that are not covered. -/
def denied (L : Ledger) (groups : String → List String) (u : Principal) (e : Entity)
    (actions : List Action) : List Action :=
  (Action.distinct actions).filter fun a => !L.covers groups u e a

end Ledger

/-- The engine and its backend tell the same groups of every user, none without a name; the backend
resolves what the engine does; and nobody passes without a check. -/
structure Concord (E : Engine) (s : Site) : Prop where
  readOnly : s.readOnly = false
  groups : ∀ user, user ≠ "" → ∀ g, g ∈ E.groupsAt s user ↔ g ∈ s.backend.identity.groupsOf user
  named : ∀ user, user ≠ "" → "" ∉ s.backend.identity.groupsOf user
  resolves : ∀ e path, E.resolver.resolve e = .ok path →
    ∃ path', s.backend.resolver.resolve e = .ok path'
  superusers : E.superusers = []
  adminGroup : E.adminGroup = none

/-- The triple can have been granted by the engine. -/
structure Entered (E : Engine) (t : Privilege) : Prop where
  resolved : E.resolver.resolve t.entity = .ok t.entity.path
  honest : t.principal.kind = .role → ShadowRole.isReserved t.principal.name = false

/-- The roles hold what the ledger tells, and their members are those that it tells. -/
structure Mirrors (E : Engine) (L : Ledger) (s : Site) : Prop where
  entered : ∀ t ∈ L.grants, Entered E t
  holds : ∀ n q a, s.store.Holds n q a ↔
    ∃ t ∈ L.grants, n = holder t.entity.path t.principal ∧ q = t.entity.path ∧ a = t.action
  members : ∀ r, ShadowRole.isReserved r = false → ∀ m, s.store.HasMember r m ↔ (r, m) ∈ L.members
  joined : ∀ e p, E.resolver.resolve e = .ok e.path → p.kind ≠ .role → ∀ m,
    s.store.HasMember (holder e.path p) m → m.kind = .group ∧ m.name ∈ E.standInsAt s p
  stand : ∀ t ∈ L.grants, t.principal.kind ≠ .role → ∀ m, m.kind = .group →
    m.name ∈ E.standInsAt s t.principal → s.store.HasMember (holder t.entity.path t.principal) m
  filled : s.store.Filled

variable {E : Engine} {s t : Site} {L : Ledger}

/-- The engine and its backend share one directory, which has a group for every user. -/
theorem Concord.of_shared {I : Identity} (hbackend : s.backend.identity = I)
    (hengine : s.identity = some I) (hlooksUp : E.looksUpGroups = true)
    (hI : ∀ user, user ≠ "" → I.groupsOf user ≠ [] ∧ "" ∉ I.groupsOf user)
    (hreadOnly : s.readOnly = false)
    (hresolves : ∀ e path, E.resolver.resolve e = .ok path →
      ∃ path', s.backend.resolver.resolve e = .ok path')
    (hsuperusers : E.superusers = []) (hadminGroup : E.adminGroup = none) : Concord E s where
  readOnly := hreadOnly
  groups user hu g := by
    have hsome : (I.groupsOf user).isEmpty = false := by simpa using (hI user hu).1
    rw [groupsAt, hengine, hlooksUp, hbackend]
    simp [hsome]
  named user hu := by
    rw [hbackend]
    exact (hI user hu).2
  resolves := hresolves
  superusers := hsuperusers
  adminGroup := hadminGroup

theorem Concord.of_alters {R : RoleStore → RoleStore → Prop} (h : Concord E s)
    (ha : s.Alters R t) : Concord E t := by
  rw [ha.services]
  exact ⟨h.readOnly, h.groups, h.named, h.resolves, h.superusers, h.adminGroup⟩

theorem Concord.mem_standIns (h : Concord E s) {p : Principal} (hk : p.kind ≠ .role) {g : String} :
    g ∈ E.standInsAt s p ↔
      (p.kind = .user ∧ g ∈ s.backend.identity.groupsOf p.name) ∨ (p.kind = .group ∧ g = p.name) := by
  rw [standInsAt]
  cases hp : p.kind with
  | user => simp [h.groups p.name p.named]
  | group => simp
  | role => exact absurd hp hk

theorem Concord.named_standIns (h : Concord E s) (p : Principal) : "" ∉ E.standInsAt s p := by
  rw [standInsAt]
  split
  · rw [h.groups p.name p.named]
    exact h.named p.name p.named
  · exact fun h => p.named (List.mem_singleton.mp h).symm

/-! ### Holders -/

theorem holder_of_role {path : Path} {p : Principal} (h : p.kind = .role) :
    holder path p = p.name := if_pos h

theorem isReserved_holder (path : Path) {p : Principal} (h : p.kind ≠ .role) :
    ShadowRole.isReserved (holder path p) = true := by
  rw [holder, if_neg h]
  exact ShadowRole.isReserved_nameOn path p

theorem holder_of_name? {e : Entity} {p : Principal} {n : String}
    (hname : ShadowRole.name? E.resolver e p = .ok n) :
    E.resolver.resolve e = .ok e.path ∧ p.kind ≠ .role ∧ holder e.path p = n := by
  obtain ⟨hk, path, hp, rfl⟩ := ShadowRole.name?_eq_ok_iff.mp hname
  obtain rfl := Resolver.eq_path_of_resolve hp
  exact ⟨hp, hk, if_neg hk⟩

/-- The role that holds what is granted to a pair determines the principal. -/
theorem principal_of_holder {e e' : Entity} {p p' : Principal}
    (h : E.resolver.resolve e = .ok e.path) (h' : E.resolver.resolve e' = .ok e'.path)
    (hp : p.kind = .role → ShadowRole.isReserved p.name = false)
    (hp' : p'.kind = .role → ShadowRole.isReserved p'.name = false)
    (hn : holder e.path p = holder e'.path p') : p = p' := by
  by_cases hk : p.kind = .role
  · by_cases hk' : p'.kind = .role
    · obtain ⟨kind, name, named⟩ := p
      obtain ⟨kind', name', named'⟩ := p'
      rw [holder_of_role hk, holder_of_role hk'] at hn
      obtain rfl : kind = kind' := hk.trans hk'.symm
      obtain rfl : name = name' := hn
      rfl
    · have := isReserved_holder e'.path hk'
      rw [← hn, holder_of_role hk, hp hk] at this
      cases this
  · by_cases hk' : p'.kind = .role
    · have := isReserved_holder e.path hk
      rw [hn, holder_of_role hk', hp' hk'] at this
      cases this
    · rw [holder, if_neg hk, holder, if_neg hk'] at hn
      exact (ShadowRole.nameOn_injective h h' hk hk' hn).2

/-- What a holder holds on the path of an entity was granted to the pair. -/
theorem Entered.eq_of_holder {u v : Privilege} (hu : Entered E u) (hv : Entered E v)
    (hn : holder u.entity.path u.principal = holder v.entity.path v.principal)
    (hq : u.entity.path = v.entity.path) : u.principal = v.principal ∧ u.entity = v.entity :=
  ⟨principal_of_holder hu.resolved hv.resolved hu.honest hv.honest hn, Entity.path_injective hq⟩

theorem mirrors_empty (h : s.store = .empty) : Mirrors E .empty s where
  entered u hu := by cases hu
  holds n q a := by
    rw [h]
    exact ⟨fun ⟨r, hr, _⟩ => (by cases hr), fun ⟨u, hu, _⟩ => (by cases hu)⟩
  members r _ m := by
    rw [h]
    exact ⟨fun ⟨r, hr, _⟩ => (by cases hr), fun hm => (by cases hm)⟩
  joined e p _ _ m hm := by
    rw [h] at hm
    obtain ⟨r, hr, -⟩ := hm
    cases hr
  stand u hu := by cases hu
  filled := by rw [h]; exact filled_empty

theorem Site.Alters.standInsAt {R : RoleStore → RoleStore → Prop} (ha : s.Alters R t) (E : Engine)
    (p : Principal) : E.standInsAt t p = E.standInsAt s p := by
  rw [Engine.standInsAt, Engine.standInsAt, ha.groupsAt]

/-! ### What an operation does to the ledger and to the roles -/

namespace Mirrors

variable {e : Entity} {p : Principal} {actions : List Action} {role : String}

theorem grant (h : Mirrors E L s) (hp : E.resolver.resolve e = .ok e.path)
    (hh : p.kind = .role → ShadowRole.isReserved p.name = false)
    (ha : s.Alters (Granted E s e.path p actions) t) :
    Mirrors E (L.record (.grant e p actions)) t where
  entered u hu := by
    rcases List.mem_append.mp hu with hu | hu
    · exact h.entered u hu
    · obtain ⟨a, -, rfl⟩ := List.mem_map.mp hu
      exact ⟨hp, hh⟩
  holds n q a := by
    rw [ha.roles.holds, h.holds]
    constructor
    · rintro (⟨u, hu, hn⟩ | ⟨rfl, rfl, hact⟩)
      · exact ⟨u, List.mem_append_left _ hu, hn⟩
      · exact ⟨⟨p, e, a⟩, List.mem_append_right _ (List.mem_map.mpr ⟨a, hact, rfl⟩), rfl, rfl, rfl⟩
    · rintro ⟨u, hu, rfl, rfl, rfl⟩
      rcases List.mem_append.mp hu with hu | hu
      · exact .inl ⟨u, hu, rfl, rfl, rfl⟩
      · obtain ⟨a, hact, rfl⟩ := List.mem_map.mp hu
        exact .inr ⟨rfl, rfl, hact⟩
  members r hr m := by
    show t.store.HasMember r m ↔ (r, m) ∈ L.members
    rw [ha.roles.members, ← h.members r hr m]
    refine or_iff_left ?_
    rintro ⟨rfl, hk, -⟩
    rw [isReserved_holder _ hk] at hr
    cases hr
  joined e' p' he' hk' m hm := by
    rw [ha.standInsAt]
    rcases (ha.roles.members _ m).mp hm with hm | ⟨hn, hk, hm⟩
    · exact h.joined e' p' he' hk' m hm
    · -- no other pair has this shadow role, so the groups that joined stand for its principal
      obtain rfl := principal_of_holder he' hp (fun hk => absurd hk hk') hh hn
      exact hm
  stand u hu hk m hg hm := by
    rw [ha.standInsAt] at hm
    refine (ha.roles.members _ m).mpr ?_
    rcases List.mem_append.mp hu with hu | hu
    · exact .inl (h.stand u hu hk m hg hm)
    · obtain ⟨a, -, rfl⟩ := List.mem_map.mp hu
      exact .inr ⟨rfl, hk, hg, hm⟩
  filled := ha.roles.filled h.filled

/-- What the roles still hold is what is left of the ledger. -/
theorem holds_filter (h : Mirrors E L s) {lost : String → Path → Action → Prop}
    {keep : Privilege → Bool}
    (ht : ∀ n q a, t.store.Holds n q a ↔ s.store.Holds n q a ∧ ¬ lost n q a)
    (hlost : ∀ u ∈ L.grants,
      (lost (holder u.entity.path u.principal) u.entity.path u.action ↔ keep u = false))
    (n : String) (q : Path) (a : Action) : t.store.Holds n q a ↔ ∃ u ∈ L.grants.filter keep,
      n = holder u.entity.path u.principal ∧ q = u.entity.path ∧ a = u.action := by
  rw [ht, h.holds]
  constructor
  · rintro ⟨⟨u, hu, rfl, rfl, rfl⟩, hl⟩
    have hk : keep u = true := Bool.of_not_eq_false fun hk => hl ((hlost u hu).mpr hk)
    exact ⟨u, List.mem_filter.mpr ⟨hu, hk⟩, rfl, rfl, rfl⟩
  · rintro ⟨u, hu, rfl, rfl, rfl⟩
    obtain ⟨hu, hk⟩ := List.mem_filter.mp hu
    refine ⟨⟨u, hu, rfl, rfl, rfl⟩, fun hl => ?_⟩
    rw [(hlost u hu).mp hl] at hk
    cases hk

theorem sheds (h : Mirrors E L s) {lost : String → Path → Action → Prop} {keep : Privilege → Bool}
    (ha : s.Alters (Sheds lost) t) (hlost : ∀ u ∈ L.grants,
      (lost (holder u.entity.path u.principal) u.entity.path u.action ↔ keep u = false)) :
    Mirrors E { L with grants := L.grants.filter keep } t where
  entered u hu := h.entered u (List.mem_filter.mp hu).1
  holds := h.holds_filter ha.roles.holds hlost
  members r hr m := by
    rw [← h.members r hr m]
    exact ⟨ha.roles.sub r m, fun hm => ha.roles.kept r m hm (.inl hr)⟩
  joined e p he hk m hm := by
    rw [ha.standInsAt]
    exact h.joined e p he hk m (ha.roles.sub _ m hm)
  stand u hu hk m hg hm := by
    rw [ha.standInsAt] at hm
    -- the shadow role still holds what is left of the ledger, so it has kept its members
    have hholds := (h.holds_filter ha.roles.holds hlost _ _ _).mpr ⟨u, hu, rfl, rfl, rfl⟩
    exact ha.roles.kept _ m (h.stand u (List.mem_filter.mp hu).1 hk m hg hm) (.inr ⟨_, _, hholds⟩)
  filled := ha.roles.filled h.filled

theorem loses (h : Mirrors E L s) {lost : String → Path → Action → Prop}
    {left : String → Principal → Prop} {keep : Privilege → Bool} {stay : String × Principal → Bool}
    (ha : s.Alters (Loses lost left) t) (hlost : ∀ u ∈ L.grants,
      (lost (holder u.entity.path u.principal) u.entity.path u.action ↔ keep u = false))
    (hleft : ∀ n m, left n m ↔ stay (n, m) = false)
    (hopen : ∀ n m, left n m → ShadowRole.isReserved n = false) :
    Mirrors E ⟨L.grants.filter keep, L.members.filter stay⟩ t where
  entered u hu := h.entered u (List.mem_filter.mp hu).1
  holds := h.holds_filter ha.roles.holds hlost
  members r hr m := by
    rw [ha.roles.members, h.members r hr, List.mem_filter, hleft, Bool.not_eq_false]
  joined e p he hk m hm := by
    rw [ha.standInsAt]
    exact h.joined e p he hk m ((ha.roles.members _ m).mp hm).1
  stand u hu hk m hg hm := by
    rw [ha.standInsAt] at hm
    refine (ha.roles.members _ m).mpr ⟨h.stand u (List.mem_filter.mp hu).1 hk m hg hm, fun hl => ?_⟩
    have := hopen _ m hl
    rw [isReserved_holder _ hk] at this
    cases this
  filled := ha.roles.filled h.filled

theorem joins (h : Mirrors E L s) {born : String → Prop} {joined : String → Principal → Prop}
    {new : List (String × Principal)} (ha : s.Alters (Gains born (fun _ _ _ => False) joined) t)
    (hjoined : ∀ n m, joined n m ↔ (n, m) ∈ new)
    (hopen : ∀ n m, joined n m → ShadowRole.isReserved n = false) :
    Mirrors E { L with members := L.members ++ new } t where
  entered := h.entered
  holds n q a := by rw [ha.roles.holds, or_false, h.holds]
  members r hr m := by rw [ha.roles.members, h.members r hr, List.mem_append, hjoined]
  joined e p he hk m hm := by
    rw [ha.standInsAt]
    refine h.joined e p he hk m (((ha.roles.members _ m).mp hm).elim id fun hm => ?_)
    have := hopen _ m hm
    rw [isReserved_holder _ hk] at this
    cases this
  stand u hu hk m hg hm := by
    rw [ha.standInsAt] at hm
    exact (ha.roles.members _ m).mpr (.inl (h.stand u hu hk m hg hm))
  filled := ha.roles.filled h.filled

/-- Whatever an operation does to the roles when it succeeds is what the ledger records. -/
theorem record (h : Mirrors E L s) {o : Operation} (hh : o.Honest)
    (ha : s.Alters (Effect E s o) t) : Mirrors E (L.record o) t := by
  cases o with
  | enforce e p actions =>
    rw [ha.services, show t.store = s.store from ha.roles]
    exact h
  | grant e p actions =>
    rcases ha.roles with ⟨rfl, hsame⟩ | ⟨-, path, hp, hgranted⟩
    · rw [ha.services, hsame]
      simpa [Ledger.record] using h
    · obtain rfl := Resolver.eq_path_of_resolve hp
      exact h.grant hp hh (ha.mono fun _ => hgranted)
  | revoke e p actions =>
    obtain ⟨path, hp, hrevoked⟩ := ha.roles
    obtain rfl := Resolver.eq_path_of_resolve hp
    refine h.sheds (ha.mono fun _ => hrevoked.toSheds) fun u hu => ?_
    rw [Bool.not_eq_false', decide_eq_true_eq]
    constructor
    · rintro ⟨hn, hq, hact⟩
      obtain ⟨h₁, h₂⟩ := (h.entered u hu).eq_of_holder (v := ⟨p, e, u.action⟩) ⟨hp, hh⟩ hn hq
      exact ⟨h₁, h₂, hact⟩
    · rintro ⟨rfl, rfl, hact⟩
      exact ⟨rfl, rfl, hact⟩
  | revokeAll e =>
    refine h.sheds (ha.mono fun h => h.2.toSheds) fun u hu => ?_
    rw [Bool.not_eq_false', decide_eq_true_eq]
    exact ⟨Entity.path_injective, congrArg Entity.path⟩
  | createRole role =>
    have hjoins : Mirrors E { L with members := L.members ++ [] } t :=
      h.joins (ha.mono fun h => h.2) (fun n m => by simp) fun n m => False.elim
    rwa [List.append_nil] at hjoins
  | dropRole role =>
    have hrole : ShadowRole.isReserved role = false := ha.roles.1
    refine h.loses (ha.mono fun h => h.2) (fun u hu => ?_) (fun n m => by simp) fun n m hn => ?_
    · rw [Bool.not_eq_false', decide_eq_true_eq]
      by_cases hk : u.principal.kind = .role
      · rw [holder_of_role hk]
        exact ⟨fun hn => ⟨hk, hn⟩, And.right⟩
      · refine ⟨fun hn => ?_, fun hn => absurd hn.1 hk⟩
        rw [← hn, isReserved_holder _ hk] at hrole
        cases hrole
    · rw [hn]
      exact hrole
  | addMember role p =>
    refine h.joins (ha.mono fun h => h.2.2) (fun n m => by simp) ?_
    rintro n m ⟨rfl, -⟩
    exact ha.roles.1
  | removeMember role p =>
    have hloses : Mirrors E ⟨L.grants.filter fun _ => true,
        L.members.filter fun m => !decide (m = (role, p))⟩ t := by
      refine h.loses (ha.mono fun h => h.2) (fun u hu => by simp) (fun n m => by simp) ?_
      rintro n m ⟨rfl, -⟩
      exact ha.roles.1
    rwa [List.filter_eq_self.mpr fun u _ => rfl] at hloses

/-- What a shadow role holds was granted to the pair that it is named after. -/
theorem shadow (h : Mirrors E L s) {n : String} {q : Path} {a : Action}
    (hn : ShadowRole.isReserved n = true) (hh : s.store.Holds n q a) : ∃ u ∈ L.grants,
      ShadowRole.name? E.resolver u.entity u.principal = .ok n ∧ q = u.entity.path ∧ a = u.action := by
  obtain ⟨u, hu, rfl, rfl, rfl⟩ := (h.holds n q a).mp hh
  have hentered := h.entered u hu
  have hk : u.principal.kind ≠ .role := by
    intro hk
    rw [holder_of_role hk, hentered.honest hk] at hn
    cases hn
  refine ⟨u, hu, ?_, rfl, rfl⟩
  rw [holder, if_neg hk]
  exact ShadowRole.name?_of_resolve hentered.resolved hk

/-- The shadow role of a pair holds what was granted to the pair, on the path of its entity. -/
theorem holds_name_iff (h : Mirrors E L s) {e : Entity} {p : Principal} {n : String}
    (hname : ShadowRole.name? E.resolver e p = .ok n) (q : Path) (a : Action) :
    s.store.Holds n q a ↔ q = e.path ∧ ⟨p, e, a⟩ ∈ L.grants := by
  constructor
  · intro hh
    obtain ⟨u, hu, hname', rfl, rfl⟩ := h.shadow (ShadowRole.isReserved_of_name? hname) hh
    obtain ⟨rfl, rfl⟩ := ShadowRole.name?_injective hname hname'
    exact ⟨rfl, hu⟩
  · rintro ⟨rfl, hu⟩
    obtain ⟨-, -, rfl⟩ := holder_of_name? hname
    exact (h.holds _ _ _).mpr ⟨_, hu, rfl, rfl, rfl⟩

/-- The members of the role of a pair that was granted something are the groups that stand for the
principal. -/
theorem members_holder (h : Mirrors E L s) {u : Privilege} (hu : u ∈ L.grants)
    (hk : u.principal.kind ≠ .role) (m : Principal) :
    s.store.HasMember (holder u.entity.path u.principal) m ↔
      m.kind = .group ∧ m.name ∈ E.standInsAt s u.principal :=
  ⟨h.joined _ _ (h.entered u hu).resolved hk m, fun hm => h.stand u hu hk m hm.1 hm.2⟩

theorem confined (h : Mirrors E L s) : s.store.Confined := by
  intro n q a hh hn
  obtain ⟨u, hu, hname, rfl, -⟩ := h.shadow hn hh
  obtain ⟨hk, path, hp, rfl⟩ := ShadowRole.name?_eq_ok_iff.mp hname
  obtain rfl := Resolver.eq_path_of_resolve hp
  exact ⟨u.principal, ShadowRole.read?_of_resolve hp hk⟩

theorem traceable (h : Mirrors E L s) (hresolves : ∀ e path, E.resolver.resolve e = .ok path →
    ∃ path', s.backend.resolver.resolve e = .ok path') : s.Traceable := by
  intro n q a hh
  obtain ⟨u, hu, -, rfl, -⟩ := (h.holds n q a).mp hh
  obtain ⟨path, hp⟩ := hresolves _ _ (h.entered u hu).resolved
  obtain rfl := Resolver.eq_path_of_resolve hp
  exact ⟨u.entity, Resolver.entityOf?_of_resolve hp⟩

end Mirrors

/-! ### What the ledger covers is what the backend allows -/

namespace Mirrors

variable {e : Entity} {path : Path} {u : Principal} {a : Action}

/-- The user, or a group of the user, belongs to the role of a pair exactly if what is granted to the
pair reaches the user. -/
theorem reaches_iff (h : Mirrors E L s) (hC : Concord E s) {v : Privilege} (hv : v ∈ L.grants)
    (hu : u.kind = .user) : L.reaches s.backend.identity.groupsOf v.principal u = true ↔
      ∃ m, s.store.HasMember (holder v.entity.path v.principal) m ∧
        (m = u ∨ (m.kind = .group ∧ m.name ∈ s.backend.identity.groupsOf u.name)) := by
  have hentered := h.entered v hv
  by_cases hk : v.principal.kind = .role
  · rw [Ledger.reaches, hk, holder_of_role hk]
    simp only [h.members _ (hentered.honest hk), List.any_eq_true, Prod.exists, Bool.and_eq_true,
      Bool.or_eq_true, decide_eq_true_eq]
    constructor
    · rintro ⟨r, m, hm, rfl, hc⟩
      exact ⟨m, hm, hc⟩
    · rintro ⟨m, hm, hc⟩
      exact ⟨_, m, hm, rfl, hc⟩
  · have hmember := h.members_holder hv hk
    have hreaches : L.reaches s.backend.identity.groupsOf v.principal u = true ↔
        ∃ g ∈ E.standInsAt s v.principal, g ∈ s.backend.identity.groupsOf u.name := by
      simp only [hC.mem_standIns hk]
      rw [Ledger.reaches]
      cases hk' : v.principal.kind with
      | user => simp
      | group => simp
      | role => exact absurd hk' hk
    rw [hreaches]
    constructor
    · rintro ⟨g, hg, hgu⟩
      have hne : g ≠ "" := fun hg => hC.named u.name u.named (hg ▸ hgu)
      exact ⟨⟨.group, g, hne⟩, (hmember _).mpr ⟨rfl, hg⟩, .inr ⟨rfl, hgu⟩⟩
    · rintro ⟨m, hm, rfl | ⟨-, hmu⟩⟩
      · have := ((hmember m).mp hm).1
        rw [hu] at this
        cases this
      · exact ⟨m.name, ((hmember m).mp hm).2, hmu⟩

/-- The backend allows a user what the ledger covers. -/
theorem verdict_eq (h : Mirrors E L s) (hC : Concord E s) (hu : u.kind = .user)
    (hp : E.resolver.resolve e = .ok path) : s.verdict E.resolver ⟨u, e, a⟩ =
      .ok (L.covers s.backend.identity.groupsOf u e a) := by
  obtain rfl := Resolver.eq_path_of_resolve hp
  obtain ⟨ps, hps, hmem⟩ := Backend.candidates_of_user hu (hC.named u.name u.named)
  have hroles : Backend.rolesFor s.backend u s.store = .ok (s.store.rolesOfAny ps) := by
    rw [Backend.rolesFor, hu]
    dsimp only
    rw [hps]
    rfl
  have hauth : Backend.authorizes s.backend u e.path a s.store =
      .ok (s.store.permits (s.store.rolesOfAny ps) e.path a) := by
    rw [Backend.authorizes, hroles]
    rfl
  rw [Site.verdict_eq_ok_iff.mpr ⟨e.path, hp, hauth⟩, Except.ok.injEq, Bool.eq_iff_iff, permits_iff, Ledger.covers]
  simp only [mem_rolesOfAny, hmem, h.holds, List.any_eq_true, Bool.and_eq_true, Bool.or_eq_true,
    decide_eq_true_eq]
  have hcovers : ∀ v : Privilege, v.entity.path.covers e.path = true ↔
      v.entity = e ∨ e.isBelow v.entity = true := by
    intro v
    rw [Entity.covers_path_iff, Entity.isBelow_iff]
    by_cases hve : v.entity = e
    · simp [hve]
    · simp [hve]
  constructor
  · rintro ⟨n, ⟨m, hm, hn⟩, q, hq, ⟨v, hv, rfl, rfl, rfl⟩ | ⟨v, hv, rfl, rfl, hall⟩⟩
    · exact ⟨v, hv, ⟨(hcovers v).mp hq, .inl rfl⟩, (h.reaches_iff hC hv hu).mpr ⟨m, hn, hm⟩⟩
    · exact ⟨v, hv, ⟨(hcovers v).mp hq, .inr hall.symm⟩, (h.reaches_iff hC hv hu).mpr ⟨m, hn, hm⟩⟩
  · rintro ⟨v, hv, ⟨hq, hact⟩, hr⟩
    obtain ⟨m, hn, hm⟩ := (h.reaches_iff hC hv hu).mp hr
    refine ⟨_, ⟨m, hm, hn⟩, _, (hcovers v).mpr hq, ?_⟩
    exact hact.imp (fun hact => ⟨v, hv, rfl, rfl, hact.symm⟩) fun hall => ⟨v, hv, rfl, rfl, hall.symm⟩

end Mirrors

end Warrant.Engine
