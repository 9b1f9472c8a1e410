import Warrant.Engine.Site
import Warrant.Proofs.Naming

/-!
# What the decisions of the policy backend rest on

A decision rests on two relations: which actions a role holds on exactly which path
(`RoleStore.Holds`), and who is a member of it (`RoleStore.HasMember`). `RoleStore.AgreesOn` says
that two stores agree on both at a path; stores that agree at every path above a given one decide
alike on it (`Backend.authorizes_congr`). A call of the backend changes the relations only at the
paths that it can touch (`Backend.Call.Touches`), as long as every shadow role is confined to the
path that its name tells (`RoleStore.Confined`).
-/

namespace Warrant

namespace Role

variable {r : Role} {path q : Path} {a : Action} {actions : List Action} {p : Principal}

@[simp] theorem heldOn_empty : Role.empty.heldOn path = [] := rfl

@[simp] theorem heldOn_attach : (r.attach p).heldOn path = r.heldOn path := rfl

@[simp] theorem heldOn_detach : (r.detach p).heldOn path = r.heldOn path := rfl

@[simp] theorem members_grant : (r.grant path actions).members = r.members := rfl

@[simp] theorem members_clear : (r.clear path).members = r.members := rfl

theorem mem_attach {m : Principal} : m ∈ (r.attach p).members ↔ m ∈ r.members ∨ m = p := by
  rw [attach]
  dsimp only
  split
  · rename_i h
    exact ⟨.inl, fun hm => hm.elim id fun hm => hm ▸ h⟩
  · simp

theorem mem_detach {m : Principal} : m ∈ (r.detach p).members ↔ m ∈ r.members ∧ m ≠ p := by
  simp [detach]

theorem mem_heldOn_iff : a ∈ r.heldOn q ↔ ∃ held, r.grants.get? q = some held ∧ a ∈ held := by
  rw [heldOn]
  cases r.grants.get? q <;> simp

theorem mem_heldOn_grant :
    a ∈ (r.grant path actions).heldOn q ↔ a ∈ r.heldOn q ∨ (q = path ∧ a ∈ actions) := by
  rw [grant, heldOn]
  dsimp only
  rw [Table.get?_put]
  by_cases hq : q = path
  · subst hq
    simp
  · simp [hq, heldOn]

theorem mem_heldOn_clear : a ∈ (r.clear path).heldOn q ↔ a ∈ r.heldOn q ∧ q ≠ path := by
  rw [clear, heldOn]
  dsimp only
  rw [Table.get?_erase]
  by_cases hq : q = path
  · simp [hq]
  · simp [hq, heldOn]

@[simp] theorem members_revoke : (r.revoke path actions).members = r.members := by
  rw [revoke]
  split
  · rfl
  · split <;> rfl

theorem mem_heldOn_revoke :
    a ∈ (r.revoke path actions).heldOn q ↔ a ∈ r.heldOn q ∧ ¬ (q = path ∧ a ∈ actions) := by
  rw [revoke]
  split
  · rename_i hnone
    constructor
    · intro h
      refine ⟨h, fun ⟨hq, _⟩ => ?_⟩
      rw [heldOn, hq, hnone] at h
      cases h
    · exact And.left
  · rename_i held hheld
    have hrest : ∀ rest : List Action, (held.filter fun b => decide (b ∉ actions)) = rest →
        (a ∈ rest ↔ a ∈ held ∧ a ∉ actions) := by
      rintro rest rfl
      simp
    by_cases hq : q = path
    · subst hq
      have hr : r.heldOn q = held := by rw [heldOn, hheld]; rfl
      split
      · rename_i hnil
        have := hrest [] hnil
        simp [heldOn, Table.get?_erase, hheld] at this ⊢
        exact this
      · rename_i rest hne
        simp [heldOn, Table.get?_put, hheld]
    · split <;> simp [heldOn, Table.get?_erase, Table.get?_put, hq]

end Role

namespace RoleStore

variable {s t : RoleStore} {name n : String} {path q : Path} {a : Action} {p : Principal}

/-- The role of the name holds the action on exactly the path. -/
def Holds (s : RoleStore) (name : String) (path : Path) (a : Action) : Prop :=
  ∃ r, s.roles.get? name = some r ∧ a ∈ r.heldOn path

instance (s : RoleStore) (name : String) (path : Path) (a : Action) :
    Decidable (s.Holds name path a) :=
  match h : s.roles.get? name with
  | none => isFalse fun ⟨r, hr, _⟩ => by rw [h] at hr; cases hr
  | some r => decidable_of_iff (a ∈ r.heldOn path)
      ⟨fun ha => ⟨r, h, ha⟩, fun ⟨r', hr', ha⟩ => by rw [h] at hr'; cases hr'; exact ha⟩

/-- The principal is a member of the role of the name. -/
def HasMember (s : RoleStore) (name : String) (p : Principal) : Prop :=
  ∃ r, s.roles.get? name = some r ∧ p ∈ r.members

theorem permits_role_iff {r : Role} : r.permits path a = true ↔
    ∃ q, q.covers path = true ∧ (a ∈ r.heldOn q ∨ .all ∈ r.heldOn q) := by
  simp only [Role.permits, List.any_eq_true, Prod.exists, Bool.and_eq_true, Bool.or_eq_true,
    decide_eq_true_eq]
  constructor
  · rintro ⟨q, held, hmem, hc, hh⟩
    rw [← Table.get?_eq_some_iff] at hmem
    exact ⟨q, hc, by rwa [Role.heldOn, hmem]⟩
  · rintro ⟨q, hc, hh⟩
    cases hg : r.grants.get? q with
    | none => simp [Role.heldOn, hg] at hh
    | some held =>
      rw [Role.heldOn, hg] at hh
      exact ⟨q, held, Table.get?_eq_some_iff.mp hg, hc, hh⟩

/-- Some of the roles holds the action, or all actions, on a path that covers the given one. -/
theorem permits_iff {names : List String} : s.permits names path a = true ↔
    ∃ n ∈ names, ∃ q, q.covers path = true ∧ (s.Holds n q a ∨ s.Holds n q .all) := by
  simp only [permits, List.any_eq_true, Prod.exists, Bool.and_eq_true, decide_eq_true_eq,
    permits_role_iff]
  constructor
  · rintro ⟨n, r, hmem, hn, q, hc, hh⟩
    have hr := Table.get?_eq_some_iff.mpr hmem
    exact ⟨n, hn, q, hc, hh.imp (⟨r, hr, ·⟩) (⟨r, hr, ·⟩)⟩
  · rintro ⟨n, hn, q, hc, ⟨r, hr, hh⟩ | ⟨r, hr, hh⟩⟩
    · exact ⟨n, r, Table.get?_eq_some_iff.mp hr, hn, q, hc, .inl hh⟩
    · exact ⟨n, r, Table.get?_eq_some_iff.mp hr, hn, q, hc, .inr hh⟩

theorem mem_rolesOfAny {ps : List Principal} :
    n ∈ s.rolesOfAny ps ↔ ∃ p ∈ ps, s.HasMember n p := by
  simp only [rolesOfAny, List.mem_map, List.mem_filter, List.any_eq_true, decide_eq_true_eq,
    Prod.exists, exists_and_right, exists_eq_right]
  constructor
  · rintro ⟨r, hr, p, hp, hps⟩
    exact ⟨p, hps, r, Table.get?_eq_some_iff.mpr hr, hp⟩
  · rintro ⟨p, hps, r, hr, hp⟩
    exact ⟨r, Table.get?_eq_some_iff.mp hr, p, hp, hps⟩

/-- The stores give the same actions on the path to the same roles, and those that have any to the
same members. -/
structure AgreesOn (q : Path) (s t : RoleStore) : Prop where
  holds : ∀ n a, s.Holds n q a ↔ t.Holds n q a
  members : ∀ n a, s.Holds n q a → ∀ p, s.HasMember n p ↔ t.HasMember n p

theorem AgreesOn.refl (q : Path) (s : RoleStore) : AgreesOn q s s :=
  ⟨fun _ _ => .rfl, fun _ _ _ _ => .rfl⟩

/-! ### What each change of the roles does -/

theorem find_eq_ok_iff {r : Role} : s.find name = .ok r ↔ s.roles.get? name = some r := by
  rw [find]
  cases s.roles.get? name <;> simp

theorem get?_create (h : s.create name = .ok t) : s.roles.get? name = none ∧
    ∀ n, t.roles.get? n = if n = name then some .empty else s.roles.get? n := by
  rw [create] at h
  split at h
  · cases h
  · rename_i hc
    cases h
    refine ⟨Table.get?_eq_none_iff.mpr (by simpa [Table.contains] using hc), fun n => ?_⟩
    exact Table.get?_put ..

theorem get?_drop (h : s.drop name = .ok t) (n : String) :
    t.roles.get? n = if n = name then none else s.roles.get? n := by
  rw [drop] at h
  cases hf : s.find name with
  | error f => rw [hf] at h; cases h
  | ok r =>
    rw [hf] at h
    cases h
    exact Table.get?_erase ..

theorem get?_change {f : Role → Role} (h : s.change name f = .ok t) :
    ∃ r, s.roles.get? name = some r ∧
      ∀ n, t.roles.get? n = if n = name then some (f r) else s.roles.get? n := by
  rw [change] at h
  cases hf : s.find name with
  | error f => rw [hf] at h; cases h
  | ok r =>
    rw [hf] at h
    cases h
    exact ⟨r, find_eq_ok_iff.mp hf, fun n => Table.get?_put ..⟩

theorem get?_clear (n : String) :
    (s.clear path).roles.get? n = (s.roles.get? n).map (Role.clear path) :=
  Table.get?_mapValues ..

/-- Only one role differs, and it has no actions on the path. -/
theorem AgreesOn.of_idle (h : ∀ n, n ≠ name → t.roles.get? n = s.roles.get? n)
    (hs : ∀ a, ¬ s.Holds name q a) (ht : ∀ a, ¬ t.Holds name q a) : AgreesOn q s t := by
  constructor
  · intro n a
    by_cases hn : n = name
    · subst hn
      exact ⟨fun hh => absurd hh (hs a), fun hh => absurd hh (ht a)⟩
    · rw [Holds, Holds, h n hn]
  · intro n a hh p
    have hn : n ≠ name := fun hn => hs a (hn ▸ hh)
    rw [HasMember, HasMember, h n hn]

/-- Every role keeps its members and its actions on the path. -/
theorem AgreesOn.of_change (h : ∀ n, t.roles.get? n = s.roles.get? n ∨
      ∃ r r', s.roles.get? n = some r ∧ t.roles.get? n = some r' ∧ r'.members = r.members ∧
        ∀ a, a ∈ r'.heldOn q ↔ a ∈ r.heldOn q) : AgreesOn q s t := by
  constructor
  · intro n a
    rcases h n with h | ⟨r, r', hr, hr', -, hh⟩
    · rw [Holds, Holds, h]
    · simp [Holds, hr, hr', hh]
  · intro n a _ p
    rcases h n with h | ⟨r, r', hr, hr', hm, -⟩
    · rw [HasMember, HasMember, h]
    · simp [HasMember, hr, hr', hm]

/-- A shadow role may hold actions on the path that its name tells only, another role on any. -/
def MayHold (name : String) (path : Path) : Prop :=
  ShadowRole.isReserved name = true → ∃ p, ShadowRole.read? name = some (path, p)

/-- Every shadow role holds actions on the path of its name only. -/
def Confined (s : RoleStore) : Prop := ∀ n q a, s.Holds n q a → MayHold n q

theorem confined_empty : Confined .empty := by
  rintro n q a ⟨r, hr, -⟩
  cases hr

end RoleStore

namespace Backend

open RoleStore

/-- What a call makes of the roles, unless it is refused. -/
def Call.apply : Call → RoleStore → Except Fault RoleStore
  | .createRole role, s => s.create role
  | .dropRole role, s => s.drop role
  | .attach role p, s => s.change role (Role.attach p)
  | .detach role p, s => s.change role (Role.detach p)
  | .grant path role actions, s => s.change role (Role.grant path actions)
  | .revoke path role actions, s => s.change role (Role.revoke path actions)
  | .revokeAllOn path, s => .ok (s.clear path)
  | _, s => .ok s

/-- The call can change who may do what on the path. -/
def Call.Touches : Call → Path → Prop
  | .dropRole role, q | .attach role _, q | .detach role _, q => MayHold role q
  | .grant path _ _, q | .revoke path _ _, q | .revokeAllOn path, q => q = path
  | _, _ => False

/-- The call grants nothing that the role may not hold. -/
def Call.Proper : Call → Prop
  | .grant path role _ => MayHold role path
  | _ => True

variable {c : Call} {s t : RoleStore} {q : Path}

theorem Call.apply_agreesOn (hc : s.Confined) (hq : ¬ c.Touches q) (h : c.apply s = .ok t) :
    AgreesOn q s t := by
  have hidle : ∀ {role : String}, ¬ MayHold role q → ∀ a, ¬ s.Holds role q a :=
    fun hq a hh => hq (hc _ _ _ hh)
  cases c with
  | createRole role =>
    obtain ⟨hnone, hget⟩ := get?_create h
    refine AgreesOn.of_idle (fun n hn => by rw [hget, if_neg hn]) ?_ ?_
    · rintro a ⟨r, hr, -⟩
      rw [hnone] at hr
      cases hr
    · rintro a ⟨r, hr, ha⟩
      rw [hget, if_pos rfl] at hr
      cases hr
      cases ha
  | dropRole role =>
    have hget := get?_drop h
    refine AgreesOn.of_idle (fun n hn => by rw [hget, if_neg hn]) (hidle hq) ?_
    rintro a ⟨r, hr, -⟩
    rw [hget, if_pos rfl] at hr
    cases hr
  | attach role p | detach role p =>
    obtain ⟨r, hr, hget⟩ := get?_change h
    refine AgreesOn.of_idle (fun n hn => by rw [hget, if_neg hn]) (hidle hq) ?_
    rintro a ⟨r', hr', ha⟩
    rw [hget, if_pos rfl] at hr'
    cases hr'
    exact hidle hq a ⟨r, hr, ha⟩
  | grant path role actions =>
    obtain ⟨r, hr, hget⟩ := get?_change h
    refine AgreesOn.of_change fun n => ?_
    by_cases hn : n = role
    · subst hn
      refine .inr ⟨r, r.grant path actions, hr, by rw [hget, if_pos rfl], rfl, fun a => ?_⟩
      rw [Role.mem_heldOn_grant]
      exact ⟨fun h => h.elim id fun h => absurd h.1 hq, .inl⟩
    · exact .inl (by rw [hget, if_neg hn])
  | revoke path role actions =>
    obtain ⟨r, hr, hget⟩ := get?_change h
    refine AgreesOn.of_change fun n => ?_
    by_cases hn : n = role
    · subst hn
      refine .inr ⟨r, r.revoke path actions, hr, by rw [hget, if_pos rfl], Role.members_revoke,
        fun a => ?_⟩
      rw [Role.mem_heldOn_revoke]
      exact ⟨And.left, fun h => ⟨h, fun h => hq h.1⟩⟩
    · exact .inl (by rw [hget, if_neg hn])
  | revokeAllOn path =>
    obtain rfl : s.clear path = t := Except.ok.inj h
    refine AgreesOn.of_change fun n => ?_
    rw [get?_clear]
    cases hr : s.roles.get? n with
    | none => exact .inl rfl
    | some r =>
      refine .inr ⟨r, _, rfl, rfl, rfl, fun a => ?_⟩
      rw [Role.mem_heldOn_clear]
      exact ⟨And.left, fun h => ⟨h, hq⟩⟩
  | authorize | listPrivileges | listRoles | listAllRoles =>
    obtain rfl : s = t := Except.ok.inj h
    exact AgreesOn.refl q s

/-- What a role holds after a call it held before, or the call has granted it. -/
theorem Call.holds_of_apply (h : c.apply s = .ok t) {n : String} {a : Action}
    (hh : t.Holds n q a) : s.Holds n q a ∨ ∃ actions, c = .grant q n actions := by
  obtain ⟨r', hr', ha⟩ := hh
  cases c with
  | createRole role =>
    rw [(get?_create h).2] at hr'
    split at hr'
    · cases hr'; cases ha
    · exact .inl ⟨r', hr', ha⟩
  | dropRole role =>
    rw [get?_drop h] at hr'
    split at hr'
    · cases hr'
    · exact .inl ⟨r', hr', ha⟩
  | attach role p | detach role p =>
    obtain ⟨r, hr, hget⟩ := get?_change h
    rw [hget] at hr'
    split at hr'
    · rename_i hn; cases hr'; exact .inl ⟨r, hn ▸ hr, ha⟩
    · exact .inl ⟨r', hr', ha⟩
  | grant path role actions =>
    obtain ⟨r, hr, hget⟩ := get?_change h
    rw [hget] at hr'
    split at hr'
    · rename_i hn
      cases hr'
      subst hn
      rcases Role.mem_heldOn_grant.mp ha with ha | ⟨rfl, -⟩
      · exact .inl ⟨r, hr, ha⟩
      · exact .inr ⟨actions, rfl⟩
    · exact .inl ⟨r', hr', ha⟩
  | revoke path role actions =>
    obtain ⟨r, hr, hget⟩ := get?_change h
    rw [hget] at hr'
    split at hr'
    · rename_i hn
      cases hr'
      exact .inl ⟨r, hn ▸ hr, (Role.mem_heldOn_revoke.mp ha).1⟩
    · exact .inl ⟨r', hr', ha⟩
  | revokeAllOn path =>
    obtain rfl : s.clear path = t := Except.ok.inj h
    rw [get?_clear, Option.map_eq_some_iff] at hr'
    obtain ⟨r, hr, rfl⟩ := hr'
    exact .inl ⟨r, hr, (Role.mem_heldOn_clear.mp ha).1⟩
  | authorize | listPrivileges | listRoles | listAllRoles =>
    obtain rfl : s = t := Except.ok.inj h
    exact .inl ⟨r', hr', ha⟩

theorem Call.apply_confined (hc : s.Confined) (hp : c.Proper) (h : c.apply s = .ok t) :
    t.Confined := by
  intro n q a hh
  rcases c.holds_of_apply h hh with hh | ⟨actions, rfl⟩
  · exact hc n q a hh
  · exact hp

/-! ### Decisions -/

variable {setup : Setup} {p : Principal} {path : Path} {a : Action}

/-- The principal acts in the role. -/
def ActsIn (setup : Setup) (p : Principal) (s : RoleStore) (name : String) : Prop :=
  match p.kind with
  | .role => name = p.name
  | _ => ∃ ps, candidates setup p = .ok ps ∧ ∃ m ∈ ps, s.HasMember name m

/-- A decision is refused whatever the roles are, or it is always made: in favour of the principal
exactly if one that it acts in holds the action on some path that covers the given one. -/
theorem authorizes_cases (setup : Setup) (p : Principal) (path : Path) (a : Action) :
    (∃ f, ∀ s, authorizes setup p path a s = .error f) ∨
      ∀ s, ∃ b, authorizes setup p path a s = .ok b ∧ (b = true ↔ ∃ n q, ActsIn setup p s n ∧
        q.covers path = true ∧ (s.Holds n q a ∨ s.Holds n q .all)) := by
  unfold authorizes rolesFor ActsIn
  cases hk : p.kind with
  | role =>
    refine .inr fun s => ⟨_, rfl, ?_⟩
    have hkey : ∀ q a, s.Holds p.name q a → s.roles.contains p.name = true := by
      rintro q a ⟨r, hr, -⟩
      simpa [Table.contains] using Table.mem_keys_iff.mpr ⟨r, hr⟩
    rw [permits_iff]
    constructor
    · rintro ⟨n, hn, q, hc, hh⟩
      refine ⟨n, q, ?_, hc, hh⟩
      split at hn
      · exact List.mem_singleton.mp hn
      · cases hn
    · rintro ⟨n, q, rfl, hc, hh⟩
      refine ⟨p.name, ?_, q, hc, hh⟩
      rw [if_pos (hh.elim (hkey q a) (hkey q .all))]
      exact List.mem_singleton_self _
  | user | group =>
    cases hps : candidates setup p with
    | error f => exact .inl ⟨f, fun s => rfl⟩
    | ok ps =>
      refine .inr fun s => ⟨_, rfl, ?_⟩
      rw [permits_iff]
      simp only [mem_rolesOfAny, Except.ok.injEq, exists_eq_left']
      constructor
      · rintro ⟨n, hn, q, hc, hh⟩
        exact ⟨n, q, hn, hc, hh⟩
      · rintro ⟨n, q, hn, hc, hh⟩
        exact ⟨n, hn, q, hc, hh⟩

/-- Stores that agree on every path that covers the given one decide alike. -/
theorem authorizes_congr (h : ∀ q, q.covers path = true → AgreesOn q s t) :
    authorizes setup p path a s = authorizes setup p path a t := by
  rcases authorizes_cases setup p path a with ⟨f, hf⟩ | hall
  · rw [hf, hf]
  · obtain ⟨b, hb, hb'⟩ := hall s
    obtain ⟨d, hd, hd'⟩ := hall t
    rw [hb, hd]
    refine congrArg Except.ok (Bool.eq_iff_iff.mpr ?_)
    rw [hb', hd']
    have hacts : ∀ {n q a}, q.covers path = true → s.Holds n q a →
        (ActsIn setup p s n ↔ ActsIn setup p t n) := by
      intro n q a hc hh
      unfold ActsIn
      split
      · rfl
      · simp only [(h q hc).members n a hh]
    constructor
    · rintro ⟨n, q, hn, hc, hh⟩
      refine ⟨n, q, ?_, hc, hh.imp ((h q hc).holds n a).mp ((h q hc).holds n .all).mp⟩
      exact hh.elim (fun hh => (hacts hc hh).mp hn) (fun hh => (hacts hc hh).mp hn)
    · rintro ⟨n, q, hn, hc, hh⟩
      replace hh := hh.imp ((h q hc).holds n a).mpr ((h q hc).holds n .all).mpr
      refine ⟨n, q, ?_, hc, hh⟩
      exact hh.elim (fun hh => (hacts hc hh).mpr hn) (fun hh => (hacts hc hh).mpr hn)

end Backend

end Warrant
