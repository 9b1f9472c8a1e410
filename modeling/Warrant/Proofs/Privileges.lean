import Warrant.Proofs.Changes
import Warrant.Proofs.Paths

/-!
# What is listed for a principal

The privileges of a principal are listed role by role and path by path. That fails only on a path that
leads back to no entity (`exists_privileges`); what is listed is what the roles hold
(`mem_privileges_of_rolesFor`).
-/

namespace Warrant.Backend

open RoleStore

variable {setup : Setup} {p : Principal} {s : RoleStore} {names : List String}

theorem exists_privilegesOf {r : Role} (p : Principal)
    (h : ∀ q ∈ r.grants.keys, ∃ e, setup.resolver.entityOf? q = .ok e) :
    ∃ ps, privilegesOf setup p r = .ok ps := by
  obtain ⟨each, heach, -⟩ := exists_mapM (l := r.grants.entries)
    (g := fun entry => do
      let e ← setup.resolver.entityOf? entry.1
      return entry.2.map fun a => (⟨p, e, a⟩ : Privilege)) <| by
    rintro ⟨q, held⟩ hmem
    obtain ⟨e, he⟩ := h q (List.mem_map.mpr ⟨_, hmem, rfl⟩)
    exact ⟨_, by dsimp only; rw [he]; rfl⟩
  refine ⟨each.flatten, ?_⟩
  rw [privilegesOf]
  show (List.mapM (fun entry => _) r.grants.entries >>= _) = _
  rw [heach]
  rfl

theorem mem_privilegesOf {r : Role} {ps : List Privilege} (h : privilegesOf setup p r = .ok ps)
    (v : Privilege) : v ∈ ps ↔ v.principal = p ∧ ∃ q, setup.resolver.entityOf? q = .ok v.entity ∧
      v.action ∈ r.heldOn q := by
  obtain ⟨each, heach, h⟩ := bind_eq_ok_iff.mp h
  obtain rfl := Except.ok.inj h
  obtain ⟨hto, hfrom⟩ := mapM_eq_ok heach
  rw [List.mem_flatten]
  constructor
  · rintro ⟨vs, hvs, hv⟩
    obtain ⟨⟨q, held⟩, hmem, hq⟩ := hfrom vs hvs
    obtain ⟨e, he, hq⟩ := bind_eq_ok_iff.mp hq
    obtain rfl := Except.ok.inj hq
    obtain ⟨a, ha, rfl⟩ := List.mem_map.mp hv
    exact ⟨rfl, q, he, Role.mem_heldOn_iff.mpr ⟨held, Table.get?_eq_some_iff.mpr hmem, ha⟩⟩
  · rintro ⟨rfl, q, he, ha⟩
    obtain ⟨held, hheld, ha⟩ := Role.mem_heldOn_iff.mp ha
    obtain ⟨vs, hvs, hq⟩ := hto (q, held) (Table.get?_eq_some_iff.mp hheld)
    obtain ⟨e, he', hq⟩ := bind_eq_ok_iff.mp hq
    obtain rfl := Except.ok.inj hq
    obtain rfl : v.entity = e := Except.ok.inj (he.symm.trans he')
    exact ⟨_, hvs, List.mem_map.mpr ⟨v.action, ha, rfl⟩⟩

/-- A listing fails only on a path of one of the roles that leads back to no entity. -/
theorem exists_privileges (hnames : rolesFor setup p s = .ok names)
    (h : ∀ n ∈ names, ∀ r, s.roles.get? n = some r →
      ∀ q ∈ r.grants.keys, ∃ e, setup.resolver.entityOf? q = .ok e) :
    ∃ ps, privileges setup p s = .ok ps := by
  obtain ⟨each, heach, -⟩ := exists_mapM (g := fun entry => privilegesOf setup p entry.2)
    (l := s.roles.entries.filter fun entry => decide (entry.1 ∈ names)) <| by
    rintro ⟨n, r⟩ hmem
    obtain ⟨hmem, hn⟩ := List.mem_filter.mp hmem
    exact exists_privilegesOf p (h n (of_decide_eq_true hn) r (Table.get?_eq_some_iff.mpr hmem))
  refine ⟨each.flatten.eraseDups, ?_⟩
  rw [privileges, hnames]
  show (List.mapM _ _ >>= _ : Except Fault _) = _
  rw [heach]
  rfl

/-- What is listed is what the roles hold. -/
theorem mem_privileges_of_rolesFor (hnames : rolesFor setup p s = .ok names) {ps : List Privilege}
    (h : privileges setup p s = .ok ps) (v : Privilege) : v ∈ ps ↔ v.principal = p ∧
      ∃ n ∈ names, ∃ q, setup.resolver.entityOf? q = .ok v.entity ∧ s.Holds n q v.action := by
  rw [privileges, hnames] at h
  change (List.mapM _ _ >>= _ : Except Fault _) = _ at h
  obtain ⟨each, heach, h⟩ := bind_eq_ok_iff.mp h
  obtain rfl := Except.ok.inj h
  obtain ⟨hto, hfrom⟩ := mapM_eq_ok heach
  rw [List.mem_eraseDups, List.mem_flatten]
  constructor
  · rintro ⟨vs, hvs, hv⟩
    obtain ⟨⟨n, r⟩, he, hr⟩ := hfrom vs hvs
    obtain ⟨he, hn⟩ := List.mem_filter.mp he
    obtain ⟨hp, q, hq, ha⟩ := (mem_privilegesOf hr v).mp hv
    exact ⟨hp, n, of_decide_eq_true hn, q, hq, r, Table.get?_eq_some_iff.mpr he, ha⟩
  · rintro ⟨hp, n, hn, q, hq, r, hr, ha⟩
    have he : (n, r) ∈ s.roles.entries.filter fun entry => decide (entry.1 ∈ names) :=
      List.mem_filter.mpr ⟨Table.get?_eq_some_iff.mp hr, decide_eq_true hn⟩
    obtain ⟨vs, hvs, hr⟩ := hto (n, r) he
    exact ⟨vs, hvs, (mem_privilegesOf hr v).mpr ⟨hp, q, hq, ha⟩⟩

/-- What a role holds can be listed if all its paths lead back to entities, and the list is empty
exactly if the role holds nothing. -/
theorem privileges_of_role (setup : Setup) (hp : p.kind = .role) (hf : s.Filled)
    (ht : ∀ q a, s.Holds p.name q a → ∃ e, setup.resolver.entityOf? q = .ok e) :
    ∃ ps, privileges setup p s = .ok ps ∧ (ps = [] ↔ ∀ q a, ¬ s.Holds p.name q a) := by
  have hroles : rolesFor setup p s =
      .ok (if s.roles.contains p.name then [p.name] else []) := by
    rw [rolesFor, hp]
    rfl
  have hnames : ∀ n, n ∈ (if s.roles.contains p.name then [p.name] else []) ↔
      n = p.name ∧ s.Has p.name := by
    intro n
    have hkey : s.roles.contains p.name = true ↔ s.Has p.name := by
      rw [Table.contains, decide_eq_true_eq]
      exact Table.mem_keys_iff
    split
    · rename_i hc
      rw [List.mem_singleton, and_iff_left (hkey.mp hc)]
    · rename_i hc
      exact iff_of_false List.not_mem_nil fun h => hc (hkey.mpr h.2)
  obtain ⟨ps, hps⟩ := exists_privileges hroles fun n hn r hr q hq => by
    obtain ⟨rfl, -⟩ := (hnames n).mp hn
    obtain ⟨held, hheld⟩ := Table.mem_keys_iff.mp hq
    obtain ⟨a, ha⟩ := List.exists_mem_of_ne_nil _ (hf _ r hr q held hheld)
    exact ht q a ⟨r, hr, Role.mem_heldOn_iff.mpr ⟨held, hheld, ha⟩⟩
  have hmem := mem_privileges_of_rolesFor hroles hps
  refine ⟨ps, hps, ?_⟩
  rw [List.eq_nil_iff_forall_not_mem]
  constructor
  · intro hnil q a hh
    obtain ⟨e, he⟩ := ht q a hh
    have hn : p.name ∈ (if s.roles.contains p.name then [p.name] else []) :=
      (hnames _).mpr ⟨rfl, hh.elim fun r hr => ⟨r, hr.1⟩⟩
    exact hnil ⟨p, e, a⟩ ((hmem _).mpr ⟨rfl, p.name, hn, q, he, hh⟩)
  · intro hnone v hv
    obtain ⟨-, n, hn, q, -, hh⟩ := (hmem v).mp hv
    obtain ⟨rfl, -⟩ := (hnames n).mp hn
    exact hnone q v.action hh

/-- The memberships of a user, and of its groups if all of them have names, count for the user. -/
theorem candidates_of_user (hp : p.kind = .user) (hn : "" ∉ setup.identity.groupsOf p.name) :
    ∃ ps, candidates setup p = .ok ps ∧
      ∀ m, m ∈ ps ↔ m = p ∨ (m.kind = .group ∧ m.name ∈ setup.identity.groupsOf p.name) := by
  have hgroup : ∀ name ∈ setup.identity.groupsOf p.name, ∃ h : name ≠ "",
      Principal.group? name = .ok ⟨.group, name, h⟩ := by
    intro name hname
    have h : name ≠ "" := fun h => hn (h ▸ hname)
    exact ⟨h, by rw [Principal.group?, Principal.make?, dif_pos h]⟩
  obtain ⟨groups, hgroups, hto, hfrom⟩ := exists_mapM fun name hname =>
    (hgroup name hname).elim fun h hg => ⟨_, hg⟩
  refine ⟨p :: groups, by rw [candidates, hp]; dsimp only; rw [hgroups]; rfl, fun m => ?_⟩
  rw [List.mem_cons]
  refine or_congr_right ⟨fun hm => ?_, fun h => ?_⟩
  · obtain ⟨name, hname, hg⟩ := hfrom m hm
    obtain ⟨h, hg'⟩ := hgroup name hname
    obtain rfl := Except.ok.inj (hg'.symm.trans hg)
    exact ⟨rfl, hname⟩
  · obtain ⟨hk, hm⟩ := h
    obtain ⟨q, hq, hg⟩ := hto m.name hm
    obtain ⟨h, hg'⟩ := hgroup m.name hm
    obtain rfl := Except.ok.inj (hg'.symm.trans hg)
    obtain ⟨kind, name, named⟩ := m
    obtain rfl : kind = .group := hk
    exact hq

end Warrant.Backend
