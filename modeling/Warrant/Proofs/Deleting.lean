import Warrant.Proofs.Errands

/-!
# Deleting an entity

What revoking everything on an entity does when it runs alone, whatever the roles are before. The
roles that go are those that the entity owns (`ShadowRole.ownerOf`), whoever wrote their names; every
other role keeps its members and all that it holds but on the path of the entity.
-/

namespace Warrant

namespace RoleStore

variable {r : Resolver} {e : Entity} {s : RoleStore} {n : String}

theorem has_without : (s.without r e).Has n ↔ s.Has n ∧ ShadowRole.owner? r n ≠ some e := by
  rw [Has, Has, get?_without]
  split
  · rename_i howner
    refine iff_of_false ?_ fun h => h.2 howner
    rintro ⟨_, ⟨⟩⟩
  · rename_i howner
    rw [and_iff_left howner]
    cases s.roles.get? n <;> simp

theorem names_without (r : Resolver) (e : Entity) (s : RoleStore) : (s.without r e).names =
    s.names.filter fun n => decide (ShadowRole.owner? r n ≠ some e) := by
  rw [names, without, Table.keys_filter _ fun n => decide (ShadowRole.owner? r n ≠ some e), clear,
    Table.keys_mapValues]
  rfl

/-- What brings the roles down by a number drops that many of them. -/
theorem eq_countP_gone {k : Nat} (h : k + (s.without r e).roles.size = s.roles.size) :
    k = s.names.countP fun n => decide (n ∉ (s.without r e).names) := by
  have hgone : (s.names.countP fun n => decide (n ∉ (s.without r e).names)) =
      s.names.countP fun n => decide (ShadowRole.owner? r n = some e) := by
    refine List.countP_congr fun n hn => ?_
    simp [names_without, hn]
  have hsplit := List.length_eq_countP_add_countP (l := s.names)
    fun n => decide (ShadowRole.owner? r n = some e)
  have hleft : (s.without r e).roles.size =
      s.names.countP fun n => decide (¬ decide (ShadowRole.owner? r n = some e) = true) := by
    rw [← Table.length_keys]
    show (s.without r e).names.length = _
    rw [names_without, List.countP_eq_length_filter]
    simp
  have hsize : s.names.length = s.roles.size := Table.length_keys _
  omega

end RoleStore

namespace Engine

open World

section Runs

variable {τ : Type} [Add τ] [LE τ] [DecidableLE τ] {E : Engine} {e : Entity} {path : Path}

/-- Revoking everything on an entity leaves the store without it, and drops just the decisions on it
and below it. -/
theorem run_revokeAll {w : World Site τ} (hs : w.remote.readOnly = false)
    (hq : w.log.context.Quiet) (hp : E.resolver.resolve e = .ok path) : ∃ dropped v,
      World.run (E.perform (.revokeAll e)) w = (.ok (), v) ∧
      dropped + v.remote.store.roles.size = w.remote.store.roles.size ∧
      v.remote.store = w.remote.store.without E.resolver e ∧
      v.cache = (w.cache.forget (.subtree e)).2 ∧
      v.log.events.getLast? = some (.entityRevoked e.text dropped) := by
  obtain ⟨dropped, v, hrun, ⟨hsize, hstore⟩, hcache, hlast⟩ := run_sweeping
    (fun f => .entityRevokeFailed e.text f) (fun dropped : Nat => .entityRevoked e.text dropped)
    (succeeds_revokeAllOn hs hp) (asks_revokeAllOn hp) hq
  rw [← revokeAll_of_resolve hp] at hrun
  exact ⟨dropped, v, hrun, hsize, congrArg Site.store hstore, hcache, hlast⟩

/-- Revoking everything on an entity succeeds, whatever the roles are. Then nothing is held on its path;
the roles that are gone are those that it owned, and as many of them are reported; the others are as
they were, but for that path; and of the decisions those on the entity and below it are gone. -/
theorem revokeAll_exact {w : World Site τ} (hs : w.remote.readOnly = false)
    (hq : w.log.context.Quiet) (hp : E.resolver.resolve e = .ok path) : ∃ v,
      World.run (E.perform (.revokeAll e)) w = (.ok (), v) ∧
      (∀ n a, ¬ v.remote.store.Holds n path a) ∧
      (∀ n, w.remote.store.Has n ∧ ¬ v.remote.store.Has n ↔
        w.remote.store.Has n ∧ ShadowRole.ownerOf E.resolver n = .ok (some e)) ∧
      (∀ n, v.remote.store.Has n → w.remote.store.Has n) ∧
      (∀ n r r', w.remote.store.roles.get? n = some r → v.remote.store.roles.get? n = some r' →
        r'.members = r.members ∧ ∀ q, q ≠ path → r'.grants.get? q = r.grants.get? q) ∧
      (∀ k slot, v.Holds k slot ↔ w.Holds k slot ∧ k.entity ≠ e ∧ k.entity.isBelow e = false) ∧
      v.log.events.getLast? = some (.entityRevoked e.text
        (w.remote.store.names.countP fun n => decide (n ∉ v.remote.store.names))) := by
  obtain ⟨dropped, v, hrun, hsize, hstore, hcache, hlast⟩ := run_revokeAll hs hq hp
  have hhas : ∀ n, v.remote.store.Has n ↔
      w.remote.store.Has n ∧ ShadowRole.owner? E.resolver n ≠ some e := fun n => by
    rw [hstore, RoleStore.has_without]
  have hrole : ∀ n r', v.remote.store.roles.get? n = some r' →
      ∃ r, w.remote.store.roles.get? n = some r ∧ r' = r.clear path := by
    intro n r' hr'
    rw [hstore, RoleStore.get?_without, ← Resolver.eq_path_of_resolve hp] at hr'
    split at hr'
    · cases hr'
    · obtain ⟨r, hr, rfl⟩ := Option.map_eq_some_iff.mp hr'
      exact ⟨r, hr, rfl⟩
  refine ⟨v, hrun, ?_, fun n => ?_, fun n hn => ((hhas n).mp hn).1, ?_, fun k slot => ?_, ?_⟩
  · rintro n a ⟨r', hr', ha⟩
    obtain ⟨r, -, rfl⟩ := hrole n r' hr'
    exact (Role.mem_heldOn_clear.mp ha).2 rfl
  · rw [ShadowRole.ownerOf_eq, Except.ok.injEq, hhas]
    exact and_congr_right fun hn => by rw [and_iff_right hn, Classical.not_not]
  · intro n r r' hr hr'
    obtain ⟨r₀, hr₀, rfl⟩ := hrole n r' hr'
    obtain rfl : r₀ = r := Option.some.inj (hr₀.symm.trans hr)
    exact ⟨rfl, fun q hq => (Table.get?_erase ..).trans (if_neg hq)⟩
  · rw [World.Holds, hcache, Cache.get?_forget]
    refine and_congr_right fun _ => ?_
    simp [Cache.Scope.covers]
  · rw [hstore] at hsize
    rw [hlast, hstore, ← RoleStore.eq_countP_gone hsize]

end Runs

namespace Sample

/-- An engine that serves one instance only. -/
def housed : Engine := { engine with resolver := ⟨some "cdap"⟩ }

/-- Ada's role on the namespace, one on the instance above it, one of another instance, and one that has
the marker and is no shadow role. -/
def assorted : RoleStore := ⟨.ofList
  [(".:instance=cdap/namespace=lab:u:ada",
      ⟨[⟨.group, "ada", ada_named⟩], .ofList [(lab.path, [.read]), (root.path, [.read])]⟩),
    (".:instance=cdap:u:ada", ⟨[⟨.group, "ada", ada_named⟩], .ofList [(root.path, [.read])]⟩),
    (".:instance=other/namespace=lab:u:ada", ⟨[], .ofList [(lab.path, [.write])]⟩),
    (".:instance=cdap/namespace=lab:r:ada", ⟨[], .empty⟩)]⟩

def assembled : World Site Nat := { denied with remote := { site with store := assorted } }

/-- One of the four roles goes. -/
theorem lab_deleted : ∃ v, World.run (housed.perform (.revokeAll lab)) assembled = (.ok (), v) ∧
    (∀ n a, ¬ v.remote.store.Holds n lab.path a) ∧
    ¬ v.remote.store.Has ".:instance=cdap/namespace=lab:u:ada" ∧
    v.remote.store.Has ".:instance=cdap:u:ada" ∧
    v.remote.store.Has ".:instance=other/namespace=lab:u:ada" ∧
    v.remote.store.Has ".:instance=cdap/namespace=lab:r:ada" ∧
    ∀ k slot, v.Holds k slot ↔ assembled.Holds k slot ∧ k.entity ≠ lab ∧ k.entity.isBelow lab = false := by
  have hp : housed.resolver.resolve lab = .ok lab.path := toOption_eq_some_iff.mp (by decide +kernel)
  obtain ⟨v, hrun, hidle, hgone, -, -, hcache, -⟩ :=
    revokeAll_exact (w := assembled) rfl Audit.Context.quiet_empty hp
  have hthere : ∀ n, n ∈ assorted.names → assorted.Has n := fun n hn => Table.mem_keys_iff.mp hn
  have hstays : ∀ n, n ∈ assorted.names →
      (ShadowRole.ownerOf housed.resolver n).toOption ≠ some (some lab) → v.remote.store.Has n := by
    intro n hn howner
    refine Classical.byContradiction fun hnot => howner ?_
    exact toOption_eq_some_iff.mpr ((hgone n).mp ⟨hthere n hn, hnot⟩).2
  refine ⟨v, hrun, hidle, ?_, hstays _ (by decide +kernel) (by decide +kernel),
    hstays _ (by decide +kernel) (by decide +kernel), hstays _ (by decide +kernel) (by decide +kernel),
    hcache⟩
  refine ((hgone _).mpr ⟨hthere _ (by decide +kernel), ?_⟩).2
  exact toOption_eq_some_iff.mp (by decide +kernel)

end Sample

end Engine

end Warrant
