import Warrant.Proofs.Sessions

/-!
# The life of shadow roles

A shadow role is there exactly while its pair holds something: it comes with the first grant, has the
groups that stand for the principal as members from then on, and goes with the last action that is
revoked or with its entity. `Kept` says so beside `Mirrors`, `Kept.record` that every operation that
succeeds keeps it, and `Accounted.shadow_roles` what follows for every reachable world.
-/

namespace Warrant.Engine

open World Procedure RoleStore

variable {τ : Type} {E : Engine} {s t : Site} {L : Ledger} {w : World Site τ}

/-- The backend is open to writes and resolves what the engine does, and no group that is looked up
lacks a name. -/
structure Provided (E : Engine) (s : Site) : Prop where
  readOnly : s.readOnly = false
  named : ∀ I, s.identity = some I → ∀ user, user ≠ "" → "" ∉ I.groupsOf user
  resolves : ∀ e path, E.resolver.resolve e = .ok path →
    ∃ path', s.backend.resolver.resolve e = .ok path'

namespace Provided

theorem named_standIns (h : Provided E s) (p : Principal) : "" ∉ E.standInsAt s p :=
  named_standInsAt h.named p

theorem of_alters {R : RoleStore → RoleStore → Prop} (h : Provided E s) (ha : s.Alters R t) :
    Provided E t := by
  rw [ha.services]
  exact ⟨h.readOnly, h.named, h.resolves⟩

end Provided

/-- The roles mirror the ledger, and every shadow role holds something. -/
structure Kept (E : Engine) (L : Ledger) (s : Site) : Prop where
  provided : Provided E s
  mirrors : Mirrors E L s
  busy : ∀ n, ShadowRole.isReserved n = true → s.store.Has n → ∃ q a, s.store.Holds n q a

namespace Kept

theorem plain (h : Kept E L s) : s.Plain E where
  readOnly := h.provided.readOnly
  named := h.provided.named_standIns
  traceable := h.mirrors.traceable h.provided.resolves
  filled := h.mirrors.filled
  confined := h.mirrors.confined

/-- The shadow role of a pair is there exactly while the pair holds something. -/
theorem has_name_iff (h : Kept E L s) {e : Entity} {p : Principal} {n : String}
    (hname : ShadowRole.name? E.resolver e p = .ok n) :
    s.store.Has n ↔ ∃ a, ⟨p, e, a⟩ ∈ L.grants := by
  constructor
  · intro hhas
    obtain ⟨q, a, hh⟩ := h.busy n (ShadowRole.isReserved_of_name? hname) hhas
    exact ⟨a, ((h.mirrors.holds_name_iff hname q a).mp hh).2⟩
  · rintro ⟨a, hu⟩
    obtain ⟨r, hr, -⟩ := (h.mirrors.holds_name_iff hname e.path a).mpr ⟨rfl, hu⟩
    exact ⟨r, hr⟩

/-- A shadow role that was there before and has lost nothing still holds something. -/
theorem busy_of_holds (h : Kept E L s) {n : String} (hn : ShadowRole.isReserved n = true)
    (hhas : s.store.Has n) (hh : ∀ q a, s.store.Holds n q a → t.store.Holds n q a) :
    ∃ q a, t.store.Holds n q a := by
  obtain ⟨q, a, ha⟩ := h.busy n hn hhas
  exact ⟨q, a, hh q a ha⟩

theorem busy_of_effect (h : Kept E L s) {o : Operation} (hh : o.Honest)
    (ha : s.Alters (Effect E s o) t) {n : String} (hn : ShadowRole.isReserved n = true)
    (hhas : t.store.Has n) : ∃ q a, t.store.Holds n q a := by
  have hopen : ∀ {role : String}, ShadowRole.isReserved role = false → n ≠ role := by
    rintro role hrole rfl
    rw [hn] at hrole
    cases hrole
  cases o with
  | enforce e p actions =>
    have hsame : t.store = s.store := ha.roles
    rw [hsame] at hhas ⊢
    exact h.busy n hn hhas
  | grant e p actions =>
    rcases ha.roles with ⟨-, hsame⟩ | ⟨hne, path, -, hgranted⟩
    · rw [hsame] at hhas ⊢
      exact h.busy n hn hhas
    · rcases (hgranted.roles n).mp hhas with hhas | ⟨-, rfl⟩
      · exact h.busy_of_holds hn hhas fun q a hh => (hgranted.holds n q a).mpr (.inl hh)
      · obtain ⟨a, hact⟩ := List.exists_mem_of_ne_nil _ hne
        exact ⟨path, a, (hgranted.holds _ path a).mpr (.inr ⟨rfl, rfl, hact⟩)⟩
  | revoke e p actions =>
    obtain ⟨path, -, hrevoked⟩ := ha.roles
    by_cases hholder : n = holder path p
    · -- an honest caller names no shadow role, so this one is that of a pair and is collected
      subst hholder
      refine hrevoked.collected (fun hk => ?_) hhas
      rw [holder_of_role hk, hh hk] at hn
      cases hn
    · exact h.busy_of_holds hn (hrevoked.roles n hhas) fun q a hh =>
        (hrevoked.holds n q a).mpr ⟨hh, fun hlost => hholder hlost.1⟩
  | revokeAll e =>
    obtain ⟨-, hcleared⟩ := ha.roles
    refine h.busy_of_holds hn (hcleared.roles n hhas) fun q a hh => ?_
    refine (hcleared.holds n q a).mpr ⟨hh, fun hq => ?_⟩
    obtain ⟨p, hread⟩ := h.mirrors.confined n q a hh hn
    exact hcleared.dropped n ⟨p, by rw [hread, hq]⟩ hhas
  | createRole role =>
    obtain ⟨hrole, hgains⟩ := ha.roles
    have hbefore := ((hgains.roles n).mp hhas).resolve_right (hopen hrole)
    exact h.busy_of_holds hn hbefore fun q a hh => (hgains.holds n q a).mpr (.inl hh)
  | dropRole role =>
    obtain ⟨hrole, hloses⟩ := ha.roles
    exact h.busy_of_holds hn (hloses.roles n hhas) fun q a hh =>
      (hloses.holds n q a).mpr ⟨hh, hopen hrole⟩
  | addMember role p =>
    obtain ⟨-, -, hgains⟩ := ha.roles
    have hbefore := ((hgains.roles n).mp hhas).resolve_right id
    exact h.busy_of_holds hn hbefore fun q a hh => (hgains.holds n q a).mpr (.inl hh)
  | removeMember role p =>
    obtain ⟨-, hloses⟩ := ha.roles
    exact h.busy_of_holds hn (hloses.roles n hhas) fun q a hh => (hloses.holds n q a).mpr ⟨hh, id⟩

theorem record (h : Kept E L s) {o : Operation} (hh : o.Honest) (ha : s.Alters (Effect E s o) t) :
    Kept E (L.record o) t :=
  ⟨h.provided.of_alters ha, h.mirrors.record hh ha, fun _ => h.busy_of_effect hh ha⟩

end Kept

theorem kept_empty (hs : Provided E s) (h : s.store = .empty) : Kept E .empty s := by
  refine ⟨hs, mirrors_empty h, fun n _ hhas => ?_⟩
  rw [h] at hhas
  obtain ⟨r, hr⟩ := hhas
  cases hr

/-! ### Reachable worlds -/

variable [Add τ] [LE τ] [DecidableLE τ]

/-- The worlds that are reached from an empty backend by operations that run one after the other, with
the ledger of those that have succeeded. An operation may succeed or fail; the only failure left out is
that the bound context keeps an event from being recorded, which a context that shares no field with an
event never does. -/
inductive Accounted (E : Engine) : World Site τ → Ledger → Prop
  | new (limits : Cache.Limits τ) (clock : τ) (context : Audit.Context) (site : Site) :
      site.store = .empty → Provided E site → Accounted E (World.new limits clock context site) .empty
  | wait (d : τ) {w : World Site τ} {L : Ledger} : Accounted E w L → Accounted E (w.advance d) L
  | perform (o : Operation) {w : World Site τ} {L : Ledger} : Accounted E w L → o.Honest →
      ¬ Clashed w.log.context (World.run (E.perform o) w).1 →
      Accounted E (World.run (E.perform o) w).2
        (L.enter (.perform o : Aside τ) (World.run (E.perform o) w).1)
  | listRoles (p : Principal) {w : World Site τ} {L : Ledger} : Accounted E w L →
      Accounted E (World.run (Engine.listRoles p) w).2 L
  | listAllRoles {w : World Site τ} {L : Ledger} : Accounted E w L →
      Accounted E (World.run Engine.listAllRoles w).2 L
  | listPrivileges (p : Principal) {w : World Site τ} {L : Ledger} : Accounted E w L →
      Accounted E (World.run (Engine.listPrivileges p) w).2 L

/-- A call that changes no role leaves the site as it is. -/
theorem remote_policy {c : Backend.Call} (hc : ∀ s, c.apply s = .ok s) (w : World Site τ) :
    (World.run (policy c) w).2.remote = w.remote := by
  obtain ⟨log, -, hworld⟩ := w.call_world (.policy c)
  show (w.call (.policy c)).2.remote = w.remote
  rw [hworld]
  show w.remote.after (.policy c) = w.remote
  rw [Site.after, Backend.Call.after, hc]
  split <;> rfl

theorem remote_listRoles (p : Principal) (w : World Site τ) :
    (World.run (listRoles p) w).2.remote = w.remote := by
  rw [listRoles, checkMember]
  split
  · rfl
  · exact remote_policy (c := .listRoles p) (fun _ => rfl) w

theorem Kept.perform (h : Kept E L w.remote) {o : Operation} (hh : o.Honest)
    (hclash : ¬ Clashed w.log.context (World.run (E.perform o) w).1) :
    Kept E (L.enter (.perform o : Aside τ) (World.run (E.perform o) w).1)
      (World.run (E.perform o) w).2.remote := by
  have hend := (ends_perform (τ := τ) h.plain o).of_not_clashed hclash rfl
  cases hrun : World.run (E.perform o) w with
  | mk result v =>
    rw [hrun] at hend
    cases result with
    | ok a => exact h.record hh hend
    | error f =>
      rw [show v.remote = w.remote from hend]
      exact h

namespace Accounted

theorem kept (h : Accounted E w L) : Kept E L w.remote := by
  induction h with
  | new limits clock context site hempty hs => exact kept_empty hs hempty
  | wait d _ ih => exact ih
  | perform o _ hh hclash ih => exact ih.perform hh hclash
  | listRoles p _ ih =>
    rw [remote_listRoles]
    exact ih
  | listAllRoles _ ih =>
    rw [Engine.listAllRoles, remote_policy fun _ => rfl]
    exact ih
  | listPrivileges p _ ih =>
    rw [Engine.listPrivileges, remote_policy fun _ => rfl]
    exact ih

/-- Every role that carries the marker is the shadow role of one pair: it holds something, it holds it
on the path of the entity of the pair, and its members are the groups that stand for the principal. The
shadow role of a pair is there exactly while the pair holds something on the entity, and holds that. -/
theorem shadow_roles (h : Accounted E w L) :
    (∀ n, ShadowRole.isReserved n = true → w.remote.store.Has n →
      ∃ e p, ShadowRole.name? E.resolver e p = .ok n ∧
        (∀ e' p', ShadowRole.name? E.resolver e' p' = .ok n → e' = e ∧ p' = p) ∧
        (∃ q a, w.remote.store.Holds n q a) ∧
        (∀ q a, w.remote.store.Holds n q a → E.resolver.resolve e = .ok q) ∧
        ∀ m, w.remote.store.HasMember n m ↔
          m.kind = .group ∧ m.name ∈ E.standInsAt w.remote p) ∧
    ∀ e p n, ShadowRole.name? E.resolver e p = .ok n →
      (w.remote.store.Has n ↔ ∃ a, ⟨p, e, a⟩ ∈ L.grants) ∧
        ∀ a, w.remote.store.Holds n e.path a ↔ ⟨p, e, a⟩ ∈ L.grants := by
  have hk := h.kept
  have hm := hk.mirrors
  constructor
  · intro n hn hhas
    obtain ⟨q, a, hh⟩ := hk.busy n hn hhas
    obtain ⟨u, hu, hname, rfl, rfl⟩ := hm.shadow hn hh
    obtain ⟨hresolved, hrole, hholder⟩ := holder_of_name? hname
    refine ⟨u.entity, u.principal, hname, fun e' p' hname' => ?_, ⟨_, _, hh⟩, fun q' a' hh' => ?_,
      fun m => ?_⟩
    · exact ShadowRole.name?_injective hname' hname
    · rw [((hm.holds_name_iff hname q' a').mp hh').1]
      exact hresolved
    · rw [← hholder]
      exact hm.members_holder hu hrole m
  · intro e p n hname
    refine ⟨hk.has_name_iff hname, fun a => ?_⟩
    rw [hm.holds_name_iff hname]
    exact and_iff_right rfl

end Accounted

namespace Sample

/-- Ben has been granted to read and to write. -/
def entrusted : World Site Nat :=
  (World.run (team.perform (.grant root ben [.read, .write])) (.new ⟨10, 5⟩ 0 .empty office)).2

/-- Ben may still read. -/
def narrowed : World Site Nat := (World.run (team.perform (.revoke root ben [.write])) entrusted).2

theorem accounted_office : Accounted team (.new ⟨10, 5⟩ (0 : Nat) .empty office) .empty := by
  refine .new _ _ _ office rfl ⟨rfl, fun I hI user hu => ?_, fun _ path h => ⟨path, h⟩⟩
  cases hI
  exact (named_directory hu).2

theorem not_clashed_of_empty {w : World Site Nat} {x : Except Fault Unit}
    (h : w.log.context = .empty) : ¬ Clashed w.log.context x := fun hc =>
  hc.1 (h ▸ Audit.Context.quiet_empty)

theorem accounted_entrusted : ∃ L, Accounted team entrusted L :=
  ⟨_, accounted_office.perform (.grant root ben [.read, .write]) (fun _ => by decide +kernel)
    (not_clashed_of_empty rfl)⟩

/-- The shadow role of Ben on the root is still there, and Ben's group is its member. -/
theorem members_narrowed : narrowed.remote.store.Has ".:instance=cdap:u:ben" ∧
    ∀ m, narrowed.remote.store.HasMember ".:instance=cdap:u:ben" m ↔
      m.kind = .group ∧ m.name ∈ ["staff"] := by
  obtain ⟨_, hentrusted⟩ := accounted_entrusted
  have hnarrowed := hentrusted.perform (.revoke root ben [.write]) (fun _ => by decide +kernel)
    (not_clashed_of_empty (context_run Nat _ _))
  have hname : ShadowRole.name? team.resolver root ben = .ok ".:instance=cdap:u:ben" :=
    toOption_eq_some_iff.mp (by decide +kernel)
  have hhas : narrowed.remote.store.Has ".:instance=cdap:u:ben" :=
    Table.mem_keys_iff.mp (by decide +kernel)
  obtain ⟨e, p, -, honly, -, -, hmembers⟩ := hnarrowed.shadow_roles.1 _ (by decide) hhas
  obtain ⟨rfl, rfl⟩ := honly root ben hname
  have hstand : team.standInsAt narrowed.remote ben = ["staff"] := by decide +kernel
  refine ⟨hhas, fun m => ?_⟩
  rw [← hstand]
  exact hmembers m

end Sample

end Warrant.Engine
