import Warrant.Proofs.Subtrees

/-!
# Listing and deciding

The policy backend reads its grants in two ways. To decide, it compares their paths with the one that
is asked for; to list the privileges of a principal, it leads their paths back to entities. As long as
all of them lead back, a principal is permitted just what is listed for it, on the listed entities and
below.
-/

namespace Warrant.Backend

open RoleStore Audit

variable {setup : Setup} {p : Principal} {x : Logged RoleStore}

/-- Every path that a role has an entry for is that of an entity. -/
def Traced (r : Resolver) (s : RoleStore) : Prop :=
  ∀ n role, s.roles.get? n = some role → ∀ q ∈ role.grants.keys, ∃ e, r.resolve e = .ok q

theorem traced_iff {r : Resolver} {s : RoleStore} : Traced r s ↔
    ∀ entry ∈ s.roles.entries, ∀ q ∈ entry.2.grants.keys, (r.entityOf? q).isOk = true := by
  have hback : ∀ q, (∃ e, r.resolve e = .ok q) ↔ (r.entityOf? q).isOk = true := by
    intro q
    simp only [Resolver.resolve_iff_entityOf?]
    cases r.entityOf? q with
    | ok e => exact iff_of_true ⟨e, rfl⟩ rfl
    | error f => exact iff_of_false nofun Bool.false_ne_true
  constructor
  · exact fun h entry hentry q hq =>
      (hback q).mp (h entry.1 entry.2 (Table.get?_eq_some_iff.mpr hentry) q hq)
  · exact fun h n role hrole q hq => (hback q).mpr (h (n, role) (Table.get?_eq_some_iff.mp hrole) q hq)

instance (r : Resolver) (s : RoleStore) : Decidable (Traced r s) := decidable_of_iff _ traced_iff.symm

/-- A principal may perform an action on an entity exactly if the action, or the one that stands for
all, is listed for it on the entity or on one above it. -/
theorem listing_agrees (hnamed : setup.Named) (htraced : Traced setup.resolver x.state)
    (hquiet : x.log.context.Quiet) (p : Principal) : ∃ listed,
      serve setup (.listPrivileges p) x = (.ok listed, x) ∧
      ∀ e path a, setup.resolver.resolve e = .ok path → ∃ b,
        (serve setup (.authorize p path a) x).1 = .ok (some b) ∧
        (b = true ↔ ∃ v ∈ listed, v.principal = p ∧
          (v.entity = e ∨ e.climbsTo v.entity = true) ∧ (v.action = a ∨ v.action = .all)) := by
  obtain ⟨names, hnames, -⟩ := rolesFor_of_named hnamed p x.state
  have htrace : ∀ n r, x.state.roles.get? n = some r →
      ∀ q ∈ r.grants.keys, ∃ e, setup.resolver.entityOf? q = .ok e := fun n r hr q hq =>
    (htraced n r hr q hq).imp fun e => Resolver.entityOf?_of_resolve
  obtain ⟨listed, hlisted⟩ := exists_privileges hnames fun n _ => htrace n
  have hmem := mem_privileges hnamed hlisted
  refine ⟨listed, Prod.ext hlisted rfl, fun e path a he => ?_⟩
  obtain ⟨b, hb, hiff⟩ := authorizes_of_named hnamed p path a x.state
  have hanswer : (serve setup (.authorize p path a) x).1 = .ok (some b) := by
    rw [(settles_serve setup (.authorize p path a) x).quiet fun event _ => hquiet event, Call.answer, hb]
    rfl
  -- a path covers that of the entity if it leads back to the entity or to one above it
  have hcovers : ∀ {q f}, setup.resolver.entityOf? q = .ok f →
      (q.covers path = true ↔ f = e ∨ e.climbsTo f = true) := fun hf => by
    rw [Resolver.eq_path_of_resolve (Resolver.resolve_of_entityOf? hf),
      Resolver.eq_path_of_resolve he, Entity.path_covers_iff]
  refine ⟨b, hanswer, hiff.trans ⟨?_, ?_⟩⟩
  · rintro ⟨n, hn, q, a', hheld, hq, ha⟩
    obtain ⟨r, hr, hin⟩ := id hheld
    obtain ⟨held, hheldOn, -⟩ := Role.mem_heldOn_iff.mp hin
    obtain ⟨f, hf⟩ := htrace n r hr q (Table.mem_keys_iff.mpr ⟨held, hheldOn⟩)
    exact ⟨⟨p, f, a'⟩, (hmem _).mpr ⟨rfl, n, hn, q, hf, hheld⟩, rfl, (hcovers hf).mp hq, ha⟩
  · rintro ⟨v, hv, -, hbelow, ha⟩
    obtain ⟨-, n, hn, q, hf, hheld⟩ := (hmem v).mp hv
    exact ⟨n, hn, q, v.action, hheld, (hcovers hf).mpr hbelow, ha⟩

namespace Sample

open Engine.Sample (lab)

/-- Ada may read in the namespace, because of what is listed for her on the instance above it. -/
theorem listed_above_lab : service.Named ∧ Traced service.resolver reached.state ∧ ∃ listed,
    serve service (.listPrivileges ada) reached = (.ok listed, reached) ∧
    ∃ v ∈ listed, v.principal = ada ∧ (v.entity = lab ∨ lab.climbsTo v.entity = true) ∧
      (v.action = .read ∨ v.action = .all) := by
  have htraced : Traced service.resolver reached.state := by decide +kernel
  obtain ⟨listed, hlisted, hagrees⟩ := listing_agrees named htraced Context.quiet_empty ada
  refine ⟨named, htraced, listed, hlisted, ?_⟩
  obtain ⟨b, hb, hiff⟩ := hagrees lab lab.path .read rfl
  have hyes : (serve service (.authorize ada lab.path .read) reached).1 = .ok (some true) := rfl
  exact hiff.mp (Option.some.inj (Except.ok.inj (hb.symm.trans hyes)))

end Sample

end Warrant.Backend
