import Warrant.Proofs.Coherence
import Warrant.Proofs.Relations

/-!
# What the decisions below an entity have in common

Going up from parent to parent one meets the entities whose paths cover the one of the entity that one
comes from (`Entity.path_covers_iff`). So the decisions that are dropped with an entity are those that
a grant or revocation on it may change, and no others (`Engine.subtree_exact`).
-/

namespace Warrant

namespace Entity

variable {a b e f : Entity}

theorem depth_of_parent? (h : e.parent? = some f) : f.depth < e.depth := by
  have hpos : 0 < e.nodes.length := List.length_pos_iff.mpr e.nonempty
  rw [depth, depth, nodes_of_parent? h, List.length_dropLast]
  omega

/-- Goes up from parent to parent until the other entity is met. -/
def climbsTo (e other : Entity) : Bool :=
  match _h : e.parent? with
  | none => false
  | some f => decide (f = other) || f.climbsTo other
termination_by e.depth
decreasing_by exact depth_of_parent? _h

theorem isBelow_iff_dropLast : b.isBelow a = true ↔ a.nodes <+: b.nodes.dropLast := by
  have hb := List.dropLast_concat_getLast b.nonempty
  rw [isBelow_iff]
  constructor
  · rintro ⟨hpre, hne⟩
    rw [← hb] at hpre
    rcases List.prefix_concat_iff.mp hpre with h | h
    · exact absurd (ext (h.trans hb)) hne
    · exact h
  · intro h
    refine ⟨h.trans (List.dropLast_prefix _), ?_⟩
    rintro rfl
    have hpos : 0 < a.nodes.length := List.length_pos_iff.mpr a.nonempty
    have hle := h.length_le
    rw [List.length_dropLast] at hle
    omega

/-- What is met on the way up is what stands in front in the list of nodes. -/
theorem climbsTo_eq_isBelow (b a : Entity) : b.climbsTo a = b.isBelow a := by
  rw [Bool.eq_iff_iff, isBelow_iff_dropLast]
  fun_induction climbsTo b a with
  | case1 b hnone =>
    have hnil : b.nodes.dropLast = [] := Decidable.byContradiction fun hne => by
      rw [parent?, dif_neg hne] at hnone
      cases hnone
    rw [hnil, List.prefix_nil]
    exact ⟨fun h => (by cases h), fun h => absurd h a.nonempty⟩
  | case2 b f hf ih =>
    rw [Bool.or_eq_true, decide_eq_true_eq, ih, ← isBelow_iff_dropLast, isBelow_iff,
      ← nodes_of_parent? hf]
    constructor
    · rintro (rfl | ⟨hpre, -⟩)
      · exact List.prefix_rfl
      · exact hpre
    · intro hpre
      by_cases hfa : f = a
      · exact .inl hfa
      · exact .inr ⟨hpre, Ne.symm hfa⟩

/-- The path of an entity covers its own and those of the entities from which one climbs to it. -/
theorem path_covers_iff : a.path.covers b.path = true ↔ a = b ∨ b.climbsTo a = true := by
  rw [covers_path_iff, climbsTo_eq_isBelow, isBelow_iff]
  constructor
  · intro h
    by_cases hab : a = b
    · exact .inl hab
    · exact .inr ⟨h, hab⟩
  · rintro (rfl | ⟨h, -⟩)
    · exact List.prefix_rfl
    · exact h

/-- What is served is so with everything from which one climbs to it. -/
theorem resolve_of_climbsTo {r : Resolver} {p : Path} (h : r.resolve a = .ok p)
    (hb : b.climbsTo a = true) : r.resolve b = .ok b.path := by
  fun_induction climbsTo b a with
  | case1 => cases hb
  | case2 b f hf ih =>
    rw [Bool.or_eq_true, decide_eq_true_eq] at hb
    rcases hb with rfl | hb
    · exact Resolver.resolve_of_parent? h hf
    · exact Resolver.resolve_of_parent? (ih hb) hf

end Entity

namespace Backend

open RoleStore

variable {c : Call} {s : RoleStore} {path q : Path} {role : String} {actions : List Action}

/-- A grant or a revocation leaves all other paths as they were. -/
theorem agreesOn_elsewhere (hc : c = .grant path role actions ∨ c = .revoke path role actions)
    (hq : q ≠ path) : AgreesOn q s (c.after s) := by
  by_cases hrole : s.Has role
  · have hrel : (c.after s).relations = c.acts s.relations := relations_after fun f hf => by
      rcases hc with rfl | rfl
      · exact hf.1 hrole
      · exact hf.1 hrole
    refine ⟨fun n a => ?_, fun n a _ p => ?_⟩
    · show _ ↔ (c.after s).relations.holds n q a
      rw [hrel]
      rcases hc with rfl | rfl
      · exact ⟨.inl, fun h => h.elim id fun h => absurd h.2.1 hq⟩
      · exact ⟨fun h => ⟨h, fun h => hq h.2.1⟩, And.left⟩
    · show _ ↔ (c.after s).relations.member n p
      rw [hrel]
      rcases hc with rfl | rfl
      · exact Iff.rfl
      · exact Iff.rfl
  · have hrefused : c.apply s = .error (.roleNotFound role) := Call.apply_refused_iff.mpr <| by
      rcases hc with rfl | rfl
      · exact ⟨hrole, rfl⟩
      · exact ⟨hrole, rfl⟩
    rw [Call.after, hrefused]
    exact AgreesOn.refl q s

end Backend

namespace Engine

open RoleStore

namespace Site

variable {r : Resolver} {s : Site} {k : Cache.Key} {path q : Path}

/-- The site after calls of the policy backend. -/
def afterAll (s : Site) (calls : List Backend.Call) : Site :=
  calls.foldl (fun t c => t.after (.policy c)) s

theorem store_after {c : Backend.Call} (hs : s.readOnly = false) :
    s.after (.policy c) = { s with store := c.after s.store } := by
  rw [after, hs]
  rfl

theorem verdict_elsewhere {c : Backend.Call} {role : String} {actions : List Action}
    (hk : r.resolve k.entity = .ok q) (hq : path.covers q = false)
    (hc : c = .grant path role actions ∨ c = .revoke path role actions) :
    (s.after (.policy c)).verdict r k = s.verdict r k := by
  have hagree : ∀ q', q'.covers q = true → AgreesOn q' s.store (s.after (.policy c)).store := by
    intro q' hq'
    have hne : q' ≠ path := by
      rintro rfl
      rw [hq] at hq'
      cases hq'
    by_cases hs : s.readOnly = true
    · rw [after, if_pos hs]
      exact AgreesOn.refl q' s.store
    · rw [store_after (by simpa using hs)]
      exact Backend.agreesOn_elsewhere hc hne
  rw [verdict, verdict, hk, after_backend]
  exact congrArg (Except.mapError Fault.malformed) (Backend.authorizes_congr hagree).symm

theorem afterAll_eq (hs : s.readOnly = false) (calls : List Backend.Call) :
    s.afterAll calls = { s with store := calls.foldl (fun t c => c.after t) s.store } := by
  induction calls generalizing s with
  | nil => rfl
  | cons c rest ih =>
    rw [afterAll, List.foldl_cons, store_after hs]
    exact ih hs

theorem verdict_of_named (hnamed : s.backend.Named) (hk : r.resolve k.entity = .ok q) :
    ∃ b, s.verdict r k = .ok b ∧ (b = true ↔
      ∃ n, s.store.relations.ActsIn s.backend.identity.groupsOf k.principal n ∧ ∃ q' a',
        s.store.relations.holds n q' a' ∧ q'.covers q = true ∧ (a' = k.action ∨ a' = .all)) := by
  obtain ⟨b, hb, hiff⟩ := Backend.authorizes_of_named hnamed k.principal q k.action s.store
  exact ⟨b, verdict_eq_ok_iff.mpr ⟨q, hk, hb⟩, hiff⟩

/-- Where no role holds anything, everything is denied. -/
theorem verdict_of_idle (hnamed : s.backend.Named) (hk : r.resolve k.entity = .ok q)
    (hidle : ∀ n q a, ¬ s.store.relations.holds n q a) : s.verdict r k = .ok false := by
  obtain ⟨b, hb, hiff⟩ := verdict_of_named hnamed hk
  cases b with
  | false => exact hb
  | true =>
    obtain ⟨n, -, q', a', hholds, -⟩ := hiff.mp rfl
    exact absurd hholds (hidle n q' a')

/-- Where a principal that has been enrolled may act: a role in itself, anyone else in a role that is
kept for the purpose. -/
def actor (p : Principal) : String := if p.kind = .role then p.name else "readers"

def enrol (p : Principal) : List Backend.Call := [.createRole (actor p), .attach (actor p) p]

theorem actsIn_actor {R : Relations} {p : Principal} (groupsOf : String → List String)
    (hrole : R.role (actor p)) (hmember : R.member (actor p) p) :
    R.ActsIn groupsOf p (actor p) := by
  unfold Relations.ActsIn
  cases hk : p.kind with
  | role => exact ⟨by rw [actor, if_pos hk], hrole⟩
  | group => exact hmember
  | user => exact .inl hmember

/-- Once its principal has been enrolled, a grant turns the verdict on a key that is covered, and a
revocation turns it back. -/
theorem verdict_turned (hs : s.readOnly = false) (hempty : s.store = .empty)
    (hnamed : s.backend.Named) (hk : r.resolve k.entity = .ok q) (hq : path.covers q = true) :
    let grant := Backend.Call.grant path (actor k.principal) [k.action]
    let revoke := Backend.Call.revoke path (actor k.principal) [k.action]
    (s.afterAll (enrol k.principal)).verdict r k = .ok false ∧
      (s.afterAll (enrol k.principal ++ [grant])).verdict r k = .ok true ∧
      (s.afterAll (enrol k.principal ++ [grant, revoke])).verdict r k = .ok false := by
  intro grant revoke
  let role := actor k.principal
  let t₁ := Backend.Call.after (.createRole role) s.store
  let t₂ := Backend.Call.after (.attach role k.principal) t₁
  let t₃ := grant.after t₂
  let t₄ := revoke.after t₃
  have hnone : ∀ n q a, ¬ s.store.relations.holds n q a := by
    rw [hempty]
    rintro n q a ⟨x, hx, -⟩
    cases hx
  have hfree : ¬ s.store.relations.role role := by
    rw [hempty]
    rintro ⟨x, hx⟩
    cases hx
  -- none of the four calls is refused
  have h₁ : t₁.relations = _ := Backend.relations_after fun f hf => hfree hf.1
  have hrole₁ : t₁.relations.role role := by rw [h₁]; exact .inr rfl
  have h₂ : t₂.relations = _ := Backend.relations_after fun f hf => hf.1 hrole₁
  have hrole₂ : t₂.relations.role role := by rw [h₂]; exact hrole₁
  have h₃ : t₃.relations = _ := Backend.relations_after fun f hf => hf.1 hrole₂
  have hrole₃ : t₃.relations.role role := by rw [h₃]; exact hrole₂
  have h₄ : t₄.relations = _ := Backend.relations_after fun f hf => hf.1 hrole₃
  have hnone₂ : ∀ n q a, ¬ t₂.relations.holds n q a := by
    rw [h₂, Backend.Call.acts, h₁]
    exact hnone
  have hmember₂ : t₂.relations.member role k.principal := by rw [h₂]; exact .inr ⟨rfl, rfl⟩
  have hholds₃ : t₃.relations.holds role path k.action := by
    rw [h₃]
    exact .inr ⟨rfl, rfl, List.mem_singleton_self _⟩
  have hnone₄ : ∀ n q a, ¬ t₄.relations.holds n q a := by
    rw [h₄, Backend.Call.acts, h₃]
    rintro n q a ⟨h | h, hrest⟩
    · exact hnone₂ n q a h
    · exact hrest h
  rw [afterAll_eq hs, afterAll_eq hs, afterAll_eq hs]
  refine ⟨verdict_of_idle (s := { s with store := t₂ }) hnamed hk hnone₂, ?_,
    verdict_of_idle (s := { s with store := t₄ }) hnamed hk hnone₄⟩
  obtain ⟨b, hb, hiff⟩ := verdict_of_named (s := { s with store := t₃ }) hnamed hk
  have hacts : t₃.relations.ActsIn s.backend.identity.groupsOf k.principal role := by
    refine actsIn_actor _ hrole₃ ?_
    rw [h₃]
    exact hmember₂
  have hyes : b = true := hiff.mpr ⟨role, hacts, path, k.action, hholds₃, hq, .inl rfl⟩
  exact hyes ▸ hb

end Site

section Runs

variable {τ : Type} [Add τ] [LE τ] [DecidableLE τ]

/-- The decisions on the entity and below it are dropped, whether or not that can be reported. -/
theorem cache_invalidateSubtree (e : Entity) (w : World Site τ) :
    (World.run (Cache.invalidateSubtree e : Task Nat) w).2.cache =
      (w.cache.forget (.subtree e)).2 := by
  rw [Cache.invalidateSubtree, Cache.invalidateOn, World.run_bind, World.run_ask]
  show (World.run (Procedure.report _ >>= fun _ => _) _).2.cache = _
  rw [World.run_bind, World.run_report]
  split
  · rename_i hrecord
    exact congrArg (fun x => x.2.cache) hrecord.symm
  · rename_i hrecord
    exact congrArg (fun x => x.2.cache) hrecord.symm

/-- A write that runs alone changes verdicts on those keys only whose decisions it drops. -/
theorem agreesOff_run (E : Engine) {o : Operation} (hw : o.IsWrite) (hh : o.Honest)
    (w : World Site τ) (hc : w.remote.store.Confined) :
    Site.AgreesOff E.resolver o.Drops w.remote (World.run (E.perform o) w).2.remote :=
  (agreesOff_of_sweeps (shape_perform E hw hh).asks hc).2

/-- The decisions that are dropped with an entity are those on it and on everything from which one
climbs to it. On these, one grant on the entity and its revocation turn the verdict and turn it back
at every site where the principal has been enrolled; on all other keys no grant and no revocation on
the entity, asked of the backend or of the engine, changes a verdict. -/
theorem subtree_exact (E : Engine) {a : Entity} {k : Cache.Key} {path q : Path}
    (ha : E.resolver.resolve a = .ok path) (hk : E.resolver.resolve k.entity = .ok q)
    (w : World Site τ) :
    let v := (World.run (Cache.invalidateSubtree a : Task Nat) w).2
    (path.covers q = true ↔ a = k.entity ∨ k.entity.climbsTo a = true) ∧
    (path.covers q = true → (∀ slot, ¬ v.Holds k slot) ∧
      ∀ s : Site, s.readOnly = false → s.store = .empty → s.backend.Named →
        ∃ calls role actions,
          (s.afterAll calls).verdict E.resolver k = .ok false ∧
          (s.afterAll (calls ++ [.grant path role actions])).verdict E.resolver k = .ok true ∧
          (s.afterAll (calls ++ [.grant path role actions, .revoke path role actions])).verdict
            E.resolver k = .ok false) ∧
    (path.covers q = false → (∀ slot, v.Holds k slot ↔ w.Holds k slot) ∧
      (∀ (s : Site) role actions,
        (s.after (.policy (.grant path role actions))).verdict E.resolver k =
            s.verdict E.resolver k ∧
          (s.after (.policy (.revoke path role actions))).verdict E.resolver k =
            s.verdict E.resolver k) ∧
      ∀ (u : World Site τ) (o : Operation), u.remote.store.Confined → o.Honest →
        (∃ p actions, o = .grant a p actions ∨ o = .revoke a p actions) →
        (World.run (E.perform o) u).2.remote.verdict E.resolver k =
          u.remote.verdict E.resolver k) := by
  intro v
  have hpath := Resolver.eq_path_of_resolve ha
  have hq := Resolver.eq_path_of_resolve hk
  have hcovers : Below a k ↔ path.covers q = true := by
    rw [hpath, hq]
    exact Cache.Scope.subtree_covers_iff
  have hheld : ∀ slot, v.Holds k slot ↔ w.Holds k slot ∧ path.covers q = false := by
    intro slot
    rw [World.Holds, cache_invalidateSubtree, Cache.get?_forget, ← Bool.not_eq_true,
      ← Bool.not_eq_true]
    exact and_congr_right fun _ => not_congr hcovers
  refine ⟨by rw [hpath, hq, Entity.path_covers_iff], fun hin => ⟨fun slot h => ?_, ?_⟩,
    fun hout => ⟨fun slot => ?_, fun s role actions => ⟨?_, ?_⟩, ?_⟩⟩
  · have hout := ((hheld slot).mp h).2
    rw [hin] at hout
    cases hout
  · intro s hs hempty hnamed
    exact ⟨_, _, _, Site.verdict_turned hs hempty hnamed hk hin⟩
  · rw [hheld]
    exact and_iff_left hout
  · exact Site.verdict_elsewhere hk hout (.inl rfl)
  · exact Site.verdict_elsewhere hk hout (.inr rfl)
  · rintro u o hconfined hhonest ⟨p, actions, ho⟩
    have hdrops : ¬ o.Drops k := by
      rcases ho with rfl | rfl
      · exact fun h => Bool.false_ne_true (hout.symm.trans (hcovers.mp h))
      · exact fun h => Bool.false_ne_true (hout.symm.trans (hcovers.mp h))
    have hwrite : o.IsWrite := by rcases ho with rfl | rfl <;> trivial
    exact ((agreesOff_run E hwrite hhonest u hconfined).verdict k hdrops).symm

end Runs

namespace Sample

/-- A namespace below the root. -/
def lab : Entity :=
  ⟨[⟨.of .root, Resolver.Sample.cdap, none⟩, ⟨.of .space, ⟨"lab", by decide⟩, none⟩], by decide,
    ⟨by decide, by decide, by decide, by decide, trivial⟩⟩

/-- Ada may not read in the namespace, and that is held. -/
def denied : World Site Nat := (World.run (engine.enforce lab ada [.read]) start).2

theorem named_site : site.backend.Named := Backend.Setup.named_userNamed _

/-- The decision on the namespace goes with the root, and may turn with it; the one on the root stays
when the namespace goes. -/
theorem lab_goes_with_root :
    engine.resolver.resolve root = .ok root.path ∧ engine.resolver.resolve lab = .ok lab.path ∧
    denied.Holds ⟨ada, lab, .read⟩ ⟨some false, 5⟩ ∧
    (∀ slot, ¬ (World.run (Cache.invalidateSubtree root : Task Nat) denied).2.Holds
      ⟨ada, lab, .read⟩ slot) ∧
    (∃ calls role actions,
      (site.afterAll calls).verdict engine.resolver ⟨ada, lab, .read⟩ = .ok false ∧
      (site.afterAll (calls ++ [.grant root.path role actions])).verdict engine.resolver
        ⟨ada, lab, .read⟩ = .ok true) ∧
    ∀ slot, (World.run (Cache.invalidateSubtree lab : Task Nat) denied).2.Holds
      ⟨ada, root, .read⟩ slot ↔ denied.Holds ⟨ada, root, .read⟩ slot := by
  have hexact := subtree_exact engine (a := root) (k := ⟨ada, lab, .read⟩) rfl rfl denied
  have hup : lab.climbsTo root = true := by
    rw [Entity.climbsTo_eq_isBelow]
    decide
  obtain ⟨hgone, hturns⟩ := hexact.2.1 (hexact.1.mpr (.inr hup))
  obtain ⟨calls, role, actions, hno, hyes, -⟩ := hturns site rfl rfl named_site
  have hlab := subtree_exact engine (a := lab) (k := ⟨ada, root, .read⟩) rfl rfl denied
  exact ⟨rfl, rfl, by decide +kernel, hgone, ⟨calls, role, actions, hno, hyes⟩,
    (hlab.2.2 (by decide)).1⟩

end Sample

end Engine

end Warrant
