import Warrant.Proofs.Serial

/-!
# How grants and revocations on a pair combine

What grants and revocations on one pair leave when they run one after the other depends only on what
they leave the pair (`Operation.leaves`): all other roles stay as they are, and the shadow role of the
pair is determined by what it holds, even if it has gone and come back in between
(`Kept.same_of_held`). So they combine like unions and differences of sets of actions.
-/

namespace Warrant

namespace RoleStore

/-- The role of the name has an entry for the path, if only for no action. -/
def HasEntry (s : RoleStore) (name : String) (path : Path) : Prop :=
  ∃ r, s.roles.get? name = some r ∧ path ∈ r.grants.keys

/-- The stores have the same roles, with the same members, and with entries for the same actions on
the same paths. -/
structure Same (s t : RoleStore) : Prop where
  roles : ∀ n, s.Has n ↔ t.Has n
  members : ∀ n m, s.HasMember n m ↔ t.HasMember n m
  entries : ∀ n q, s.HasEntry n q ↔ t.HasEntry n q
  holds : ∀ n q a, s.Holds n q a ↔ t.Holds n q a

theorem Same.refl (s : RoleStore) : Same s s :=
  ⟨fun _ => .rfl, fun _ _ => .rfl, fun _ _ => .rfl, fun _ _ _ => .rfl⟩

/-- Where no path is kept without actions, the entries are for what is held. -/
theorem Filled.hasEntry_iff {s : RoleStore} (hs : s.Filled) {n : String} {q : Path} :
    s.HasEntry n q ↔ ∃ a, s.Holds n q a := by
  constructor
  · rintro ⟨r, hr, hq⟩
    obtain ⟨held, hheld⟩ := Table.mem_keys_iff.mp hq
    obtain ⟨a, ha⟩ := List.exists_mem_of_ne_nil _ (hs n r hr q held hheld)
    exact ⟨a, r, hr, Role.mem_heldOn_iff.mpr ⟨held, hheld, ha⟩⟩
  · rintro ⟨a, r, hr, ha⟩
    obtain ⟨held, hheld, -⟩ := Role.mem_heldOn_iff.mp ha
    exact ⟨r, hr, Table.mem_keys_iff.mpr ⟨held, hheld⟩⟩

end RoleStore

namespace Engine

open World RoleStore Site

section Pairs

variable {E : Engine} {L L' : Ledger} {s t : Site} {pair : Pair} {n : String}

theorem Kept.holds_shadow (h : Kept E L s) (hn : ShadowName E pair n) (q : Path) (a : Action) :
    s.store.Holds n q a ↔ q = pair.entity.path ∧ s.store.Holds n pair.entity.path a := by
  rw [h.mirrors.holds_name_iff hn, h.mirrors.holds_name_iff hn, and_iff_right rfl]

theorem Kept.has_shadow (h : Kept E L s) (hn : ShadowName E pair n) :
    s.store.Has n ↔ ∃ a, s.store.Holds n pair.entity.path a := by
  rw [h.has_name_iff hn]
  exact exists_congr fun a => ((h.mirrors.holds_name_iff hn _ a).trans (and_iff_right rfl)).symm

theorem Kept.members_shadow (h : Kept E L s) (hn : ShadowName E pair n) (m : Principal) :
    s.store.HasMember n m ↔
      s.store.Has n ∧ m.kind = .group ∧ m.name ∈ E.standInsAt s pair.principal := by
  obtain ⟨-, hrole, rfl⟩ := holder_of_name? hn
  constructor
  · rintro ⟨r, hr, hm⟩
    obtain ⟨a, ha⟩ := (h.has_name_iff hn).mp ⟨r, hr⟩
    exact ⟨⟨r, hr⟩, (h.mirrors.members_holder ha hrole m).mp ⟨r, hr, hm⟩⟩
  · rintro ⟨hhas, hm⟩
    obtain ⟨a, ha⟩ := (h.has_name_iff hn).mp hhas
    exact (h.mirrors.members_holder ha hrole m).mpr hm

/-- Where the sites differ in the shadow role of a pair only, what the pair holds decides. -/
theorem Kept.same_of_held (h : Kept E L s) (h' : Kept E L' t)
    (halike : Site.Alike (fun n => ¬ ShadowName E pair n) s t)
    (hheld : ∀ n, ShadowName E pair n → ∀ a,
      s.store.Holds n pair.entity.path a ↔ t.store.Holds n pair.entity.path a) :
    s.store.Same t.store := by
  have hroles : ∀ n, s.store.Has n ↔ t.store.Has n := by
    intro n
    by_cases hn : ShadowName E pair n
    · rw [h.has_shadow hn, h'.has_shadow hn]
      exact exists_congr (hheld n hn)
    · rw [Has, Has, halike.roles n hn]
  have hholds : ∀ n q a, s.store.Holds n q a ↔ t.store.Holds n q a := by
    intro n q a
    by_cases hn : ShadowName E pair n
    · rw [h.holds_shadow hn, h'.holds_shadow hn, hheld n hn]
    · rw [RoleStore.Holds, RoleStore.Holds, halike.roles n hn]
  refine ⟨hroles, fun n m => ?_, fun n q => ?_, hholds⟩
  · by_cases hn : ShadowName E pair n
    · have hstand : E.standInsAt t pair.principal = E.standInsAt s pair.principal := by
        rw [standInsAt, standInsAt, groupsAt, groupsAt, halike.identity]
      rw [h.members_shadow hn, h'.members_shadow hn, hroles, hstand]
    · rw [HasMember, HasMember, halike.roles n hn]
  · rw [h.mirrors.filled.hasEntry_iff, h'.mirrors.filled.hasEntry_iff]
    exact exists_congr (hholds n q)

end Pairs

section Runs

variable {τ : Type} [Add τ] [LE τ] [DecidableLE τ] {E : Engine} {w : World Site τ} {L : Ledger}
  {pair : Pair} {path : Path} {o : Operation} {ops : List Operation}

/-- Where nothing gets in the way, a grant or a revocation on a pair succeeds and has its effect. -/
theorem run_of_pair (hs : w.remote.Ready E) (hq : w.log.context.Quiet) (ho : o.pair? = some pair)
    (hp : E.resolver.resolve pair.entity = .ok path) :
    (World.run (E.perform o) w).1 = .ok () ∧
      w.remote.Alters (Effect E w.remote o) (World.run (E.perform o) w).2.remote := by
  by_cases hnone : ∃ e p, o = .grant e p []
  · obtain ⟨e, p, rfl⟩ := hnone
    exact ⟨rfl, .refl (.inl ⟨rfl, rfl⟩)⟩
  · have hworks : o.WorksOn pair := ⟨ho, fun e p h => hnone ⟨e, p, h⟩⟩
    obtain ⟨body, failed, succeeded, hperform, -, hsucceeds⟩ := work_of_pair τ hworks hp
    rw [hperform]
    obtain ⟨_, hok, _, halters⟩ :=
      (Succeeds.sweeping (Ends.locked (hsucceeds w.remote hs))).of_quiet hq rfl
    exact ⟨hok, halters⟩

/-- What grants and revocations on one pair leave behind one after the other. -/
structure Left (E : Engine) (pair : Pair) (ops : List Operation) (w v : World Site τ) : Prop where
  accounted : ∃ L, Accounted E v L
  others : Site.Alike (fun n => ¬ ShadowName E pair n) w.remote v.remote
  held : ∀ n, ShadowName E pair n → ∀ a, v.remote.store.Holds n pair.entity.path a ↔
    ops.foldl Operation.leaves (w.remote.store.Holds n pair.entity.path) a

theorem left_in_turn (h : Accounted E w L) (hq : w.log.context.Quiet)
    (hops : ∀ o ∈ ops, o.pair? = some pair) (hp : E.resolver.resolve pair.entity = .ok path) :
    (∀ x ∈ (inTurn E ops w).1, x = .ok ()) ∧ Left E pair ops w (inTurn E ops w).2 := by
  induction ops generalizing w L with
  | nil => exact ⟨nofun, ⟨L, h⟩, Site.Alike.refl _ _, fun _ _ _ => .rfl⟩
  | cons o rest ih =>
    have ho := hops o List.mem_cons_self
    obtain ⟨hok, heffect⟩ := run_of_pair h.kept.ready hq ho hp
    have hother := (run_of_alike E ho (w := w) rfl (Site.Alike.refl _ _)).2.2
    have hhonest : o.Honest := by
      cases o with
      | grant e p actions | revoke e p actions =>
        rw [Operation.pair?] at ho
        split at ho
        · cases ho
        · rename_i hk
          exact fun hrole => absurd hrole hk
      | _ => cases ho
    have hquiet : (World.run (E.perform o) w).2.log.context.Quiet := (context_run τ _ w).symm ▸ hq
    obtain ⟨hoks, haccounted, hothers, hheld⟩ := ih (h.perform o hhonest fun hc => hc.1 hq) hquiet
      fun o' ho' => hops o' (List.mem_cons_of_mem o ho')
    refine ⟨fun x hx => ?_, haccounted, hother.trans hothers, fun n hn a => ?_⟩
    · rcases List.mem_cons.mp hx with rfl | hx
      · exact hok
      · exact hoks x hx
    · obtain ⟨-, path', hpath', rfl⟩ := ShadowRole.name?_eq_ok_iff.mp hn
      obtain rfl := Resolver.eq_path_of_resolve hpath'
      have hfirst : (World.run (E.perform o) w).2.remote.store.Holds _ pair.entity.path =
          o.leaves (w.remote.store.Holds _ pair.entity.path) :=
        funext fun a => propext (Operation.holds_iff ho heffect.roles hpath' a)
      rw [List.foldl_cons, ← hfirst]
      exact hheld _ hn a

/-- What the engine does not resolve it refuses before it does anything. -/
theorem inTurn_of_unresolved {f : Fault} (hp : E.resolver.resolve pair.entity = .error f)
    (hops : ∀ o ∈ ops, o.pair? = some pair) (w : World Site τ) : (inTurn E ops w).2.remote = w.remote := by
  induction ops generalizing w with
  | nil => rfl
  | cons o rest ih =>
    refine (ih (fun o' ho' => hops o' (List.mem_cons_of_mem o ho')) _).trans ?_
    rcases perform_of_pair (hops o List.mem_cons_self) with ⟨x, h⟩ | ⟨path, _, _, _, _, hpath, -⟩
    · rw [h]
      rfl
    · rw [hp] at hpath
      cases hpath

/-- Grants and revocations on a pair that leave it the same leave the same roles. -/
theorem same_in_turn (pair : Pair) (h : Accounted E w L) (hq : w.log.context.Quiet)
    {ops' : List Operation} (hops : ∀ o ∈ ops, o.pair? = some pair) (hops' : ∀ o ∈ ops', o.pair? = some pair)
    (hleaves : ∀ n, ShadowName E pair n → ∀ a,
      ops.foldl Operation.leaves (w.remote.store.Holds n pair.entity.path) a ↔
        ops'.foldl Operation.leaves (w.remote.store.Holds n pair.entity.path) a) :
    (inTurn E ops w).2.remote.store.Same (inTurn E ops' w).2.remote.store := by
  cases hp : E.resolver.resolve pair.entity with
  | error f =>
    rw [inTurn_of_unresolved hp hops, inTurn_of_unresolved hp hops']
    exact .refl _
  | ok path =>
    obtain ⟨-, ⟨_, haccounted⟩, hothers, hheld⟩ := left_in_turn h hq hops hp
    obtain ⟨-, ⟨_, haccounted'⟩, hothers', hheld'⟩ := left_in_turn h hq hops' hp
    refine haccounted.kept.same_of_held haccounted'.kept (hothers.symm.trans hothers') fun n hn a => ?_
    rw [hheld n hn, hheld' n hn, hleaves n hn]

/-- Where every event can be recorded, in every world that the engine has brought about: on an entity
that is served, grants and revocations for a user or group succeed. To grant twice is to grant once; to
grant or to revoke in two parts, the one first or the other, is to do it in one; and to grant and to
revoke what the pair did not hold is to do nothing. -/
theorem grants_combine (h : Accounted E w L) (hq : w.log.context.Quiet) (e : Entity) {p : Principal}
    (hk : p.kind ≠ .role) (A B : List Action) :
    let grant := Operation.grant e p
    let revoke := Operation.revoke e p
    let after (ops : List Operation) := (inTurn E ops w).2.remote.store
    (∀ path, E.resolver.resolve e = .ok path →
      ∀ ops, (∀ o ∈ ops, ∃ actions, o = grant actions ∨ o = revoke actions) →
        ∀ x ∈ (inTurn E ops w).1, x = .ok ()) ∧
    (after [grant A, grant A]).Same (after [grant A]) ∧
    (after [grant A, grant B]).Same (after [grant (A ++ B)]) ∧
    (after [grant B, grant A]).Same (after [grant (A ++ B)]) ∧
    (after [revoke A, revoke B]).Same (after [revoke (A ++ B)]) ∧
    (after [revoke B, revoke A]).Same (after [revoke (A ++ B)]) ∧
    ((∀ n, ShadowRole.name? E.resolver e p = .ok n →
        ∀ a ∈ A, ¬ w.remote.store.Holds n e.path a) →
      (after [grant A, revoke A]).Same w.remote.store) := by
  intro grant revoke after
  have hg : ∀ actions, (grant actions).pair? = some ⟨e, p⟩ := fun _ => if_neg hk
  have hr : ∀ actions, (revoke actions).pair? = some ⟨e, p⟩ := fun _ => if_neg hk
  refine ⟨fun path hp ops hops => ?_, ?_, ?_, ?_, ?_, ?_, fun hnone => ?_⟩
  · have hpair : ∀ o ∈ ops, o.pair? = some ⟨e, p⟩ := fun o ho => by
      obtain ⟨actions, rfl | rfl⟩ := hops o ho
      · exact hg actions
      · exact hr actions
    exact (left_in_turn h hq hpair hp).1
  · refine same_in_turn ⟨e, p⟩ h hq (by simp [hg]) (by simp [hg]) fun n _ a => ?_
    simp [grant, Operation.leaves]
  · refine same_in_turn ⟨e, p⟩ h hq (by simp [hg]) (by simp [hg]) fun n _ a => ?_
    simp [grant, Operation.leaves, or_assoc]
  · refine same_in_turn ⟨e, p⟩ h hq (by simp [hg]) (by simp [hg]) fun n _ a => ?_
    simp [grant, Operation.leaves, or_assoc, or_comm (a := a ∈ B)]
  · refine same_in_turn ⟨e, p⟩ h hq (by simp [hr]) (by simp [hr]) fun n _ a => ?_
    simp [revoke, Operation.leaves, and_assoc]
  · refine same_in_turn ⟨e, p⟩ h hq (by simp [hr]) (by simp [hr]) fun n _ a => ?_
    simp [revoke, Operation.leaves, and_assoc, and_comm (a := a ∉ B)]
  · show (after [grant A, revoke A]).Same (inTurn E [] w).2.remote.store
    refine same_in_turn ⟨e, p⟩ h hq (by simp [hg, hr]) (List.forall_mem_nil _) fun n hn a => ?_
    have hnot : a ∈ A → ¬ w.remote.store.Holds n e.path a := hnone n hn a
    simp only [grant, revoke, List.foldl_cons, List.foldl_nil, Operation.leaves]
    constructor
    · rintro ⟨hheld | ha, hout⟩
      · exact hheld
      · exact absurd ha hout
    · exact fun hheld => ⟨.inl hheld, fun ha => hnot ha hheld⟩

end Runs

namespace Sample

/-- What Ben holds goes in two parts, the shadow role with the first of them, and what Ben is granted
and loses again leaves no trace. -/
theorem ben_as_before : ben.kind ≠ .role ∧
    let after (ops : List Operation) := (inTurn team ops entrusted).2.remote.store
    ¬ (after [.revoke root ben [.read, .write]]).Has ".:instance=cdap:u:ben" ∧
    (after [.revoke root ben [.read, .write], .revoke root ben [.execute]]).Same
      (after [.revoke root ben ([.read, .write] ++ [.execute])]) ∧
    (after [.grant root ben [.execute], .revoke root ben [.execute]]).Same entrusted.remote.store := by
  obtain ⟨L, haccounted⟩ := accounted_entrusted
  have hquiet : entrusted.log.context.Quiet := (context_run Nat _ _).symm ▸ Audit.Context.quiet_empty
  have hkind : ben.kind ≠ .role := by decide
  have hname : ShadowRole.name? team.resolver root ben = .ok ".:instance=cdap:u:ben" :=
    toOption_eq_some_iff.mp (by decide +kernel)
  obtain ⟨-, -, -, -, htwo, -, -⟩ := grants_combine haccounted hquiet root hkind [.read, .write] [.execute]
  obtain ⟨-, -, -, -, -, -, hback⟩ := grants_combine haccounted hquiet root hkind [.execute] []
  refine ⟨hkind, ?_, htwo, hback fun n hn a ha => ?_⟩
  · rintro ⟨r, hr⟩
    have hgone : ".:instance=cdap:u:ben" ∉
      (inTurn team [.revoke root ben [.read, .write]] entrusted).2.remote.store.roles.keys := by
      decide +kernel
    exact hgone (Table.mem_keys_iff.mpr ⟨r, hr⟩)
  · obtain rfl := Except.ok.inj (hname.symm.trans hn)
    obtain rfl := List.mem_singleton.mp ha
    decide +kernel

end Sample

end Engine

end Warrant
