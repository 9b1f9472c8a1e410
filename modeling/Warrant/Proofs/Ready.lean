import Warrant.Proofs.Lifecycle
import Warrant.Proofs.Separate

/-!
# Sites where nothing gets in the way

A grant or a revocation on a pair that runs alone succeeds where the backend is open, whoever stands
for the principal has a name, and every entry is for some action on the path of an entity
(`Site.Ready`). All sites are like that which the engine brings about from an empty backend, whatever is
done side by side and whatever becomes of the calls (`ready_reached`), and the work leaves such a site
(`Site.Ready.of_effect`).
-/

namespace Warrant

namespace Backend

open RoleStore

/-- As long as nothing is granted for no action, there is no entry for no action. -/
theorem Call.apply_filled {c : Call} {s t : RoleStore} (h : c.apply s = .ok t)
    (hne : ∀ path role actions, c = .grant path role actions → actions ≠ []) (hs : s.Filled) :
    t.Filled := by
  cases c with
  | createRole role => exact (gains_create h).filled hs
  | dropRole role => exact (loses_drop h).filled hs
  | attach role p => exact (gains_attach h).filled hs
  | detach role p => exact (loses_detach h).filled hs
  | grant path role actions => exact (gains_grant h (hne path role actions rfl)).filled hs
  | revoke path role actions => exact (loses_revoke h).filled hs
  | revokeAllOn path =>
    obtain rfl := Except.ok.inj h
    exact (loses_clear path s).filled hs
  | authorize | listPrivileges | listRoles | listAllRoles =>
    obtain rfl := Except.ok.inj h
    exact hs

end Backend

namespace Engine

open Procedure RoleStore Site

/-! ### Sites where nothing gets in the way -/

/-- Nothing at the site keeps a grant or a revocation on a pair from succeeding. -/
structure Site.Ready (E : Engine) (s : Site) : Prop where
  provided : Provided E s
  traceable : s.Traceable
  filled : s.store.Filled

/-- The request is no grant for no action, and none on a path that is not that of an entity. -/
def Founded (E : Engine) : Request Call → Prop
  | .call (.policy (.grant path _ actions)) => actions ≠ [] ∧ ∃ e, E.resolver.resolve e = .ok path
  | _ => True

theorem Common.founded {E : Engine} {q : Request Call} (h : Common q) : Founded E q := by
  unfold Founded
  split
  · exact h.elim
  · trivial

theorem Reads.founded {E : Engine} {q : Request Call} (h : Reads q) : Founded E q := by
  unfold Founded
  split
  · exact h.elim
  · trivial

namespace Site.Ready

variable {E : Engine} {s t : Site} {e : Entity} {path : Path}

theorem of_empty (hs : Provided E s) (h : s.store = .empty) : s.Ready E := by
  refine ⟨hs, ?_, h ▸ filled_empty⟩
  rintro n q a hh
  rw [h] at hh
  obtain ⟨r, hr, -⟩ := hh
  cases hr

/-- The path of an entity that the engine resolves leads back to it. -/
theorem entityOf (h : s.Ready E) (hp : E.resolver.resolve e = .ok path) :
    ∃ e, s.backend.resolver.entityOf? path = .ok e := by
  obtain ⟨path', hpath'⟩ := h.provided.resolves e path hp
  obtain rfl : path = path' :=
    (Resolver.eq_path_of_resolve hp).trans (Resolver.eq_path_of_resolve hpath').symm
  exact ⟨e, Resolver.entityOf?_of_resolve hpath'⟩

theorem after (h : s.Ready E) {c : Call} (hc : Founded E (.call c)) : (s.after c).Ready E := by
  refine ⟨⟨?_, ?_, ?_⟩, ?_, ?_⟩
  · rw [after_readOnly]
    exact h.provided.readOnly
  · rw [after_identity]
    exact h.provided.named
  · rw [after_backend]
    exact h.provided.resolves
  · intro n q a hh
    rw [after_backend]
    rcases after_store_eq s c with hsame | ⟨d, rfl, happly⟩
    · rw [hsame] at hh
      exact h.traceable n q a hh
    · rcases d.holds_of_apply happly hh with hh | ⟨actions, rfl⟩
      · exact h.traceable n q a hh
      · obtain ⟨-, e, hp⟩ := hc
        exact h.entityOf hp
  · rcases after_store_eq s c with hsame | ⟨d, rfl, happly⟩
    · rw [hsame]
      exact h.filled
    · refine Backend.Call.apply_filled happly ?_ h.filled
      rintro path role actions rfl
      exact hc.1

end Site.Ready

theorem Kept.ready {E : Engine} {L : Ledger} {s : Site} (h : Kept E L s) : s.Ready E :=
  ⟨h.provided, h.mirrors.traceable h.provided.resolves, h.mirrors.filled⟩

section Reached

variable {τ : Type} [Add τ] [LE τ] [DecidableLE τ] {E : Engine} {w : World Site τ}

/-- Of all requests of the engine only grants matter, and it makes none that is not founded. -/
theorem asks_founded (E : Engine) (errand : Errand) : (errand.task E).Asks (Founded E) := by
  refine Errand.asks (fun q => Reads.founded) fun o _ _ => ?_
  refine asks_perform E (fun q => Common.founded) ?_ fun _ _ => ⟨trivial, trivial⟩
  exact fun e path role actions hp hne => ⟨hne, e, hp⟩

/-- Whatever has been asked of the engine since the backend was empty, and whatever has become of the
remote calls. -/
theorem ready_reached (hs : Provided E w.remote) (hempty : w.remote.store = .empty)
    (history : List (Move τ)) : (Pool.run E history (.idle w)).world.remote.Ready E := by
  have hidle : Pool.Obeys (Founded E) (Site.Ready E) (Pool.idle w) := .idle (.of_empty hs hempty)
  exact (hidle.run (fun c s hc hs => hs.after hc) fun errand _ => asks_founded E errand).site

theorem context_of_answer? {P P' : Pool τ} {fate : Fate} {q : Request Call} {reply : q.Reply}
    (h : P.answer? fate q = some (reply, P')) : P'.world.log.context = P.world.log.context := by
  rcases Pool.world_of_answer? h with hworld | hworld
  · rw [hworld]
  · rw [hworld]
    cases q with
    | call c => exact (call_reply c P.world).2.2
    | chore q => exact (World.chore_beside q P.world).context

theorem context_reached (history : List (Move τ)) (P : Pool τ) :
    (Pool.run E history P).world.log.context = P.world.log.context := by
  induction history generalizing P with
  | nil => rfl
  | cons m rest ih =>
    refine (ih _).trans ?_
    cases m with
    | start errand | wait d => rfl
    | go n fate =>
      show (P.go n fate).world.log.context = _
      rcases Pool.go_cases n fate P with hgo | ⟨q, next, reply, P', -, hanswer, hgo⟩
      · rw [hgo]
      · rw [hgo]
        exact (context_of_answer? hanswer :)

end Reached

/-! ### The work that is done under the lock -/

/-- The operation is a grant of some action or a revocation on the pair. -/
def Operation.WorksOn (pair : Pair) (o : Operation) : Prop :=
  o.pair? = some pair ∧ ∀ e p, o ≠ .grant e p []

section Work

variable {E : Engine} {o : Operation} {pair : Pair} {path : Path} {s t : Site}

/-- Work on a pair comes between two droppings of decisions, is done under the lock of the pair with
requests that are certain to be answered in one way, and has the effect of the operation. -/
theorem work_of_pair (τ : Type) [Add τ] [LE τ] [DecidableLE τ] (ho : o.WorksOn pair)
    (hp : E.resolver.resolve pair.entity = .ok path) :
    ∃ (body : Task String) (failed : Fault → Audit.Event) (succeeded : String → Audit.Event),
      E.perform o = sweeping pair.entity (Procedure.locked pair body) failed succeeded ∧
      body.Asks (Certain (ShadowName E pair)) ∧
      ∀ s : Site, s.Ready E → Succeeds τ body s fun _ t => Alters (Effect E s o) s t := by
  obtain ⟨hpair, hsome⟩ := ho
  cases o with
  | grant e p actions =>
    rw [Operation.pair?] at hpair
    split at hpair
    · cases hpair
    · rename_i hk
      obtain rfl := Option.some.inj hpair
      have hne : Action.distinct actions ≠ [] := by
        intro h
        refine hsome e p (congrArg _ (List.eq_nil_iff_forall_not_mem.mpr fun a ha => ?_))
        rw [← Action.mem_distinct, h] at ha
        cases ha
      have hgrant := grant_of_resolve (p := p) (fun h => hne (List.isEmpty_iff.mp h)) hp
      rw [grantOn, if_neg hk] at hgrant
      refine ⟨_, _, _, hgrant, certain_grantThrough, fun s hs => ?_⟩
      refine Succeeds.mono (succeeds_grantThrough hs.provided.readOnly
        (hs.provided.named_standIns p) hp hk hne) fun _ t ht => ht.mono fun h => ?_
      refine .inr ⟨fun h => hne (by rw [h]; rfl), path, hp, ?_⟩
      exact Gains.congr h (fun n => .rfl) (fun n q a => by rw [Action.mem_distinct]) fun n m => .rfl
  | revoke e p actions =>
    rw [Operation.pair?] at hpair
    split at hpair
    · cases hpair
    · rename_i hk
      obtain rfl := Option.some.inj hpair
      have hrevoke := revoke_of_resolve p actions hp
      rw [revokeOn, if_neg hk] at hrevoke
      refine ⟨_, _, _, hrevoke, certain_revokeThrough, fun s hs => ?_⟩
      refine Succeeds.mono (succeeds_revokeThrough hs.provided.readOnly hs.traceable hs.filled hp hk)
        fun _ t ht => ht.mono fun h => ⟨path, hp, ?_⟩
      exact ⟨h.toSheds.congr fun n q a _ => by rw [Action.mem_distinct], h.collected⟩
  | _ => cases hpair

/-- What works on a pair leaves a site where nothing gets in the way of more work. -/
theorem Site.Ready.of_effect (hs : s.Ready E) (ho : o.WorksOn pair) (ht : Alters (Effect E s o) s t) :
    t.Ready E := by
  have hb : t.backend = s.backend := ht.backend
  refine ⟨hs.provided.of_alters ht, fun n q a hh => ?_, ?_⟩
  · rw [hb]
    cases o with
    | grant e p actions =>
      rcases ht.roles with ⟨-, hsame⟩ | ⟨-, path, hp, hgranted⟩
      · rw [hsame] at hh
        exact hs.traceable n q a hh
      · rcases (hgranted.holds n q a).mp hh with hh | ⟨-, rfl, -⟩
        · exact hs.traceable n q a hh
        · exact hs.entityOf hp
    | revoke e p actions =>
      obtain ⟨path, -, hrevoked⟩ := ht.roles
      exact hs.traceable n q a ((hrevoked.holds n q a).mp hh).1
    | _ => cases ho.1
  · cases o with
    | grant e p actions =>
      rcases ht.roles with ⟨-, hsame⟩ | ⟨-, path, -, hgranted⟩
      · rw [hsame]
        exact hs.filled
      · exact hgranted.filled hs.filled
    | revoke e p actions =>
      obtain ⟨path, -, hrevoked⟩ := ht.roles
      exact hrevoked.filled hs.filled
    | _ => cases ho.1

end Work

end Engine

end Warrant
