import Warrant.Proofs.Coherence

/-!
# One write under two schedules

Enforcements around the remote calls of a write do not change what the write does. Under two
schedules that give its calls the same fates, a write ends alike and sees the same sites
(`Like.write`); the worlds that are left may differ in the cache, the clock and the events.
-/

namespace Warrant.Engine

open World Procedure

variable {τ : Type} [Add τ] [LE τ] [DecidableLE τ] {E : Engine} {w v : World Site τ}

theorem Aside.IsLookup.passes {a : Aside τ} (h : a.IsLookup) (w : World Site τ) :
    (a.play E w).2.remote = w.remote ∧ (a.play E w).2.log.context = w.log.context ∧
      (a.play E w).2.limits = w.limits := by
  cases a with
  | wait d => exact ⟨rfl, rfl, rfl⟩
  | perform o =>
    cases o with
    | enforce e p actions =>
      have hb := (looked_enforce E e p actions w).beside
      exact ⟨hb.remote, hb.context, hb.limits⟩
    | _ => exact absurd trivial h

theorem Scene.playAll_passes {as : List (Aside τ)} (h : ∀ a ∈ as, a.IsLookup) (S : Scene τ) :
    (playAll E as S).world.remote = S.world.remote ∧
      (playAll E as S).world.log.context = S.world.log.context := by
  induction as generalizing S with
  | nil => exact ⟨rfl, rfl⟩
  | cons a as ih =>
    obtain ⟨hr, hc, -⟩ := (h a (List.mem_cons_self ..)).passes (E := E) S.world
    obtain ⟨hr', hc'⟩ := ih (fun b hb => h b (List.mem_cons_of_mem _ hb)) { S with
      world := (a.play E S.world).2
      faults := S.faults ++ faultsOf (a.play E S.world).1 }
    exact ⟨hr'.trans hr, hc'.trans hc⟩

/-- What a call with a fate answers and makes of the site depends on the site and the context. -/
theorem Fate.meet_congr (fate : Fate) (c : Call) (hr : w.remote = v.remote)
    (hc : w.log.context = v.log.context) : (fate.meet c w).1 = (fate.meet c v).1 ∧
      (fate.meet c w).2.remote = (fate.meet c v).2.remote := by
  have hafter : ∀ u : World Site τ, (u.call c).2.remote = u.remote.after c := by
    intro u
    obtain ⟨log, -, hu⟩ := u.call_world c
    rw [hu]
  cases fate with
  | carriedOut => exact ⟨call_congr hr hc, (hafter w).trans (by rw [hr, ← hafter v]; rfl)⟩
  | refused f => exact ⟨rfl, hr⟩
  | cutOff f => exact ⟨rfl, (hafter w).trans (by rw [hr, ← hafter v]; rfl)⟩

/-- Two scenes of one write, with enforcements only around the calls to come, and with the same fates
for them. -/
structure Like (S T : Scene τ) : Prop where
  remote : S.world.remote = T.world.remote
  context : S.world.log.context = T.world.log.context
  since : S.since = T.since
  fates : ∀ n, (S.turns n).fate = (T.turns n).fate
  left : Lookups S.turns
  right : Lookups T.turns

namespace Like

variable {S T : Scene τ} {inside : Cache.Key → Prop}

theorem playAll (h : Like S T) {as bs : List (Aside τ)} (ha : ∀ a ∈ as, a.IsLookup)
    (hb : ∀ b ∈ bs, b.IsLookup) : Like (Scene.playAll E as S) (Scene.playAll E bs T) := by
  obtain ⟨hr, hc⟩ := Scene.playAll_passes (E := E) ha S
  obtain ⟨hr', hc'⟩ := Scene.playAll_passes (E := E) hb T
  obtain ⟨ht, hs, -⟩ := Scene.playAll_fields (E := E) as S
  obtain ⟨ht', hs', -⟩ := Scene.playAll_fields (E := E) bs T
  refine ⟨?_, ?_, ?_, ?_, by rw [ht]; exact h.left, by rw [ht']; exact h.right⟩
  · rw [hr, hr', h.remote]
  · rw [hc, hc', h.context]
  · rw [hs, hs', h.since]
  · rw [ht, ht']; exact h.fates

theorem call (h : Like S T) (c : Call) (fate : Fate) :
    (fate.meet c S.world).1 = (fate.meet c T.world).1 ∧
      Like { S with
        world := (fate.meet c S.world).2
        since := S.since ++ [(fate.meet c S.world).2.remote] } { T with
        world := (fate.meet c T.world).2
        since := T.since ++ [(fate.meet c T.world).2.remote] } := by
  obtain ⟨hreply, hremote⟩ := fate.meet_congr c h.remote h.context
  obtain ⟨-, -, -, -, hc⟩ := fate.meet_world c S.world
  obtain ⟨-, -, -, -, hc'⟩ := fate.meet_world c T.world
  refine ⟨hreply, hremote, ?_, ?_, h.fates, h.left, h.right⟩
  · rw [hc, hc', h.context]
  · rw [hremote, h.since]

/-- Whether an event is recorded depends on the names of its fields only. -/
theorem report (h : Like S T) {e e' : Audit.Event}
    (he : e.fields.map Prod.fst = e'.fields.map Prod.fst) :
    (S.world.log.record e).1 = (T.world.log.record e').1 ∧
      Like (Scene.answer E (.chore (.report e)) S).2 (Scene.answer E (.chore (.report e')) T).2 := by
  refine ⟨?_, h.remote, ?_, h.since, h.fates, h.left, h.right⟩
  · have hclash : S.world.log.context.clash? e = T.world.log.context.clash? e' := by
      rw [Audit.Context.clash?, Audit.Context.clash?, h.context, he]
    rw [Audit.Log.record, Audit.Log.record, hclash]
    cases T.world.log.context.clash? e' <;> rfl
  · exact (S.world.log.context_record e).trans (h.context.trans (T.world.log.context_record e').symm)

theorem answer (h : Like S T) {q : Request Call} (hq : Steps inside q) :
    (Scene.answer E q S).1 = (Scene.answer E q T).1 ∧
      Like (Scene.answer E q S).2 (Scene.answer E q T).2 := by
  cases q with
  | call c =>
    have hl := h.left 0
    have hr := h.right 0
    have hup : Like (Scene.upTo E S) (Scene.upTo E T) := by
      have hlater : Like { S with turns := fun n => S.turns (n + 1) }
          { T with turns := fun n => T.turns (n + 1) } :=
        ⟨h.remote, h.context, h.since, fun n => h.fates (n + 1), fun n => h.left (n + 1),
          fun n => h.right (n + 1)⟩
      exact hlater.playAll (fun a ha => hl a (List.mem_append_left _ ha))
        fun a ha => hr a (List.mem_append_left _ ha)
    obtain ⟨hreply, hcall⟩ := hup.call c (S.turns 0).fate
    rw [Scene.answer_call, Scene.answer_call, ← h.fates 0]
    exact ⟨hreply, hcall.playAll (fun a ha => hl a (List.mem_append_right _ ha))
      fun a ha => hr a (List.mem_append_right _ ha)⟩
  | chore q =>
    cases q with
    | report e => exact h.report rfl
    | acquire | release =>
      exact ⟨rfl, h.remote, h.context, h.since, h.fates, h.left, h.right⟩
    | _ => exact hq.elim

/-- A procedure that leaves the cache alone does the same in both scenes. -/
theorem run (h : Like S T) {α : Type} {p : Task α} (hp : p.Asks (Steps inside)) :
    (Scene.run E p S).1 = (Scene.run E p T).1 ∧ Like (Scene.run E p S).2 (Scene.run E p T).2 := by
  refine Dialogue.Asks.run_alike (L := Like) ?_ hp h
  exact fun q hq S T hST => hST.answer hq

end Like

/-- Two runs end alike, up to what they give when they succeed. -/
def Alike {α : Type} (x y : Except Fault α × Scene τ) : Prop :=
  x.1.map (fun _ => ()) = y.1.map (fun _ => ()) ∧ Like x.2 y.2

theorem Alike.bind {α β : Type} {p q : Task α} {f g : α → Task β} {S T : Scene τ}
    (hp : Alike (Scene.run E p S) (Scene.run E q T))
    (hf : ∀ a b (S T : Scene τ), Like S T → Alike (Scene.run E (f a) S) (Scene.run E (g b) T)) :
    Alike (Scene.run E (p >>= f) S) (Scene.run E (q >>= g) T) := by
  rw [Scene.run_bind, Scene.run_bind]
  cases hS : Scene.run E p S with
  | mk x S' =>
    cases hT : Scene.run E q T with
    | mk y T' =>
      rw [hS, hT] at hp
      cases x with
      | ok a =>
        cases y with
        | ok b => exact hf a b S' T' hp.2
        | error f => cases hp.1
      | error e =>
        cases y with
        | ok b => cases hp.1
        | error f =>
          obtain rfl : e = f := Except.error.inj hp.1
          exact ⟨rfl, hp.2⟩

namespace Like

variable {S T : Scene τ} {inside : Cache.Key → Prop}

theorem bind (h : Like S T) {α β : Type} {p : Task α} {f : α → Task β} (hp : p.Asks (Steps inside))
    (hf : ∀ a (S T : Scene τ), Like S T → Alike (Scene.run E (f a) S) (Scene.run E (f a) T)) :
    Alike (Scene.run E (p >>= f) S) (Scene.run E (p >>= f) T) := by
  obtain ⟨hr, hl⟩ := h.run (E := E) hp
  rw [Scene.run_bind, Scene.run_bind]
  cases hS : Scene.run E p S with
  | mk x S' =>
    cases hT : Scene.run E p T with
    | mk y T' =>
      rw [hS, hT] at hr hl
      obtain rfl : x = y := hr
      cases x with
      | ok a => exact hf a S' T' hl
      | error e => exact ⟨rfl, hl⟩

/-- Dropping decisions ends alike, however many there were. -/
theorem drops (h : Like S T) (scope : Cache.Scope) {e : Nat → Audit.Event}
    (he : ∀ m n, (e m).fields.map Prod.fst = (e n).fields.map Prod.fst) :
    Alike (Scene.run E (ask (.forget scope) >>= fun n => Procedure.report (e n) >>= fun _ => pure n) S)
      (Scene.run E (ask (.forget scope) >>= fun n => Procedure.report (e n) >>= fun _ => pure n) T) := by
  have hdrop : Alike (Scene.run E (ask (.forget scope)) S) (Scene.run E (ask (.forget scope)) T) :=
    ⟨rfl, h.remote, h.context, congrArg (fun s => [s]) h.remote, h.fates, h.left, h.right⟩
  refine hdrop.bind fun m n S T hST => ?_
  obtain ⟨hr, hl⟩ := hST.report (E := E) (he m n)
  exact Alike.bind ⟨congrArg _ hr, hl⟩ fun _ _ S T hST => ⟨rfl, hST⟩

theorem invalidateSubtree (h : Like S T) (e : Entity) :
    Alike (Scene.run E (Cache.invalidateSubtree e : Task Nat) S)
      (Scene.run E (Cache.invalidateSubtree e) T) :=
  h.drops (.subtree e) fun _ _ => rfl

theorem write (h : Like S T) {p : Task Unit} (hp : Shape inside p) :
    Alike (Scene.run E p S) (Scene.run E p T) := by
  cases hp with
  | nothing => exact ⟨rfl, h⟩
  | refused => exact ⟨rfl, h⟩
  | sweeping e body failed succeeded hbody =>
    refine (h.invalidateSubtree e).bind fun _ _ S T hST => ?_
    refine hST.bind (hbody.onFault fun _ => Asks.report trivial) fun a S T hST => ?_
    refine (hST.invalidateSubtree e).bind fun _ _ S T hST => ?_
    exact ⟨congrArg _ (hST.report (E := E) rfl).1, (hST.report rfl).2⟩
  | clearing body c hbody honce =>
    refine h.bind hbody fun _ S T hST => ?_
    exact (hST.drops .everything fun _ _ => rfl).bind fun _ _ S T hST => ⟨rfl, hST⟩
  | harmless body hbody => exact ⟨congrArg _ (h.run hbody).1, (h.run hbody).2⟩

end Like

end Warrant.Engine
