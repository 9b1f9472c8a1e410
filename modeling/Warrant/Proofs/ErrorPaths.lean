import Warrant.Proofs.Keeping
import Warrant.Proofs.Schedules

/-!
# What a write that fails leaves behind

A write that fails may not have dropped decisions after its last change. Enforcements around its
remote calls can then leave a stale decision behind, and they can do so exactly if some verdict has
changed since the write last dropped decisions (`Reached.always_coherent_iff`). The enforcement that does is
placed where the write sees the site with the old verdict (`canShow_write`).
-/

namespace Warrant.Engine

open World Procedure

variable {τ : Type} {E : Engine} {w : World Site τ} {k : Cache.Key}

/-- The turns with the given fates and nothing inside. -/
def bare (fates : Nat → Fate) : Nat → Turn τ := fun n => .bare (fates n)

/-- Nothing happens around the remote calls to come. -/
def Bare (turns : Nat → Turn τ) : Prop := ∀ n, turns n = .bare (turns n).fate

theorem Bare.lookups {turns : Nat → Turn τ} (h : Bare turns) : Lookups turns := by
  intro n a ha
  rw [h n] at ha
  cases ha

variable [Add τ] [LE τ] [DecidableLE τ]

namespace Scene

theorem answer_call_bare {S : Scene τ} {fate : Fate} (h : S.turns 0 = .bare fate) (c : Call) :
    answer E (.call c) S = ((fate.meet c S.world).1, { S with
      world := (fate.meet c S.world).2
      turns := fun n => S.turns (n + 1)
      since := S.since ++ [(fate.meet c S.world).2.remote] }) := by
  rw [answer_call, upTo, h]
  rfl

theorem run_with_turns {α : Type} {p : Task α} (hp : p.Asks fun q => ∀ c, q ≠ .call c)
    (S : Scene τ) (turns : Nat → Turn τ) :
    run E p { S with turns } = ((run E p S).1, { (run E p S).2 with turns }) := by
  have halike : (run E p S).1 = (run E p { S with turns }).1 ∧
      (run E p { S with turns }).2 = { (run E p S).2 with turns } := by
    refine Dialogue.Asks.run_alike (L := fun S T : Scene τ => T = { S with turns }) ?_ hp rfl
    rintro q hq S _ rfl
    cases q with
    | call c => exact absurd rfl (hq c)
    | chore q =>
      cases q with
      | keep k allowed =>
        rw [answer_chore, answer_chore]
        refine ⟨rfl, ?_⟩
        unfold note
        dsimp only
        split <;> rfl
      | _ => exact ⟨rfl, rfl⟩
  exact Prod.ext halike.1.symm halike.2

/-- With nothing around its calls, a procedure that leaves the cache alone leaves the clock alone
too. -/
theorem run_bare {α : Type} {d : Dialogue (Request Call) Request.Reply α}
    {inside : Cache.Key → Prop} (hd : d.Asks (Steps inside)) {S : Scene τ} (hS : Bare S.turns) :
    (d.run (answer E) S).2.world.cache = S.world.cache ∧
      (d.run (answer E) S).2.world.clock = S.world.clock := by
  have hkept : Bare (d.run (answer E) S).2.turns ∧
      (d.run (answer E) S).2.world.cache = S.world.cache ∧
      (d.run (answer E) S).2.world.clock = S.world.clock := by
    refine Dialogue.Asks.run_keeps (I := fun T : Scene τ => Bare T.turns ∧
      T.world.cache = S.world.cache ∧ T.world.clock = S.world.clock) ?_ hd ⟨hS, rfl, rfl⟩
    rintro q hq T ⟨hbare, hcache, hclock⟩
    cases q with
    | call c =>
      obtain ⟨-, hc, -, ht, -⟩ := (T.turns 0).fate.meet_world c T.world
      rw [answer_call_bare (hbare 0)]
      exact ⟨fun n => hbare (n + 1), hc.trans hcache, ht.trans hclock⟩
    | chore q =>
      cases q with
      | report | acquire | release => exact ⟨hbare, hcache, hclock⟩
      | _ => exact hq.elim
  exact hkept.2

/-- The scene holds the decision, and it counts. -/
def Shows (k : Cache.Key) (b : Bool) (S : Scene τ) : Prop :=
  ∃ slot, S.world.Holds k slot ∧ slot.allowed = some b ∧ slot.isExpired S.world.clock = false

/-- The decision of a verdict can be put into the cache by an enforcement with the turns of the
scene. -/
def CanShow (E : Engine) {α : Type} (d : Dialogue (Request Call) Request.Reply α) (k : Cache.Key)
    (b : Bool) (S : Scene τ) : Prop :=
  ∃ turns, (∀ n, (turns n).fate = (S.turns n).fate) ∧ Lookups turns ∧
    Shows k b (d.run (answer E) { S with turns }).2

theorem canShow_now {α : Type} {c : Call} {next : Request.Reply (.call c) → Dialogue (Request Call) Request.Reply α}
    {inside : Cache.Key → Prop} (hd : ∀ a, (next a).Asks (Steps inside)) {S : Scene τ}
    (hS : Bare S.turns) (hk : Keeps E S.world) (hc : E.Checks S.world.remote k.principal) {b : Bool}
    (hb : S.world.remote.verdict E.resolver k = .ok b)
    (hheld : ∀ slot, S.world.Holds k slot → slot.allowed = some b) :
    CanShow E (.ask (.call c) next) k b S := by
  let aside : Aside τ := .perform (.enforce k.entity k.principal [k.action])
  let turns : Nat → Turn τ := fun n => match n with
    | 0 => ⟨[aside], (S.turns 0).fate, []⟩
    | n + 1 => S.turns (n + 1)
  obtain ⟨slot, hslot, ha, hx⟩ := hk.enforce hc hb hheld
  have hclock := (looked_enforce E k.entity k.principal [k.action] S.world).beside.clock
  obtain ⟨-, hcache', -, hclock', -⟩ := (S.turns 0).fate.meet_world c
    (World.run (E.enforce k.entity k.principal [k.action]) S.world).2
  -- the enforcement is all that happens around the calls, so what it keeps stays
  let T : Scene τ := (answer E (.call c) { S with turns }).2
  have hT : Bare T.turns := fun n => hS (n + 1)
  obtain ⟨hcache, hclock''⟩ := run_bare (E := E) (hd (answer E (.call c) { S with turns }).1) hT
  refine ⟨turns, fun n => by cases n <;> rfl, fun n a ha => ?_, slot, ?_, ha, ?_⟩
  · cases n with
    | zero =>
      obtain rfl : a = aside := by simpa [turns] using ha
      exact id
    | succ n => exact hS.lookups (n + 1) a ha
  · rw [Holds]
    exact (congrArg (fun c : Cache τ => c.slots.get? k) (hcache.trans hcache')).trans hslot
  · rw [← hx]
    exact congrArg slot.isExpired (hclock''.trans (hclock'.trans hclock))

/-- What can be shown from a call on can be shown with nothing around that call. -/
theorem CanShow.of_call {α : Type} {c : Call}
    {next : Request.Reply (.call c) → Dialogue (Request Call) Request.Reply α} {S T : Scene τ}
    {b : Bool} (hS : Bare S.turns)
    (hT : answer E (.call c) S = (((S.turns 0).fate.meet c S.world).1, T))
    (h : CanShow E (next ((S.turns 0).fate.meet c S.world).1) k b T) :
    CanShow E (.ask (.call c) next) k b S := by
  obtain ⟨later, hf, hl, hs⟩ := h
  rw [answer_call_bare (hS 0)] at hT
  obtain rfl := (Prod.mk.inj hT).2
  let turns : Nat → Turn τ := fun n => match n with
    | 0 => .bare (S.turns 0).fate
    | n + 1 => later n
  refine ⟨turns, fun n => ?_, fun n => ?_, ?_⟩
  · cases n with
    | zero => rfl
    | succ n => exact hf n
  · cases n with
    | zero => exact fun a ha => by cases ha
    | succ n => exact hl n
  · have hbare : turns 0 = .bare (S.turns 0).fate := rfl
    have hstep := answer_call_bare (E := E) (S := { S with turns }) hbare c
    show Shows k b ((next (answer E (.call c) { S with turns }).1).run (answer E)
      (answer E (.call c) { S with turns }).2).2
    rw [hstep]
    exact hs

/-- A chore that leaves the cache alone. -/
structure Idle (E : Engine) (q : Chore) (S : Scene τ) : Prop where
  turns : (answer E (.chore q) S).2.turns = S.turns
  since : (answer E (.chore q) S).2.since = S.since
  cache : (answer E (.chore q) S).2.world.cache = S.world.cache
  beside : Beside S.world (answer E (.chore q) S).2.world
  any : ∀ turns, answer E (.chore q) { S with turns } =
    ((answer E (.chore q) S).1, { (answer E (.chore q) S).2 with turns })

theorem idle_of_steps {q : Chore} {inside : Cache.Key → Prop} (hq : Steps inside (.chore q))
    (S : Scene τ) : Idle E q S := by
  have hb := chore_beside q S.world
  cases q with
  | report | acquire | release => exact ⟨rfl, rfl, rfl, hb, fun _ => rfl⟩
  | _ => exact hq.elim

theorem CanShow.of_chore {α : Type} {q : Chore}
    {next : Request.Reply (.chore q) → Dialogue (Request Call) Request.Reply α} {S : Scene τ}
    {b : Bool} (hq : Idle E q S)
    (h : CanShow E (next (answer E (.chore q) S).1) k b (answer E (.chore q) S).2) :
    CanShow E (.ask (.chore q) next) k b S := by
  obtain ⟨turns, hf, hl, hs⟩ := h
  refine ⟨turns, by rwa [hq.turns] at hf, hl, ?_⟩
  show Shows k b ((next (answer E (.chore q) { S with turns }).1).run (answer E)
    (answer E (.chore q) { S with turns }).2).2
  rw [hq.any]
  exact hs

/-- Every site that a procedure sees and leaves behind with another verdict can be shown. -/
theorem canShow {α : Type} {d : Dialogue (Request Call) Request.Reply α} {inside : Cache.Key → Prop}
    (hd : d.Asks (Steps inside)) {S : Scene τ} (hS : Bare S.turns) (hk : Keeps E S.world) :
    ∃ seen, (d.run (answer E) S).2.since = S.since ++ seen ∧
      ∀ m, m = S.world.remote ∨ m ∈ seen → ∀ k b, E.Checks m k.principal →
        m.verdict E.resolver k = .ok b → (∀ slot, S.world.Holds k slot → slot.allowed = some b) →
        m = (d.run (answer E) S).2.world.remote ∨ CanShow E d k b S := by
  induction d generalizing S with
  | done a =>
    refine ⟨[], (List.append_nil _).symm, fun m hm k b _ _ _ => .inl ?_⟩
    exact hm.elim id fun hm => by cases hm
  | ask q next ih =>
    cases q with
    | chore q =>
      have hidle : Idle E q S := idle_of_steps hd.1 S
      obtain ⟨seen, hseen, hshow⟩ := ih (answer E (.chore q) S).1 (hd.2 _)
        (by rw [hidle.turns]; exact hS) (hk.of_beside hidle.beside)
      refine ⟨seen, hseen.trans (by rw [hidle.since]), fun m hm k b hc hb hheld => ?_⟩
      rw [← hidle.beside.remote] at hm
      have hheld' : ∀ slot, (answer E (.chore q) S).2.world.Holds k slot → slot.allowed = some b :=
        fun slot hs => hheld slot (by rwa [Holds, hidle.cache] at hs)
      exact (hshow m hm k b hc hb hheld').imp id (.of_chore hidle)
    | call c =>
      obtain ⟨-, hcache, hlimits, -, hcontext⟩ := (S.turns 0).fate.meet_world c S.world
      let T : Scene τ := { S with
        world := ((S.turns 0).fate.meet c S.world).2
        turns := fun n => S.turns (n + 1)
        since := S.since ++ [((S.turns 0).fate.meet c S.world).2.remote] }
      have hstep : answer E (.call c) S = (((S.turns 0).fate.meet c S.world).1, T) :=
        answer_call_bare (hS 0) c
      have hrun : (Dialogue.ask (.call c) next).run (answer E) S =
          (next ((S.turns 0).fate.meet c S.world).1).run (answer E) T := by
        show (next (answer E (.call c) S).1).run (answer E) (answer E (.call c) S).2 = _
        rw [hstep]
      obtain ⟨seen, hseen, hshow⟩ := ih ((S.turns 0).fate.meet c S.world).1 (hd.2 _)
        (S := T) (fun n => hS (n + 1)) (hk.congr hlimits hcontext)
      refine ⟨T.world.remote :: seen, ?_, fun m hm k b hc hb hheld => ?_⟩
      · rw [hrun, hseen]
        exact List.append_assoc ..
      · rcases hm with rfl | hm
        · -- the site before the call: ask just before it
          exact .inr (canShow_now hd.2 hS hk hc hb hheld)
        · -- a later site: leave this call alone
          have hheld' : ∀ slot, T.world.Holds k slot → slot.allowed = some b :=
            fun slot hs => hheld slot (by rwa [Holds, hcache] at hs)
          rw [hrun]
          exact (hshow m (List.mem_cons.mp hm) k b hc hb hheld').imp id (.of_call hS hstep)

end Scene

section

variable {α : Type} {inside : Cache.Key → Prop} {S S₁ S₂ : Scene τ} {m : Site} {b : Bool}

/-- Of a procedure that starts where decisions were dropped, every site seen is the one that is left
or can be shown. -/
theorem canShow_of_mem {p : Task α} (hp : p.Asks (Steps inside)) (hS : Bare S.turns)
    (hsince : S.since = [S.world.remote]) (hk : Keeps E S.world) (hm : m ∈ (Scene.run E p S).2.since)
    (hc : E.Checks m k.principal) (hb : m.verdict E.resolver k = .ok b)
    (hheld : ∀ slot, S.world.Holds k slot → slot.allowed = some b) :
    m = (Scene.run E p S).2.world.remote ∨ Scene.CanShow E (ExceptT.run p) k b S := by
  obtain ⟨seen, hseen, hshow⟩ := Scene.canShow (E := E) hp hS hk
  refine hshow m ?_ k b hc hb hheld
  rw [show (Scene.run E p S).2.since = S.since ++ seen from hseen, hsince] at hm
  exact List.mem_cons.mp hm

theorem fails_with_turns {p : Task α} (hp : p.Asks (Steps inside)) {f : Fault}
    (h : Scene.run E p S = (.error f, S₁)) (hS : Bare S.turns) {turns : Nat → Turn τ}
    (hf : ∀ n, (turns n).fate = (S.turns n).fate) (hl : Lookups turns) :
    (Scene.run E p { S with turns }).1 = .error f := by
  have hlike : Like S { S with turns } := ⟨rfl, rfl, rfl, fun n => (hf n).symm, hS.lookups, hl⟩
  rw [← (hlike.run hp).1, h]

/-- Something that fails after the decisions on an entity were dropped can leave behind any verdict
that it has seen since. -/
theorem canShow_sweeping {e : Entity} {body : Task α} {failed : Fault → Audit.Event}
    {succeeded : α → Audit.Event} (hbody : body.Asks (Steps (Below e))) (hS : Bare S.turns)
    (hk : Keeps E S.world) (hin : Below e k) {n : Nat} {f : Fault}
    (hfirst : Scene.run E (Cache.invalidateSubtree e) S = (.ok n, S₁))
    (hmiddle : Scene.run E (body.onFault fun f => report (failed f)) S₁ = (.error f, S₂))
    (hm : m ∈ S₂.since) (hc : E.Checks m k.principal) (hb : m.verdict E.resolver k = .ok b) :
    m = S₂.world.remote ∨
      Scene.CanShow E (ExceptT.run (sweeping e body failed succeeded)) k b S := by
  have hguarded : (body.onFault fun f => report (failed f)).Asks (Steps (Below e)) :=
    hbody.onFault fun _ => Asks.report trivial
  have hquiet := Scene.run_of_asksOnce (E := E) (asksOnce_invalidateSubtree e) S
  rw [hfirst] at hquiet
  have hbare : Bare S₁.turns := by rw [hquiet.turns]; exact hS
  have hbeside : Beside S.world S₁.world :=
    (chore_beside (.forget (.subtree e)) S.world).trans hquiet.beside
  -- nothing is held on the key once its decisions have been dropped
  have hheld : ∀ slot, S₁.world.Holds k slot → slot.allowed = some b := by
    intro slot hslot
    rw [Holds, hquiet.cache] at hslot
    have hout := (Cache.get?_forget.mp hslot).2
    rw [show (Cache.Scope.subtree e).covers k = true from hin] at hout
    cases hout
  have hshown := canShow_of_mem (m := m) hguarded hbare
    (since_of_drops (asksOnce_invalidateSubtree e) hfirst) (hk.of_beside hbeside)
    (by rw [hmiddle]; exact hm) hc hb hheld
  rw [hmiddle] at hshown
  refine hshown.imp id ?_
  rintro ⟨turns, hf, hl, hs⟩
  refine ⟨turns, by rwa [hquiet.turns] at hf, hl, ?_⟩
  have hfirst' : Scene.run E (Cache.invalidateSubtree e) { S with turns } =
      (.ok n, { S₁ with turns }) := by
    rw [Scene.run_with_turns, hfirst]
    exact asks_invalidateSubtree (fun c h => by cases h) fun event c h => by cases h
  show Scene.Shows k b (Scene.run E (sweeping e body failed succeeded) { S with turns }).2
  rw [sweeping, Scene.run_bind_of_ok hfirst',
    Scene.run_bind_of_error (fails_with_turns hguarded hmiddle hbare hf hl)]
  exact hs

/-- A change of one role that fails before all decisions are dropped can leave behind the verdict
before it. -/
theorem canShow_clearing {body : Task Unit} {c : Call}
    (hbody : body.Asks (Steps fun _ => True)) (honce : AsksOnce (.call c) body) (hS : Bare S.turns)
    (hsince : S.since = [S.world.remote]) (hw : Settled E S.world) (hk : Keeps E S.world) {f : Fault}
    (hfirst : Scene.run E body S = (.error f, S₁)) (hm : m ∈ S₁.since)
    (hc : E.Checks m k.principal) (hb : m.verdict E.resolver k = .ok b) :
    m = S₁.world.remote ∨ Scene.CanShow E (ExceptT.run (clearing body)) k b S := by
  have hquiet := Scene.run_of_asksOnce (E := E) honce S
  rw [Scene.answer_call_bare (hS 0), hfirst] at hquiet
  -- the one call parts the site before it from the one that is left
  have hmem : m = S.world.remote ∨ m = S₁.world.remote := by
    rw [hquiet.since, hsince] at hm
    rw [hquiet.beside.remote]
    simpa using hm
  rcases hmem with rfl | hm'
  · have hheld : ∀ slot, S.world.Holds k slot → slot.allowed = some b := by
      intro slot hslot
      obtain ⟨b', ha, hb'⟩ := Site.backs_iff.mp (hw.right k slot hslot).2
      rw [hb] at hb'
      rw [ha, Except.ok.inj hb']
    have hshown := canShow_of_mem hbody hS hsince hk (by rw [hfirst]; exact hm) hc hb hheld
    rw [hfirst] at hshown
    refine hshown.imp id ?_
    rintro ⟨turns, hf, hl, hs⟩
    refine ⟨turns, hf, hl, ?_⟩
    show Scene.Shows k b (Scene.run E (clearing body) { S with turns }).2
    rw [clearing, Scene.run_bind_of_error (fails_with_turns hbody hfirst hS hf hl)]
    exact hs
  · exact .inl hm'

/-- A write can be made to leave any verdict behind that has changed since it last dropped
decisions. -/
theorem canShow_write {p : Task Unit} (hp : Shape inside p) (hS : Bare S.turns)
    (hsince : S.since = [S.world.remote]) (hw : Settled E S.world) (hk : Keeps E S.world)
    (hm : m ∈ (Scene.run E p S).2.since) (hc : E.Checks m k.principal)
    (hb : m.verdict E.resolver k = .ok b) :
    m.verdict E.resolver k = (Scene.run E p S).2.world.remote.verdict E.resolver k ∨
      Scene.CanShow E (ExceptT.run p) k b S := by
  have hT : Tracked E inside (Right E) (Scene.run E p S).2 := by
    refine Tracked.run ?_ (right_congruent E) hp.asks
    have hstart := hw.tracked hS.lookups inside S.late
    exact ⟨by rw [hsince]; exact hstart.present, by rw [hsince]; exact hstart.agrees,
      by rw [hsince]; exact hstart.holds, hstart.confined, hstart.harmless⟩
  have hone : ∀ T : Scene τ, T.since = [T.world.remote] → m ∈ T.since →
      m.verdict E.resolver k = T.world.remote.verdict E.resolver k := by
    intro T hsince hm
    rw [hsince] at hm
    rw [List.mem_singleton.mp hm]
  by_cases hin : inside k
  · cases hp with
    | nothing => exact .inl (hone S hsince hm)
    | refused => exact .inl (hone S hsince hm)
    | harmless body hbody => exact hin.elim
    | sweeping e body failed succeeded hbody =>
      rw [sweeping] at hm ⊢
      rcases Scene.run_bind_cases (E := E) _ _ S with ⟨n, S₁, hfirst, hrun⟩ | ⟨f, S₁, hfirst, hrun⟩
      · rw [hrun] at hm ⊢
        rcases Scene.run_bind_cases (E := E) _ _ S₁ with ⟨a, S₂, -, hrun⟩ | ⟨f, S₂, hmiddle, hrun⟩
        · -- decisions have been dropped once more
          rw [hrun] at hm ⊢
          exact .inl (hone _ (since_of_drops
            ((asksOnce_invalidateSubtree e).bind fun _ => Asks.report trivial) rfl) hm)
        · rw [hrun] at hm ⊢
          refine (canShow_sweeping hbody hS hk hin hfirst hmiddle hm hc hb).imp ?_ id
          exact fun hm => congrArg (fun s : Site => s.verdict E.resolver k) hm
      · rw [hrun] at hm ⊢
        exact .inl (hone S₁ (since_of_drops (asksOnce_invalidateSubtree e) hfirst) hm)
    | clearing body c hbody honce =>
      rw [clearing] at hm ⊢
      rcases Scene.run_bind_cases (E := E) body _ S with ⟨a, S₁, -, hrun⟩ | ⟨f, S₁, hfirst, hrun⟩
      · rw [hrun] at hm ⊢
        exact .inl (hone _ (since_of_drops (asksOnce_clear.bind fun _ => Asks.pure _) rfl) hm)
      · rw [hrun] at hm ⊢
        refine (canShow_clearing hbody honce hS hsince hw hk hfirst hm hc hb).imp ?_ id
        exact fun hm => congrArg (fun s : Site => s.verdict E.resolver k) hm
  · exact .inl ((hT.agrees m hm).verdict k hin)

end

theorem Site.verdict_error {m m' : Site} {r : Resolver} {f : Fault} (hb : m.backend = m'.backend)
    (h : m.verdict r k = .error f) : m'.verdict r k = .error f := by
  rw [verdict] at h ⊢
  cases hp : r.resolve k.entity with
  | error e => rwa [hp] at h
  | ok path =>
    rw [hp] at h
    have hauth : (Backend.authorizes m.backend k.principal path k.action m.store).mapError
        Fault.malformed = .error f := h
    show (Backend.authorizes m'.backend k.principal path k.action m'.store).mapError
      Fault.malformed = .error f
    rw [← hb]
    rcases Backend.authorizes_cases m.backend k.principal path k.action with ⟨e, he⟩ | hall
    · rw [he] at hauth ⊢
      exact hauth
    · obtain ⟨b, hok, -⟩ := hall m.store
      rw [hok] at hauth
      cases hauth

/-- Whatever is looked up around its remote calls, a write with the given fates leaves nothing stale
behind, if and only if all the sites that it has seen since it last dropped decisions decide like the
one that is left. -/
theorem Reached.always_coherent_iff (hr : Reached E w) (hk : Keeps E w) {o : Operation} (hw : o.IsWrite)
    (hh : o.Honest) (fates : Nat → Fate) :
    (∀ turns, (∀ n, (turns n).fate = fates n) → Lookups turns →
      Coherent E (E.play o turns [] w).2.world) ↔
    ∀ m ∈ (E.play o (bare fates) [] w).2.since, ∀ k, E.Checks m k.principal →
      m.verdict E.resolver k = (E.play o (bare fates) [] w).2.world.remote.verdict E.resolver k := by
  have hshape := shape_perform E hw hh
  have hbare : Bare (bare fates : Nat → Turn τ) := fun _ => rfl
  have hlike : ∀ {turns : Nat → Turn τ}, (∀ n, (turns n).fate = fates n) → Lookups turns →
      Like (E.play o turns [] w).2 (E.play o (bare fates) [] w).2 := fun {turns} hf hl =>
    (Like.write (E := E) (S := ⟨w, turns, [w.remote], [], []⟩)
      (T := ⟨w, bare fates, [w.remote], [], []⟩) ⟨rfl, rfl, rfl, hf, hl, hbare.lookups⟩ hshape).2
  constructor
  · intro hall m hm k hc
    have hT := (hr.settled.tracked hbare.lookups o.Drops []).run (right_congruent E) hshape.asks
    cases hb : m.verdict E.resolver k with
    | error f => exact (Site.verdict_error (hT.agrees m hm).backend hb).symm
    | ok b =>
      rcases canShow_write hshape (S := ⟨w, bare fates, [w.remote], [], []⟩) hbare rfl hr.settled hk
        hm hc hb with heq | ⟨turns, hf, hl, slot, hslot, ha, hx⟩
      · rw [← hb]; exact heq
      · obtain ⟨b', ha', hb'⟩ := hall turns hf hl k slot hslot hx
        obtain rfl : b = b' := by rw [ha] at ha'; exact Option.some.inj ha'
        rw [(hlike hf hl).remote] at hb'
        exact hb'.symm
  · intro hall turns hf hl k slot hslot _
    have hT := (hr.settled.tracked hl o.Drops []).run (right_congruent E) hshape.asks
    obtain ⟨m, hm, hc, hs⟩ := hT.holds k slot hslot
    rw [show (Scene.run E (E.perform o) ⟨w, turns, [w.remote], [], []⟩).2.since = _ from
      (hlike hf hl).since] at hm
    obtain ⟨b, ha, hb⟩ := Site.backs_iff.mp hs
    refine ⟨b, ha, ?_⟩
    rw [(hlike hf hl).remote, ← hall m hm k hc, hb]

namespace Sample

/-- Ada herself has been granted to read. -/
def trusted : World Site Nat := (World.run (engine.perform (.grant root ada [.read])) start).2

theorem reached_trusted : Reached engine trusted := by
  have hstart : Reached engine start := .new _ _ _ site rfl
  have htrusted : World.run (engine.perform (.grant root ada [.read])) start = (.ok (), trusted) :=
    eq_of_isOk (by decide +kernel)
  exact hstart.alone (.grant root ada [.read]) trivial (fun _ => by decide +kernel) htrusted

theorem keeps_trusted : Keeps engine trusted := by
  have hroom : trusted.limits.maxEntries = 10 := by decide +kernel
  have hlifetime : trusted.limits.lifetime = 5 := by decide +kernel
  have hcontext : trusted.log.context = .empty := by decide +kernel
  refine ⟨rfl, by omega, fun t => ?_, fun k => ?_, fun p path a granted => ?_⟩
  · rw [hlifetime]
    omega
  · rw [hcontext]
    exact Audit.Context.quiet_empty _
  · rw [hcontext]
    exact Audit.Context.quiet_empty _

/-- A revocation all of whose calls are carried out leaves nothing stale behind when Ada asks around
them. -/
theorem coherent_after_revoke :
    Coherent engine (engine.play (.revoke root ada [.read]) around [] trusted).2.world := by
  have hhonest : (Operation.revoke root ada [.read]).Honest := fun _ => by decide +kernel
  have hshape := shape_perform engine (o := .revoke root ada [.read]) trivial hhonest
  let quiet : Nat → Turn Nat := bare fun _ => .carriedOut
  have hquiet : Lookups quiet := fun n a ha => by cases ha
  have hok := eq_of_isOk (x := engine.play (.revoke root ada [.read]) quiet [] trusted)
    (by decide +kernel)
  have hT := (reached_trusted.settled.tracked hquiet (Below root) []).run (right_congruent engine)
    hshape.asks
  refine (Reached.always_coherent_iff (o := .revoke root ada [.read]) reached_trusted keeps_trusted
    trivial hhonest fun _ => .carriedOut).mpr (fun m hm k _ => ?_) around (fun _ => rfl) lookups_around
  exact alike_of_ok hshape rfl hT hok hm k

/-- The first call is carried out, the second one fails. -/
def outage : Nat → Fate
  | 1 => .refused (.backendUnavailable "down")
  | _ => .carriedOut

/-- Ada asks just before the revocation, which then fails to list what is left. -/
def askedFirst : Nat → Turn Nat
  | 0 => ⟨[asking], outage 0, []⟩
  | n + 1 => .bare (outage (n + 1))

/-- A revocation that fails after it has taken effect. -/
def cutShort : Scene Nat := (engine.play (.revoke root ada [.read]) askedFirst [] trusted).2

/-- A revocation that fails once it has taken effect leaves behind what was decided before it. -/
theorem stale_after_failure : Reached engine trusted ∧ Lookups askedFirst ∧
    ¬ Coherent engine cutShort.world ∧
    cutShort.world.remote.backs engine.resolver ⟨ada, root, .read⟩ (some false) = true ∧
    (World.run (engine.enforce root ada [.read]) cutShort.world).1.isOk = true := by
  refine ⟨reached_trusted, fun n a ha => ?_, not_coherent ⟨ada, root, .read⟩
    ⟨some true, 5⟩ (by decide +kernel) (by decide +kernel) (by decide +kernel),
    by decide +kernel, by decide +kernel⟩
  cases n with
  | zero =>
    obtain rfl : a = asking := by simpa [askedFirst] using ha
    exact id
  | succ n => cases ha

end Sample

end Warrant.Engine
