import Warrant.Proofs.Writes

/-!
# A write sweeps what may have gone stale

While a write runs, every decision that the cache holds is sound at one of the sites that the write
has seen since it last dropped decisions, and off the keys that it drops all those sites decide alike
(`Tracked`). Once those sites decide alike on every key, as they do when the write has succeeded
(`alike_of_ok`), every held decision is sound at the site that is left.
-/

namespace Warrant.Engine

open World

variable {τ : Type} {E : Engine} {inside : Cache.Key → Prop}
  {Sound : Site → Cache.Key → Cache.Slot τ → Prop}

/-- Whether a held decision is sound at a site depends on the verdict and the groups there only. -/
def Congruent (E : Engine) (Sound : Site → Cache.Key → Cache.Slot τ → Prop) : Prop :=
  ∀ ⦃m m' k slot⦄, m.identity = m'.identity → m.verdict E.resolver k = m'.verdict E.resolver k →
    Sound m k slot → Sound m' k slot

/-- The decision is held in the world, on a key on which the site decides like the one there. -/
def Unmoved (E : Engine) (w : World Site τ) (m : Site) (k : Cache.Key) (slot : Cache.Slot τ) : Prop :=
  w.Holds k slot ∧ w.remote.verdict E.resolver k = m.verdict E.resolver k

theorem unmoved_congruent (w : World Site τ) : Congruent E (Unmoved E w) :=
  fun _ _ _ _ _ hv hk => ⟨hk.1, hk.2.trans hv⟩

/-- The second world has the site of the first one and holds sound decisions besides those held
before. -/
structure Adds (Sound : Site → Cache.Key → Cache.Slot τ → Prop) (w v : World Site τ) : Prop where
  remote : v.remote = w.remote
  holds : ∀ k slot, v.Holds k slot → w.Holds k slot ∨ Sound w.remote k slot

theorem Adds.refl (w : World Site τ) : Adds Sound w w := ⟨rfl, fun _ _ => .inl⟩

theorem Adds.trans {u v w : World Site τ} (h : Adds Sound u v) (h' : Adds Sound v w) :
    Adds Sound u w := by
  refine ⟨h'.remote.trans h.remote, fun k slot hk => ?_⟩
  rcases h'.holds k slot hk with hk | hk
  · exact h.holds k slot hk
  · exact .inr (h.remote ▸ hk)

variable [Add τ] [LE τ] [DecidableLE τ]

/-- The asides add nothing but sound decisions. -/
def Harmless (E : Engine) (Sound : Site → Cache.Key → Cache.Slot τ → Prop) (as : List (Aside τ)) :
    Prop := ∀ a ∈ as, ∀ w, Adds Sound w (a.play E w).2

/-- The scene of a write that changes verdicts on the keys inside only. -/
structure Tracked (E : Engine) (inside : Cache.Key → Prop)
    (Sound : Site → Cache.Key → Cache.Slot τ → Prop) (S : Scene τ) : Prop where
  present : S.world.remote ∈ S.since
  agrees : ∀ m ∈ S.since, Site.AgreesOff E.resolver inside m S.world.remote
  holds : ∀ k slot, S.world.Holds k slot → ∃ m ∈ S.since, Sound m k slot
  confined : S.world.remote.store.Confined
  harmless : ∀ n, Harmless E Sound (S.turns n).before ∧ Harmless E Sound (S.turns n).after

namespace Scene

/-- Asides leave everything in a scene as it is but the world and the faults. -/
theorem playAll_fields (as : List (Aside τ)) (S : Scene τ) : (playAll E as S).turns = S.turns ∧
    (playAll E as S).since = S.since ∧ (playAll E as S).late = S.late := by
  induction as generalizing S with
  | nil => exact ⟨rfl, rfl, rfl⟩
  | cons a as ih => exact ih _

theorem adds_playAll {as : List (Aside τ)} (h : Harmless E Sound as) (S : Scene τ) :
    Adds Sound S.world (playAll E as S).world := by
  induction as generalizing S with
  | nil => exact .refl _
  | cons a as ih =>
    have hrest := ih (fun b hb => h b (by simp [hb])) { S with
      world := (a.play E S.world).2
      faults := S.faults ++ faultsOf (a.play E S.world).1 }
    exact (h a (by simp) S.world).trans hrest

end Scene

/-- Whatever its fate, a call leaves the cache alone and the site as before or as it makes it. -/
theorem Fate.meet_world (fate : Fate) (c : Call) (w : World Site τ) :
    ((fate.meet c w).2.remote = w.remote ∨ (fate.meet c w).2.remote = w.remote.after c) ∧
      (fate.meet c w).2.cache = w.cache ∧ (fate.meet c w).2.limits = w.limits ∧
      (fate.meet c w).2.clock = w.clock ∧ (fate.meet c w).2.log.context = w.log.context := by
  obtain ⟨log, hlog, hw⟩ := w.call_world c
  cases fate with
  | carriedOut | cutOff f =>
    unfold meet
    dsimp only
    rw [hw]
    exact ⟨.inr rfl, rfl, rfl, rfl, hlog⟩
  | refused f => exact ⟨.inl rfl, rfl, rfl, rfl, rfl⟩

namespace Tracked

variable {S : Scene τ}

theorem playAll (h : Tracked E inside Sound S) {as : List (Aside τ)} (ha : Harmless E Sound as) :
    Tracked E inside Sound (Scene.playAll E as S) := by
  obtain ⟨hturns, hsince, -⟩ := Scene.playAll_fields (E := E) as S
  obtain ⟨hr, hadds⟩ := Scene.adds_playAll ha S
  refine ⟨?_, ?_, fun k slot hk => ?_, ?_, ?_⟩
  · rw [hsince, hr]; exact h.present
  · rw [hsince, hr]; exact h.agrees
  · rw [hsince]
    rcases hadds k slot hk with hk | hk
    · exact h.holds k slot hk
    · exact ⟨_, h.present, hk⟩
  · rw [hr]; exact h.confined
  · rw [hturns]; exact h.harmless

theorem call (h : Tracked E inside Sound S) {c : Call} (hc : c.Within inside) (fate : Fate) :
    Tracked E inside Sound { S with
      world := (fate.meet c S.world).2
      since := S.since ++ [(fate.meet c S.world).2.remote] } := by
  obtain ⟨hr, hcache, -⟩ := fate.meet_world c S.world
  have hagrees : Site.AgreesOff E.resolver inside S.world.remote (fate.meet c S.world).2.remote := by
    rcases hr with hr | hr <;> rw [hr]
    · exact .refl _ _ _
    · exact Site.after_agreesOff h.confined hc
  refine ⟨by simp, fun m hm => ?_, fun k slot hk => ?_, ?_, h.harmless⟩
  · rcases List.mem_append.mp hm with hm | hm
    · exact (h.agrees m hm).trans hagrees
    · rw [List.mem_singleton.mp hm]
      exact .refl _ _ _
  · obtain ⟨m, hm, hs⟩ := h.holds k slot (by rwa [Holds, hcache] at hk)
    exact ⟨m, List.mem_append_left _ hm, hs⟩
  · rcases hr with hr | hr
    · exact (congrArg (fun s : Site => s.store.Confined) hr).mpr h.confined
    · exact (congrArg (fun s : Site => s.store.Confined) hr).mpr (Site.after_confined h.confined hc)

/-- Dropping the decisions on the keys inside leaves sound ones only. -/
theorem forget (h : Tracked E inside Sound S) (hs : Congruent E Sound) {scope : Cache.Scope}
    (hscope : ∀ k, scope.covers k = true ↔ inside k) :
    Tracked E inside Sound (Scene.answer E (.chore (.forget scope)) S).2 := by
  refine ⟨List.mem_singleton_self _, fun m hm => ?_, fun k slot hk => ?_, h.confined, h.harmless⟩
  · rw [List.mem_singleton.mp hm]
    exact .refl _ _ _
  · obtain ⟨hk, hout⟩ := Cache.get?_forget.mp hk
    obtain ⟨m, hm, hsound⟩ := h.holds k slot hk
    have hk : ¬ inside k := fun hk => by rw [(hscope k).mpr hk] at hout; cases hout
    exact ⟨_, List.mem_singleton_self _,
      hs (h.agrees m hm).identity ((h.agrees m hm).verdict k hk) hsound⟩

theorem answer (h : Tracked E inside Sound S) (hs : Congruent E Sound) {q : Request Call}
    (hq : Sweeps inside q) : Tracked E inside Sound (Scene.answer E q S).2 := by
  cases q with
  | call c =>
    have hlater : Tracked E inside Sound { S with turns := fun n => S.turns (n + 1) } :=
      ⟨h.present, h.agrees, h.holds, h.confined, fun n => h.harmless (n + 1)⟩
    have hup : Tracked E inside Sound (Scene.upTo E S) := hlater.playAll (h.harmless 0).1
    rw [Scene.answer_call]
    exact (hup.call hq _).playAll (h.harmless 0).2
  | chore q =>
    cases q with
    | forget scope => exact h.forget hs hq
    | report | acquire | release =>
      exact ⟨h.present, h.agrees, h.holds, h.confined, h.harmless⟩
    | find | keep => exact hq.elim

theorem run (h : Tracked E inside Sound S) (hs : Congruent E Sound) {α : Type} {p : Task α}
    (hp : p.Asks (Sweeps inside)) : Tracked E inside Sound (Scene.run E p S).2 := by
  refine Dialogue.Asks.run_keeps (I := Tracked E inside Sound) ?_ hp h
  exact fun q hq T hT => hT.answer hs hq

end Tracked

/-! ### The end of a write -/

theorem Tracked.sound {S : Scene τ} (h : Tracked E inside Sound S) (hs : Congruent E Sound)
    (halike : ∀ m ∈ S.since, ∀ k,
      m.verdict E.resolver k = S.world.remote.verdict E.resolver k) {k : Cache.Key}
    {slot : Cache.Slot τ} (hk : S.world.Holds k slot) : Sound S.world.remote k slot := by
  obtain ⟨m, hm, hsound⟩ := h.holds k slot hk
  exact hs (h.agrees m hm).identity (halike m hm k) hsound

namespace Scene

theorem ok_of_run_bind {α β : Type} {p : Task α} {f : α → Task β} {S T : Scene τ} {b : β}
    (h : run E (p >>= f) S = (.ok b, T)) :
    ∃ a U, run E p S = (.ok a, U) ∧ run E (f a) U = (.ok b, T) := by
  rcases run_bind_cases p f S with ⟨a, U, hp, hrun⟩ | ⟨e, U, hp, hrun⟩
  · exact ⟨a, U, hp, hrun.symm.trans h⟩
  · rw [hrun] at h
    cases h

/-- What only reports leaves a scene as it is but for the events. -/
structure Quieter (S T : Scene τ) : Prop where
  beside : Beside S.world T.world
  cache : T.world.cache = S.world.cache
  turns : T.turns = S.turns
  since : T.since = S.since

theorem quieter_of_reports {α : Type} {d : Dialogue (Request Call) Request.Reply α}
    (h : d.Asks Reports) (S : Scene τ) : Quieter S (d.run (answer E) S).2 := by
  refine Dialogue.Asks.run_keeps (I := Quieter S) (fun q hq T hT => ?_) h
    ⟨.refl _, rfl, rfl, rfl⟩
  cases q with
  | call c => exact hq.elim
  | chore q =>
    cases q with
    | report e => exact ⟨hT.beside.trans (chore_beside (.report e) T.world), hT.cache, hT.turns, hT.since⟩
    | _ => exact hq.elim

theorem run_of_asksOnce {α : Type} {q : Request Call} {p : Task α} (h : AsksOnce q p)
    (S : Scene τ) : Quieter (answer E q S).2 (run E p S).2 := by
  obtain ⟨next, hrun, hnext⟩ := h
  rw [run, Procedure.runWith, hrun]
  exact quieter_of_reports (hnext _) _

end Scene

/-- A procedure that begins with dropping decisions has seen one site since. -/
theorem since_of_drops {α : Type} {scope : Cache.Scope} {p : Task α}
    (h : AsksOnce (.chore (.forget scope)) p) {S T : Scene τ} {result : Except Fault α}
    (hrun : Scene.run E p S = (result, T)) : T.since = [T.world.remote] := by
  have hq := Scene.run_of_asksOnce (E := E) h S
  rw [hrun] at hq
  rw [hq.since, hq.beside.remote]
  rfl

/-- A write that succeeds has seen, since it last dropped decisions, only sites that decide like the
one that it leaves. -/
theorem alike_of_ok {p : Task Unit} (hp : Shape inside p) {S T : Scene τ}
    (hS : S.since = [S.world.remote]) (hT : Tracked E inside Sound T)
    (h : Scene.run E p S = (.ok (), T)) {m : Site} (hm : m ∈ T.since) (k : Cache.Key) :
    m.verdict E.resolver k = T.world.remote.verdict E.resolver k := by
  have hone : T.since = [T.world.remote] →
      m.verdict E.resolver k = T.world.remote.verdict E.resolver k := by
    intro hsince
    rw [hsince] at hm
    rw [List.mem_singleton.mp hm]
  cases hp with
  | nothing =>
    cases h
    exact hone hS
  | refused f => cases h
  | sweeping e body failed succeeded hbody =>
    obtain ⟨_, _, -, h⟩ := Scene.ok_of_run_bind h
    obtain ⟨_, _, -, h⟩ := Scene.ok_of_run_bind h
    exact hone (since_of_drops
      ((asksOnce_invalidateSubtree e).bind fun _ => Procedure.Asks.report trivial) h)
  | clearing body c hbody honce =>
    obtain ⟨_, _, -, h⟩ := Scene.ok_of_run_bind h
    exact hone (since_of_drops (asksOnce_clear.bind fun _ => Procedure.Asks.pure _) h)
  | harmless body hbody => exact (hT.agrees m hm).verdict k id

/-! ### Writes that run alone -/

variable {v w : World Site τ} {o : Operation}

/-- A write that succeeds keeps only decisions that were held before, and on keys whose verdict it
has not changed. -/
theorem frame_of_ok (hw : o.IsWrite) (hh : o.Honest) (hc : w.remote.store.Confined)
    (h : World.run (E.perform o) w = (.ok (), v)) :
    v.remote.store.Confined ∧ ∀ k slot, v.Holds k slot → Unmoved E w v.remote k slot := by
  let S : Scene τ := ⟨w, fun _ => .bare .carriedOut, [w.remote], [], []⟩
  have hS : Tracked E o.Drops (Unmoved E w) S := by
    refine ⟨List.mem_singleton_self _, fun m hm => ?_, fun k slot hk => ?_, hc, fun n => ?_⟩
    · rw [List.mem_singleton.mp hm]
      exact .refl _ _ _
    · exact ⟨w.remote, List.mem_singleton_self _, hk, rfl⟩
    · exact ⟨fun a ha => (by cases ha), fun a ha => (by cases ha)⟩
  have hshape := shape_perform E hw hh
  have hT := hS.run (unmoved_congruent w) hshape.asks
  obtain ⟨hresult, hworld⟩ := Scene.run_quiet (E := E) (E.perform o) S fun _ => rfl
  have hworld : (Scene.run E (E.perform o) S).2.world = v := by rw [hworld, h]
  have hok : Scene.run E (E.perform o) S = (.ok (), (Scene.run E (E.perform o) S).2) :=
    Prod.ext (by rw [hresult, h]) rfl
  rw [← hworld]
  exact ⟨hT.confined, fun k slot hk =>
    hT.sound (unmoved_congruent w) (fun m hm k => alike_of_ok hshape rfl hT hok hm k) hk⟩

/-- Whatever drops decisions and adds none holds nothing that was not held before, however it ends. -/
theorem holds_of_sweeps {α : Type} {p : Task α} (hp : p.Asks (Sweeps inside)) {k : Cache.Key}
    {slot : Cache.Slot τ} (hk : (World.run p w).2.Holds k slot) : w.Holds k slot := by
  refine Dialogue.Asks.run_keeps (I := fun v : World Site τ => v.Holds k slot → w.Holds k slot)
    (fun q hq v hv hk => ?_) hp id hk
  cases q with
  | call c =>
    obtain ⟨log, -, hworld⟩ := v.call_world c
    rw [show (World.answer (.call c) v).2 = (v.call c).2 from rfl, hworld] at hk
    exact hv hk
  | chore q =>
    cases q with
    | forget scope => exact hv (Cache.get?_forget.mp hk).1
    | report | acquire | release => exact hv hk
    | find | keep => exact hq.elim

/-- Whatever drops no decisions and adds none leaves the cache alone. -/
theorem cache_of_steps {α : Type} {p : Task α} (hp : p.Asks (Steps inside)) (w : World Site τ) :
    (World.run p w).2.cache = w.cache := by
  refine Dialogue.Asks.run_keeps (I := fun v : World Site τ => v.cache = w.cache)
    (fun q hq v hv => ?_) hp rfl
  cases q with
  | call c =>
    obtain ⟨log, -, hworld⟩ := v.call_world c
    rw [show (World.answer (.call c) v).2 = (v.call c).2 from rfl, hworld]
    exact hv
  | chore q =>
    cases q with
    | report | acquire | release => exact hv
    | find | keep | forget => exact hq.elim

/-- It changes verdicts on the keys inside only, and leaves shadow roles confined to their paths. -/
theorem agreesOff_of_sweeps {α : Type} {p : Task α} (hp : p.Asks (Sweeps inside))
    (hc : w.remote.store.Confined) : (World.run p w).2.remote.store.Confined ∧
      Site.AgreesOff E.resolver inside w.remote (World.run p w).2.remote :=
  site_run_keeps
    (I := fun s => s.store.Confined ∧ Site.AgreesOff E.resolver inside w.remote s)
    (fun _ _ hcall hs =>
      ⟨Site.after_confined hs.1 hcall, hs.2.trans (Site.after_agreesOff hs.1 hcall)⟩)
    hp ⟨hc, Site.AgreesOff.refl ..⟩

end Warrant.Engine
