import Warrant.Proofs.Coherence

/-!
# Writes that overtake a pending decision

A decision is kept when its load is over, whether or not a write has come in between. So a write that
runs from beginning to end while an enforcement waits for the policy backend can leave a stale
decision behind. The stale decisions are exactly the late ones, which were no longer the verdict when
they were kept (`Overtaken.coherent_iff`).
-/

namespace Warrant.Engine

open World Procedure

variable {τ : Type} {E : Engine}

/-- The late keys are exactly those that the cache holds a wrong decision on. -/
structure Marked (E : Engine) (late : List Cache.Key) (w : World Site τ) : Prop where
  marked : ∀ k slot, w.Holds k slot → (w.remote.backs E.resolver k slot.allowed = true ↔ k ∉ late)
  confined : w.remote.store.Confined

theorem Marked.of_subset {v w : World Site τ} {late : List Cache.Key} (h : Marked E late w)
    (hr : v.remote = w.remote)
    (hh : ∀ k slot, v.Holds k slot → w.Holds k slot) : Marked E late v := by
  refine ⟨fun k slot hk => ?_, by rw [hr]; exact h.confined⟩
  rw [hr]
  exact h.marked k slot (hh k slot hk)

variable [Add τ] [LE τ] [DecidableLE τ] {v w : World Site τ} {late : List Cache.Key}

/-- The aside is a write, or time that passes. -/
def Aside.IsWriting : Aside τ → Prop
  | perform o => o.IsWrite ∧ o.Honest
  | wait _ => True

/-- Nothing but writes happens around the remote calls. -/
def Writings (turns : Nat → Turn τ) : Prop :=
  ∀ n, ∀ a ∈ (turns n).before ++ (turns n).after, a.IsWriting

theorem Marked.write (h : Marked E late w) {o : Operation} (hw : o.IsWrite) (hh : o.Honest)
    (hok : World.run (E.perform o) w = (.ok (), v)) : Marked E late v := by
  obtain ⟨hc, hframe⟩ := frame_of_ok hw hh h.confined hok
  refine ⟨fun k slot hk => ?_, hc⟩
  obtain ⟨hk, hv⟩ := hframe k slot hk
  rw [← h.marked k slot hk, Site.backs, Site.backs, hv]

/-- The scene of an enforcement, as long as no write inside has failed. -/
structure Noted (E : Engine) (S : Scene τ) : Prop where
  marked : S.faults = [] → Marked E S.late S.world
  writings : Writings S.turns

namespace Noted

variable {S : Scene τ}

theorem playAll (h : Noted E S) {as : List (Aside τ)} (ha : ∀ a ∈ as, a.IsWriting) :
    Noted E (Scene.playAll E as S) := by
  induction as generalizing S with
  | nil => exact h
  | cons a as ih =>
    refine ih (S := { S with
      world := (a.play E S.world).2
      faults := S.faults ++ Scene.faultsOf (a.play E S.world).1 }) ⟨fun hf => ?_, h.writings⟩
      fun b hb => ha b (List.mem_cons_of_mem _ hb)
    obtain ⟨hf, hok⟩ := List.append_eq_nil_iff.mp hf
    have hm := h.marked hf
    have hwriting := ha a (List.mem_cons_self ..)
    cases a with
    | wait d => exact ⟨hm.marked, hm.confined⟩
    | perform o =>
      cases hrun : World.run (E.perform o) S.world with
      | mk result v =>
        have hplay : (Aside.perform o).play E S.world = (result, v) := hrun
        rw [hplay] at hok ⊢
        cases result with
        | ok u => exact hm.write hwriting.1 hwriting.2 hrun
        | error f => cases hok

/-- A call of an enforcement changes neither the site nor the cache. -/
theorem call (h : Noted E S) {c : Call} (hc : Looks (.call c)) (fate : Fate) :
    Noted E { S with
      world := (fate.meet c S.world).2
      since := S.since ++ [(fate.meet c S.world).2.remote] } := by
  obtain ⟨hr, hcache, -⟩ := fate.meet_world c S.world
  have hafter : S.world.remote.after c = S.world.remote := hc.after S.world.remote
  have hr : (fate.meet c S.world).2.remote = S.world.remote := by
    rcases hr with hr | hr
    · exact hr
    · rw [hr, hafter]
  refine ⟨fun hf => (h.marked hf).of_subset hr fun k slot hk => ?_, h.writings⟩
  rwa [Holds, hcache] at hk

theorem keep (h : Noted E S) (k : Cache.Key) (allowed : Option Bool) :
    Noted E (Scene.answer E (.chore (.keep k allowed)) S).2 := by
  rw [Scene.answer_chore]
  refine ⟨fun hf => ?_, by rw [Scene.note_turns]; exact h.writings⟩
  unfold Scene.note at hf ⊢
  have hm := h.marked (by dsimp only at hf; split at hf <;> exact hf)
  have hholds := fun j slot (hj : (World.chore (.keep k allowed) S.world).2.Holds j slot) =>
    Cache.get?_of_keep hj
  dsimp only
  split
  · rename_i hb
    refine ⟨fun j slot hj => ?_, hm.confined⟩
    rcases hholds j slot hj with ⟨rfl, ha⟩ | ⟨hne, hj⟩
    · rw [ha]
      exact iff_of_true hb (by simp)
    · rw [show (World.chore (.keep k allowed) S.world).2.remote = S.world.remote from rfl,
        hm.marked j slot hj]
      simp [hne]
  · rename_i hb
    refine ⟨fun j slot hj => ?_, hm.confined⟩
    rcases hholds j slot hj with ⟨rfl, ha⟩ | ⟨hne, hj⟩
    · rw [ha]
      exact iff_of_false hb (by simp)
    · rw [show (World.chore (.keep k allowed) S.world).2.remote = S.world.remote from rfl,
        hm.marked j slot hj]
      simp [hne]

theorem answer (h : Noted E S) {q : Request Call} (hq : Looks q) :
    Noted E (Scene.answer E q S).2 := by
  cases q with
  | call c =>
    have hturn := h.writings 0
    have hlater : Noted E { S with turns := fun n => S.turns (n + 1) } :=
      ⟨h.marked, fun n => h.writings (n + 1)⟩
    have hup : Noted E (Scene.upTo E S) :=
      hlater.playAll fun a ha => hturn a (List.mem_append_left _ ha)
    rw [Scene.answer_call]
    exact (hup.call hq _).playAll fun a ha => hturn a (List.mem_append_right _ ha)
  | chore q =>
    cases q with
    | report e => exact ⟨fun hf => (h.marked hf).of_subset rfl fun _ _ hk => hk, h.writings⟩
    | find k =>
      exact ⟨fun hf => (h.marked hf).of_subset rfl fun _ _ hk => Cache.get?_of_find hk, h.writings⟩
    | keep k allowed => exact h.keep k allowed
    | _ => exact hq.elim

end Noted

/-- The worlds that are reached from an empty backend by writes that succeed and by enforcements with
such writes around their remote calls, with the keys that are late. -/
inductive Overtaken (E : Engine) : World Site τ → List Cache.Key → Prop
  | new (limits : Cache.Limits τ) (clock : τ) (context : Audit.Context) (site : Site) :
      site.store = .empty → Overtaken E (World.new limits clock context site) []
  | wait (d : τ) {w : World Site τ} {late : List Cache.Key} :
      Overtaken E w late → Overtaken E (w.advance d) late
  | write (o : Operation) {w v : World Site τ} {late : List Cache.Key} : Overtaken E w late →
      o.IsWrite → o.Honest → World.run (E.perform o) w = (.ok (), v) → Overtaken E v late
  | enforce (e : Entity) (p : Principal) (actions : List Action) (turns : Nat → Turn τ)
      {w : World Site τ} {late : List Cache.Key} : Overtaken E w late → Writings turns →
      (E.play (.enforce e p actions) turns late w).2.faults = [] →
      Overtaken E (E.play (.enforce e p actions) turns late w).2.world
        (E.play (.enforce e p actions) turns late w).2.late

theorem Overtaken.toMarked (h : Overtaken E w late) : Marked E late w := by
  induction h with
  | new limits clock context site hs =>
    exact ⟨fun k slot hk => (by cases hk), (settled_new E limits clock context hs).confined⟩
  | wait d _ ih => exact ⟨ih.marked, ih.confined⟩
  | write o _ hw hh hok ih => exact ih.write hw hh hok
  | @enforce e p actions turns w late _ ht hf ih =>
    have hnoted : Noted E (E.play (.enforce e p actions) turns late w).2 := by
      refine Dialogue.Asks.run_keeps (I := Noted E) ?_ (asks_enforce E e p actions) ⟨fun _ => ih, ht⟩
      exact fun q hq S hS => hS.answer hq
    exact hnoted.marked hf

/-- A decision that counts is stale exactly if it was late when it was kept. -/
theorem Overtaken.coherent_iff (h : Overtaken E w late) : Coherent E w ↔
    ∀ k ∈ late, ∀ slot, w.Holds k slot → slot.isExpired w.clock = true := by
  have hm := h.toMarked
  constructor
  · intro hc k hk slot hslot
    cases hx : slot.isExpired w.clock with
    | true => rfl
    | false => exact absurd hk ((hm.marked k slot hslot).mp (Site.backs_iff.mpr (hc k slot hslot hx)))
  · intro hl k slot hslot hx
    refine Site.backs_iff.mp ((hm.marked k slot hslot).mpr fun hk => ?_)
    rw [hl k hk slot hslot] at hx
    cases hx

namespace Sample

/-- The readers have been granted to read, and nobody has asked yet. -/
def opened : World Site Nat :=
  (World.run (engine.perform (.grant root readers [.read])) joined).2

theorem run_opened :
    World.run (engine.perform (.grant root readers [.read])) joined = (.ok (), opened) :=
  eq_of_isOk (by decide +kernel)

/-- The grant is revoked once the decision has been made. -/
def revoking : Nat → Turn Nat := fun _ =>
  ⟨[], .carriedOut, [.perform (.revoke root readers [.read])]⟩

theorem writings_revoking : Writings revoking := by
  intro n a ha
  obtain rfl : a = .perform (.revoke root readers [.read]) := by simpa [revoking] using ha
  exact ⟨trivial, fun _ => by decide +kernel⟩

/-- Ada has asked while the grant was revoked. -/
def overtaken : Scene Nat := (engine.play (.enforce root ada [.read]) revoking [] opened).2

theorem overtaken_overtaken : Overtaken engine overtaken.world overtaken.late := by
  have hstart : Overtaken engine start [] := .new _ _ _ site rfl
  have hfounded : Overtaken engine founded [] :=
    hstart.write (.createRole "readers") trivial trivial run_founded
  have hjoined : Overtaken engine joined [] :=
    hfounded.write (.addMember "readers" ada) trivial trivial run_joined
  have hopened : Overtaken engine opened [] :=
    hjoined.write (.grant root readers [.read]) trivial (fun _ => by decide +kernel) run_opened
  have hfaults : overtaken.faults = [] := by decide +kernel
  rw [overtaken] at hfaults ⊢
  exact hopened.enforce root ada [.read] revoking writings_revoking hfaults

/-- Once the stale decision has expired, the cache is coherent again. -/
theorem coherent_once_expired : Coherent engine (overtaken.world.advance 5) := by
  have hcoherent := Overtaken.coherent_iff (overtaken_overtaken.wait 5)
  have hlate : overtaken.late = [⟨ada, root, .read⟩] := by decide +kernel
  have hslot : overtaken.world.Holds ⟨ada, root, .read⟩ ⟨some true, 5⟩ := by decide +kernel
  have hclock : overtaken.world.clock = 0 := by decide +kernel
  rw [hlate] at hcoherent
  generalize overtaken.world = w at hcoherent hslot hclock
  refine hcoherent.mpr fun k hk slot hs => ?_
  obtain rfl := List.mem_singleton.mp hk
  obtain rfl := Option.some.inj (hslot.symm.trans hs)
  show decide (5 ≤ w.clock + 5) = true
  rw [hclock]
  rfl

/-- A revocation that runs from beginning to end while a decision is pending leaves that decision
behind: Ada is still allowed to read afterwards. -/
theorem stale_after_revoke : Overtaken engine overtaken.world overtaken.late ∧
    ¬ Coherent engine overtaken.world ∧
    overtaken.world.remote.backs engine.resolver ⟨ada, root, .read⟩ (some false) = true ∧
    (World.run (engine.enforce root ada [.read]) overtaken.world).1.isOk = true :=
  ⟨overtaken_overtaken,
    not_coherent ⟨ada, root, .read⟩ ⟨some true, 5⟩ (by decide +kernel)
      (by decide +kernel) (by decide +kernel),
    by decide +kernel, by decide +kernel⟩

end Sample

end Warrant.Engine
