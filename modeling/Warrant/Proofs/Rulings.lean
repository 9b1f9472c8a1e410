import Warrant.Proofs.Alone
import Warrant.Proofs.Coherence

/-!
# What an enforcement comes to

Where every event can be recorded and whatever the cache holds on the request is right, an
enforcement ends as the site alone has it (`run_enforce`): the user passes without a check, or with
every verdict in favour, or fails with the actions that are denied or with the first fault that a
verdict ends in (`Engine.ruling`).
-/

namespace Warrant.Engine

open World Procedure

variable {τ : Type} {E : Engine} {s : Site} {e : Entity} {u : Principal} {k : Cache.Key}
  {actions : List Action} {w : World Site τ}

instance : DecidableEq (Except Fault Unit)
  | .ok (), .ok () => isTrue rfl
  | .error f, .error g => decidable_of_iff (f = g) ⟨congrArg _, Except.error.inj⟩
  | .ok (), .error _ => isFalse nofun
  | .error _, .ok () => isFalse nofun

/-- Those of the actions that the site denies; the first verdict that cannot be given ends it. -/
def Site.deniedAt (r : Resolver) (s : Site) (e : Entity) (u : Principal) :
    List Action → Except Fault (List Action)
  | [] => return []
  | a :: rest => do
    let allowed ← s.verdict r ⟨u, e, a⟩
    let denied ← s.deniedAt r e u rest
    return if allowed then denied else a :: denied

/-- Fails with the denied actions, if there are any. -/
def settle (e : Entity) (u : Principal) : List Action → Except Fault Unit
  | [] => .ok ()
  | denied => .error (.unauthorized u e denied)

/-- What an enforcement at the site ends in. -/
def ruling (E : Engine) (s : Site) (e : Entity) (u : Principal) (actions : List Action) :
    Except Fault Unit := do
  if u.kind ≠ .user then throw (.invalidPrincipalKind u "enforce")
  let _ ← E.resolver.resolve e
  if (E.bypassAt s u.name).isSome then return ()
  settle e u (← s.deniedAt E.resolver e u (Action.distinct actions))

theorem Site.deniedAt_eq_nil_iff {r : Resolver} : s.deniedAt r e u actions = .ok [] ↔
    ∀ a ∈ actions, s.verdict r ⟨u, e, a⟩ = .ok true := by
  induction actions with
  | nil => exact iff_of_true rfl nofun
  | cons a rest ih =>
    rw [List.forall_mem_cons, ← ih, deniedAt]
    cases s.verdict r ⟨u, e, a⟩ with
    | error f => exact iff_of_false nofun fun h => (by cases h.1)
    | ok allowed =>
      cases s.deniedAt r e u rest with
      | error f => exact iff_of_false nofun fun h => (by cases h.2)
      | ok denied => cases allowed <;> simp [bind, Except.bind, pure, Except.pure]

theorem Site.deniedAt_of_verdict {r : Resolver} {allows : Action → Bool}
    (h : ∀ a, s.verdict r ⟨u, e, a⟩ = .ok (allows a)) :
    s.deniedAt r e u actions = .ok (actions.filter fun a => !allows a) := by
  induction actions with
  | nil => rfl
  | cons a rest ih =>
    rw [deniedAt, h, ih]
    cases ha : allows a <;> simp [ha, bind, Except.bind, pure, Except.pure]

section Ruling

variable {path : Path}

theorem ruling_of_kind (h : u.kind ≠ .user) :
    E.ruling s e u actions = .error (.invalidPrincipalKind u "enforce") := if_pos h

theorem ruling_of_unresolved {f : Fault} (hu : u.kind = .user) (hp : E.resolver.resolve e = .error f) :
    E.ruling s e u actions = .error f := by
  rw [ruling, if_neg (not_not_intro hu), hp]
  rfl

theorem ruling_of_bypass (hu : u.kind = .user) (hp : E.resolver.resolve e = .ok path)
    (hb : (E.bypassAt s u.name).isSome = true) : E.ruling s e u actions = .ok () := by
  rw [ruling, if_neg (not_not_intro hu), hp, if_pos hb]
  rfl

theorem ruling_of_checks (h : E.Checks s u) (hp : E.resolver.resolve e = .ok path) :
    E.ruling s e u actions =
      s.deniedAt E.resolver e u (Action.distinct actions) >>= settle e u := by
  rw [ruling, if_neg (not_not_intro h.1), hp, h.2]
  rfl

/-- Who passes: a user, on an entity that has a path, without a check or with every verdict in
favour. -/
theorem ruling_eq_ok_iff : E.ruling s e u actions = .ok () ↔
    u.kind = .user ∧ (∃ path, E.resolver.resolve e = .ok path) ∧
      ((E.bypassAt s u.name).isSome = true ∨
        ∀ a ∈ actions, s.verdict E.resolver ⟨u, e, a⟩ = .ok true) := by
  by_cases hu : u.kind = .user
  · cases hp : E.resolver.resolve e with
    | error f =>
      rw [ruling_of_unresolved hu hp]
      exact iff_of_false (by simp) (by simp)
    | ok path =>
      cases hb : E.bypassAt s u.name with
      | some reason =>
        have hsome : (E.bypassAt s u.name).isSome = true := by rw [hb]; rfl
        exact iff_of_true (ruling_of_bypass hu hp hsome) ⟨hu, ⟨path, rfl⟩, .inl rfl⟩
      | none =>
        have hall : (∀ a ∈ actions, s.verdict E.resolver ⟨u, e, a⟩ = .ok true) ↔
            s.deniedAt E.resolver e u (Action.distinct actions) = .ok [] := by
          simp only [Site.deniedAt_eq_nil_iff, Action.mem_distinct]
        rw [ruling_of_checks ⟨hu, hb⟩ hp, hall]
        cases s.deniedAt E.resolver e u (Action.distinct actions) with
        | error f => exact iff_of_false (fun h => (by cases h)) (by simp)
        | ok denied =>
          cases denied with
          | nil => exact iff_of_true rfl ⟨hu, ⟨path, rfl⟩, .inr rfl⟩
          | cons a rest => exact iff_of_false (fun h => (by cases h)) (by simp)
  · rw [ruling_of_kind hu]
    exact iff_of_false (by simp) fun h => hu h.1

end Ruling

/-! ### Enforcements that run alone -/

variable [Add τ] [LE τ] [DecidableLE τ]

/-- A load fails only if the verdict cannot be given, and then as that does. -/
theorem ends_load (E : Engine) (k : Cache.Key) (s : Site) :
    Ends τ (Cache.load E.loadDecision k) s fun x t =>
      t = s ∧ ∀ f, x = .error f → s.verdict E.resolver k = .error f := by
  refine Ends.onFault (Ends.bind_conclude (fun path hp => ?_) fun f hp => ?_)
  · replace hp : E.resolver.resolve k.entity = .ok path := hp
    have hmap : ∀ x : Except Malformed Bool, ∀ f,
        ((x.mapError Fault.malformed).map some : Except Fault (Option Bool)) = .error f →
          x.mapError Fault.malformed = .error f := by
      rintro (m | b) f h
      · obtain rfl : Fault.malformed m = f := Except.error.inj h
        rfl
      · cases h
    refine Ends.call ⟨Site.after_authorize .., fun f hf => ?_⟩
    rw [Site.verdict, hp]
    refine hmap _ f ?_
    rw [Site.answer] at hf
    -- a guarded backend answers authorizations too
    split at hf <;> exact hf
  · replace hp : E.resolver.resolve k.entity = .error f := hp
    refine ⟨rfl, fun g hg => ?_⟩
    cases hg
    rw [Site.verdict, hp]
    rfl

/-- A decision fails only if the verdict cannot be given, and then as that does. -/
theorem ends_decision (E : Engine) (k : Cache.Key) (s : Site) :
    Ends τ (E.decision k) s fun x _ => ∀ f, x = .error f → s.verdict E.resolver k = .error f := by
  have hstore : ∀ d, Ends τ (do
      Cache.store k d
      return d : Task (Option Bool)) s fun x _ => ∀ f, x = .error f →
        s.verdict E.resolver k = .error f := by
    intro d
    refine Succeeds.bind (R := fun _ t => t = s) ?_ fun _ t ht => Ends.pure fun f h => (by cases h)
    refine Succeeds.bind (Succeeds.ask (.keep k d) s) fun evicted t ht => ?_
    subst ht
    exact Succeeds.reports evicted _ t
  rw [decision, Cache.consult]
  split
  · refine Succeeds.bind (Succeeds.ask (.find k) s) fun found t ht => ?_
    subst ht
    cases found with
    | some allowed =>
      exact Succeeds.bind (Succeeds.report _ t) fun _ _ _ => Ends.pure fun f h => (by cases h)
    | none =>
      refine Succeeds.bind (Succeeds.report _ t) fun _ t' ht => ?_
      subst ht
      refine Ends.bind (ends_load E k t') (fun d u hu => ?_) fun f u hu => hu.2
      rw [hu.1]
      exact hstore d
  · exact (ends_load E k s).mono fun _ _ h => h.2

/-- What the cache holds on the requests of the user on the entity is right. -/
def Backed (E : Engine) (w : World Site τ) (e : Entity) (u : Principal) : Prop :=
  ∀ a slot, w.Holds ⟨u, e, a⟩ slot → w.remote.backs E.resolver ⟨u, e, a⟩ slot.allowed = true

omit [Add τ] [LE τ] [DecidableLE τ] in
theorem Settled.backed (h : Settled E w) (e : Entity) (u : Principal) : Backed E w e u :=
  fun _ slot hk => (h.right _ slot hk).2

/-- Where what is held on the key is right, a decision is the verdict. -/
theorem run_decision (hq : w.log.context.Quiet)
    (hk : ∀ slot, w.Holds k slot → w.remote.backs E.resolver k slot.allowed = true) :
    (World.run (E.decision k) w).1 = (w.remote.verdict E.resolver k).map some := by
  have hend := (ends_decision (τ := τ) E k w.remote).of_quiet hq rfl
  cases hrun : World.run (E.decision k) w with
  | mk x v =>
    rw [hrun] at hend
    cases x with
    | error f => rw [hend f rfl]; rfl
    | ok d =>
      have hbacks : w.remote.backs E.resolver k d = true := by
        rcases decision_ok hrun with h | ⟨slot, hslot, rfl⟩
        · exact h
        · exact hk slot hslot
      obtain ⟨b, rfl, hb⟩ := Site.backs_iff.mp hbacks
      rw [hb]
      rfl

theorem run_deniedAmong (hq : w.log.context.Quiet) (hb : Backed E w e u) (actions : List Action) :
    (World.run (E.deniedAmong e u actions) w).1 =
      w.remote.deniedAt E.resolver e u actions := by
  induction actions generalizing w with
  | nil => rfl
  | cons a rest ih =>
    have hdecision := run_decision (E := E) hq fun slot => hb a slot
    have hlooked : Looked E (fun _ => True) w (World.run (E.decision ⟨u, e, a⟩) w).2 :=
      looked_decision E trivial w
    rw [deniedAmong, World.run_bind, Site.deniedAt]
    cases hrun : World.run (E.decision ⟨u, e, a⟩) w with
    | mk x v =>
      rw [hrun] at hdecision hlooked
      obtain rfl : x = _ := hdecision
      have hremote : v.remote = w.remote := hlooked.beside.remote
      -- what the decision has added to the cache is right, too
      have hrest := ih (w := v) (by rw [hlooked.beside.context]; exact hq) fun a' slot hk => by
        rw [hremote]
        exact (hlooked.holds _ slot hk).elim (hb a' slot) And.right
      rw [hremote] at hrest
      cases w.remote.verdict E.resolver ⟨u, e, a⟩ with
      | error f => rfl
      | ok allowed =>
        show (World.run (E.deniedAmong e u rest >>= fun denied => _) v).1 = _
        rw [World.run_bind]
        cases hrun' : World.run (E.deniedAmong e u rest) v with
        | mk y v' =>
          rw [hrun'] at hrest
          obtain rfl : y = _ := hrest
          cases w.remote.deniedAt E.resolver e u rest with
          | error f => rfl
          | ok denied => cases allowed <;> rfl

theorem run_report_quiet (hq : w.log.context.Quiet) (event : Audit.Event) :
    ∃ v, World.run (report event : Task Unit) w = (.ok (), v) := by
  rw [World.run_report, Audit.Log.record_eq_ok (hq event)]
  exact ⟨_, rfl⟩

/-- A fault that is reported goes on. -/
theorem fst_run_onFault {α : Type} {p : Task α} {event : Fault → Audit.Event}
    (hq : w.log.context.Quiet) :
    (World.run (p.onFault fun f => report (event f)) w).1 = (World.run p w).1 := by
  have hcontext := context_run τ p w
  rw [World.run_onFault]
  cases hrun : World.run p w with
  | mk x v =>
    rw [hrun] at hcontext
    cases x with
    | ok a => rfl
    | error f =>
      obtain ⟨u, hu⟩ := run_report_quiet (w := v) (by rwa [show v.log.context = _ from hcontext])
        (event f)
      dsimp only
      rw [hu]

theorem run_judge (hq : w.log.context.Quiet) (hb : Backed E w e u) (actions : List Action) :
    (World.run (E.judge e u actions) w).1 =
      if (E.bypassAt w.remote u.name).isSome then .ok .bypassed
      else (w.remote.deniedAt E.resolver e u actions).map .decided := by
  rw [judge, run_bind_of_ok (run_bypass E u.name w)]
  cases E.bypassAt w.remote u.name with
  | some reason =>
    obtain ⟨v, hv⟩ := run_report_quiet hq (.enforceBypassed u.text e.text reason)
    show (World.run (report _ >>= fun _ => pure Finding.bypassed) w).1 = _
    rw [run_bind_of_ok hv]
    rfl
  | none =>
    have hdenied := run_deniedAmong hq hb actions
    show (World.run (E.deniedAmong e u actions >>= fun denied => pure (Finding.decided denied)) w).1 = _
    rw [World.run_bind]
    cases hrun : World.run (E.deniedAmong e u actions) w with
    | mk x v =>
      rw [hrun] at hdenied
      obtain rfl : x = _ := hdenied
      cases w.remote.deniedAt E.resolver e u actions <;> rfl

/-- Where every event can be recorded and what is held is right, the cache makes no difference to how
an enforcement ends. -/
theorem run_enforce (hq : w.log.context.Quiet) (hb : Backed E w e u) :
    (World.run (E.enforce e u actions) w).1 = E.ruling w.remote e u actions := by
  by_cases hu : u.kind = .user
  · cases hp : E.resolver.resolve e with
    | error f =>
      rw [ruling_of_unresolved hu hp, enforce, if_neg (not_not_intro hu), hp]
      rfl
    | ok path =>
      let judged : Task Finding := (E.judge e u (Action.distinct actions)).onFault fun f =>
        report (.enforceFailed u.text e.text f)
      have hjudged : (World.run judged w).1 = _ :=
        (fst_run_onFault hq).trans (run_judge hq hb (Action.distinct actions))
      have hcontext := context_run τ judged w
      rw [enforce, if_neg (not_not_intro hu), hp]
      show (World.run (judged >>= fun _ => _) w).1 = _
      rw [World.run_bind]
      cases hrun : World.run judged w with
      | mk x v =>
        rw [hrun] at hjudged hcontext
        obtain rfl : x = _ := hjudged
        have hv : v.log.context.Quiet := by rwa [show v.log.context = _ from hcontext]
        cases hbypass : E.bypassAt w.remote u.name with
        | some reason =>
          rw [ruling_of_bypass hu hp (by rw [hbypass]; rfl)]
          rfl
        | none =>
          rw [ruling_of_checks ⟨hu, hbypass⟩ hp]
          cases w.remote.deniedAt E.resolver e u (Action.distinct actions) with
          | error f => rfl
          | ok denied =>
            cases denied with
            | nil =>
              obtain ⟨v', hv'⟩ := run_report_quiet hv
                (.enforceAllowed u.text e.text (Action.distinct actions))
              exact congrArg Prod.fst hv'
            | cons a rest =>
              obtain ⟨v', hv'⟩ := run_report_quiet hv (.enforceDenied u.text e.text (a :: rest))
              show (World.run (report _ >>= fun _ => throw _) v).1 = _
              rw [run_bind_of_ok hv']
              rfl
  · rw [ruling_of_kind hu, enforce, if_pos hu]
    rfl

end Warrant.Engine
