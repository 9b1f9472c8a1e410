import Warrant.Proofs.Ready

/-!
# Work under the lock of a pair

Whoever has the lock of a pair finds the site as the one before has left it, and nobody else changes it
meanwhile. So the work does under the lock what it does where it is alone (`leads_in_turn`): the rules
for taking turns are those of a site at which nothing else happens (`alone`), from the moment when the
lock is given until it is given back.
-/

namespace Warrant.Engine

open Procedure RoleStore Site

/-! ### The work, wherever it is done -/

section Obliging

variable {σ α : Type} {R : Rules (Request Call) Request.Reply σ} {s : σ} {Q : σ → Prop}

/-- Decisions are dropped and events are recorded, and neither brings about another state. -/
structure Obliging (R : Rules (Request Call) Request.Reply σ) : Prop where
  forget : ∀ scope s, R.may (.chore (.forget scope)) s ∧
    ∀ n t, R.gives (.chore (.forget scope)) s n t → t = s
  report : ∀ event s, R.may (.chore (.report event)) s ∧
    ∀ reply t, R.gives (.chore (.report event)) s reply t → reply = .ok () ∧ t = s

theorem Obliging.leads_report (h : Obliging R) (event : Audit.Event) (s : σ) :
    (Procedure.report event : Task Unit).Leads R (fun x t => x = .ok () ∧ t = s) s :=
  ⟨(h.report event s).1, (h.report event s).2⟩

theorem Obliging.leads_invalidate (h : Obliging R) (e : Entity) (s : σ) :
    (Cache.invalidateSubtree e : Task Nat).Leads R (fun x t => (∃ n, x = .ok n) ∧ t = s) s := by
  refine ⟨(h.forget _ s).1, fun n t hn => ?_⟩
  obtain rfl := (h.forget _ s).2 n t hn
  refine Leads.bind (h.leads_report _ t) (fun _ u hu => ?_) fun fault u hu => ?_
  · exact ⟨⟨n, rfl⟩, hu.2⟩
  · cases hu.1

/-- What succeeds makes the droppings around it succeed. -/
theorem Obliging.leads_sweeping (h : Obliging R) {e : Entity} {body : Task α}
    {failed : Fault → Audit.Event} {succeeded : α → Audit.Event}
    (hbody : body.Leads R (fun x t => (∃ a, x = .ok a) ∧ Q t) s) :
    (sweeping e body failed succeeded).Leads R (fun x t => x = .ok () ∧ Q t) s := by
  have hfault : ∀ {β : Type} {fault : Fault} {P : Prop},
      ((∃ b : β, (.error fault : Except Fault β) = .ok b) ∧ P) → False := by
    rintro β fault P ⟨⟨b, hb⟩, -⟩
    cases hb
  refine Leads.bind (h.leads_invalidate e s) (fun _ t ht => ?_) fun _ _ ht => (hfault ht).elim
  obtain rfl := ht.2
  have houtcome : (Procedure.outcome body).Leads R
      (fun x u => (∃ a, x = .ok (.ok a)) ∧ Q u) t :=
    Leads.outcome (Dialogue.Leads.mono hbody fun x u hu => ⟨hu.1.imp fun a ha => congrArg _ ha, hu.2⟩)
  have hfirst : (body.onFault fun f => Procedure.report (failed f)).Leads R
      (fun x u => (∃ a, x = .ok a) ∧ Q u) t := by
    refine Leads.bind houtcome (fun x u hu => ?_) fun _ _ hu => ?_
    · obtain ⟨⟨a, ha⟩, hq⟩ := hu
      obtain rfl := Except.ok.inj ha
      exact ⟨⟨a, rfl⟩, hq⟩
    · obtain ⟨⟨a, ha⟩, -⟩ := hu
      cases ha
  refine Leads.bind hfirst (fun a u hu => ?_) fun _ _ hu => (hfault hu).elim
  refine Leads.bind (h.leads_invalidate e u) (fun _ v hv => ?_) fun _ _ hv => (hfault hv).elim
  obtain rfl := hv.2
  refine Dialogue.Leads.mono (h.leads_report _ v) ?_
  rintro x _ ⟨rfl, rfl⟩
  exact ⟨rfl, hu.2⟩

end Obliging

theorem reply_quiet {context : Audit.Context} (h : context.Quiet) (event : Audit.Event) :
    context.reply event = .ok () := Audit.Log.record_eq_ok (h event)

theorem obliging_alone {context : Audit.Context} {may : Request Call → Prop} (hq : context.Quiet)
    (hforget : ∀ scope, may (.chore (.forget scope)))
    (hreport : ∀ event, may (.chore (.report event))) : Obliging (alone context may) where
  forget scope _ := ⟨hforget scope, fun _ _ h => h.2⟩
  report event _ := ⟨hreport event, fun _ _ h => ⟨h.1.trans (reply_quiet hq event), h.2⟩⟩

variable {E : Engine} {o : Operation} {pair : Pair} {path : Path} {context : Audit.Context}

theorem leads_alone_mono {α : Type} {context : Audit.Context} {may may' : Request Call → Prop}
    {p : Task α} {Post : Except Fault α → Site → Prop} {s : Site} (hmay : ∀ q, may q → may' q)
    (h : p.Leads (alone context may) Post s) : p.Leads (alone context may') Post s := by
  refine Dialogue.Leads.mono (Dialogue.Leads.along (L := Eq) ?_ ?_ h rfl) ?_
  · exact fun q _ _ _ hq => hmay q hq
  · rintro q s _ reply t rfl - hgives
    exact ⟨t, hgives, rfl⟩
  · rintro x _ ⟨t, hpost, rfl⟩
    exact hpost

/-- Done alone, the operation succeeds at the one site, has its effect, and leaves the other site. -/
structure Does (τ : Type) [Add τ] [LE τ] [DecidableLE τ] (E : Engine) (context : Audit.Context)
    (o : Operation) (s t : Site) : Prop where
  effect : Alters (Effect E s o) s t
  run : ∀ w : World Site τ, w.remote = s → w.log.context = context →
    (World.run (E.perform o) w).1 = .ok () ∧ (World.run (E.perform o) w).2.remote = t

/-! ### Taking turns -/

/-- How far an operation has come: it has not begun its work under the lock, it is at it and has found
the one site, of which the other has become, or it is done. -/
inductive Stage
  | early
  | inside (first now : Site)
  | late

/-- The rules for operations on a pair. They find a ready site when they get the lock, are alone at it,
and give the lock back when they are done. Without the lock they make no call that changes a site. -/
def turns (context : Audit.Context) (pair : Pair) (Ready : Site → Prop) (Done : Site → Site → Prop) :
    Rules (Request Call) Request.Reply Stage where
  may
    | .chore (.acquire q), stage => q = pair ∧ stage = .early
    | .chore (.release q), stage => q = pair ∧ ∃ s t, stage = .inside s t ∧ Done s t
    | .call c, stage => (∃ s t, stage = .inside s t) ∨ ∀ s : Site, s.after c = s
    | .chore _, _ => True
  gives
    | .chore (.acquire _), _, _, stage' => ∃ s, Ready s ∧ stage' = .inside s s
    | .chore (.release _), _, _, stage' => stage' = .late
    | .call c, .inside s t, reply, stage' => reply = t.reply context c ∧ stage' = .inside s (t.after c)
    | .call _, stage, _, stage' => stage' = stage
    | .chore q, stage, reply, stage' => Allows context q reply ∧ stage' = stage

variable {Ready : Site → Prop} {Done : Site → Site → Prop}

theorem obliging_turns (hq : context.Quiet) : Obliging (turns context pair Ready Done) where
  forget _ _ := ⟨trivial, fun _ _ h => h.2⟩
  report event _ := ⟨trivial, fun _ _ h => ⟨h.1.trans (reply_quiet hq event), h.2⟩⟩

/-- An enforcement comes in between at any moment. -/
theorem leads_enforce (E : Engine) (e : Entity) (p : Principal) (actions : List Action) :
    (E.enforce e p actions).Leads (turns context pair Ready Done) (fun _ stage => stage = .early)
      .early := by
  refine Asks.leads_still (fun q hq => ?_) (asks_enforce E e p actions)
  cases q with
  | call c => exact ⟨.inr hq.after, fun _ _ hgives => hgives⟩
  | chore q =>
    cases q with
    | forget | acquire | release => exact hq.elim
    | report | find | keep => exact ⟨trivial, fun _ _ hgives => hgives.2⟩

variable {τ : Type} [Add τ] [LE τ] [DecidableLE τ] {s : Site}

/-- The work under the lock ends in one way at a site where nothing gets in the way. -/
theorem leads_work {body : Task String} (w : World Site τ) (hq : w.log.context.Quiet)
    (hcertain : body.Asks (Certain (ShadowName E pair)))
    (hsucceeds : Succeeds τ body s fun _ t => Alters (Effect E s o) s t) :
    ∃ role t, Alters (Effect E s o) s t ∧ body.Leads
      (alone w.log.context (Certain (ShadowName E pair))) (fun x u => x = .ok role ∧ u = t) s := by
  obtain ⟨x, t, hlead⟩ := settled_of_certain w.log.context (fun _ => id) hcertain s
  have hrun := run_leads (w := { w with remote := s }) hlead rfl
  obtain ⟨role, hrole, ht⟩ := hsucceeds.of_quiet (w := { w with remote := s }) hq rfl
  rw [hrun.2] at ht
  rw [← hrun.1, hrole] at hlead
  exact ⟨role, t, ht, hlead⟩

/-- An operation that works on a pair in its turn succeeds, and does what it does where it is alone. -/
theorem leads_in_turn (w : World Site τ) (hq : w.log.context.Quiet) (ho : o.WorksOn pair)
    (hp : E.resolver.resolve pair.entity = .ok path)
    (hdone : ∀ s t, Does τ E w.log.context o s t → Done s t) :
    (E.perform o).Leads (turns w.log.context pair (Site.Ready E) Done)
      (fun x stage => x = .ok () ∧ stage = .late) .early := by
  obtain ⟨body, failed, succeeded, hperform, hcertain, hsucceeds⟩ := work_of_pair τ ho hp
  rw [hperform]
  refine (obliging_turns hq).leads_sweeping (Leads.locked ⟨rfl, rfl⟩ ?_)
  rintro _ ⟨s, hs, rfl⟩
  obtain ⟨role, t, heffect, hlead⟩ := leads_work w hq hcertain (hsucceeds s hs)
  have hdoes : Does τ E w.log.context o s t := by
    refine ⟨heffect, fun v hv hcontext => ?_⟩
    have hlead : (E.perform o).Leads (alone w.log.context (Keeping (ShadowName E pair) pair))
        (fun x u => x = .ok () ∧ u = t) s := by
      rw [hperform]
      refine (obliging_alone hq (fun _ => trivial) fun _ => trivial).leads_sweeping ?_
      refine leads_locked (Dialogue.Leads.mono (leads_alone_mono (fun _ => Certain.keeping) hlead) ?_)
      rintro x u ⟨rfl, rfl⟩
      exact ⟨⟨role, rfl⟩, rfl⟩
    subst hv
    exact run_leads hlead hcontext
  -- under the lock it is alone, in whatever company
  have halong := Dialogue.Leads.along (S := turns w.log.context pair (Site.Ready E) Done)
    (L := fun now stage => stage = .inside s now) ?_ ?_ hlead rfl
  · refine Dialogue.Leads.mono halong ?_
    rintro x _ ⟨u, ⟨rfl, rfl⟩, rfl⟩
    exact ⟨⟨rfl, s, u, rfl, hdone s u hdoes⟩, fun v hv => ⟨⟨role, rfl⟩, hv⟩⟩
  · rintro q u _ rfl hmay
    cases q with
    | call c => exact .inl ⟨s, u, rfl⟩
    | chore q =>
      cases q with
      | report event => trivial
      | find | keep | forget | acquire | release => exact hmay.elim
  · rintro q u _ reply stage rfl hmay hgives
    cases q with
    | call c => exact ⟨u.after c, ⟨hgives.1, rfl⟩, hgives.2⟩
    | chore q =>
      cases q with
      | report event => exact ⟨u, ⟨hgives.1, rfl⟩, hgives.2⟩
      | find | keep | forget | acquire | release => exact hmay.elim

end Warrant.Engine
