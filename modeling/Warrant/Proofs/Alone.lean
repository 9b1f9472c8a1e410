import Warrant.Proofs.Lookups

/-!
# Procedures that run alone

A procedure that runs alone is known by its result and by the site that it leaves (`Ends`), unless
it ends because an event could not be recorded. `Ends.bind` goes through a procedure step by step;
what its steps do to the site is up to the remote calls (`Succeeds.policy`, `Ends.policy`).
-/

namespace Warrant

namespace Engine

open World Procedure

variable (τ : Type) [Add τ] [LE τ] [DecidableLE τ] {α β : Type}

theorem context_run (p : Task α) (w : World Site τ) :
    (World.run p w).2.log.context = w.log.context := by
  refine Dialogue.Asks.run_keeps (I := fun v : World Site τ => v.log.context = w.log.context) ?_
    (Dialogue.Asks.of_all (ExceptT.run p)) rfl
  rintro q - v hv
  cases q with
  | call c =>
    obtain ⟨log, hlog, hw⟩ := v.call_world c
    rw [show (World.answer (.call c) v).2 = (v.call c).2 from rfl, hw]
    exact hlog.trans hv
  | chore q => exact (chore_beside q v).context.trans hv

/-- Nothing changes the services of a site but its roles. -/
theorem services_run (p : Task α) (w : World Site τ) :
    (World.run p w).2.remote = { w.remote with store := (World.run p w).2.remote.store } :=
  site_run_keeps (I := fun s => s = { w.remote with store := s.store })
    (fun c s _ hs => (Site.after_services s c).trans (by rw [hs]))
    (Dialogue.Asks.of_all (ExceptT.run p)) rfl

theorem backend_run (p : Task α) (w : World Site τ) :
    (World.run p w).2.remote.backend = w.remote.backend := by
  rw [services_run]

/-- What makes no remote call leaves the site as it is. -/
theorem remote_of_no_call {p : Task α} (hp : p.Asks fun q => ∀ c, q ≠ .call c) (w : World Site τ) :
    (World.run p w).2.remote = w.remote :=
  site_run_keeps (I := fun s => s = w.remote) (fun c _ hc _ => absurd rfl (hc c)) hp rfl

/-- The result is that an event has not been recorded. -/
def Clashed (c : Audit.Context) (x : Except Fault α) : Prop :=
  ¬ c.Quiet ∧ ∃ fault : Fault, fault.IsClash ∧ x = .error fault

/-- Run alone at the site, the procedure ends in a result and leaves a site that satisfy `Q`, unless
an event could not be recorded. -/
def Ends (p : Task α) (s : Site) (Q : Except Fault α → Site → Prop) : Prop :=
  ∀ w : World Site τ, w.remote = s →
    Clashed w.log.context (World.run p w).1 ∨ Q (World.run p w).1 (World.run p w).2.remote

/-- Run alone at the site, the procedure succeeds. -/
def Succeeds (p : Task α) (s : Site) (Q : α → Site → Prop) : Prop :=
  Ends τ p s fun x t => ∃ a, x = .ok a ∧ Q a t

variable {τ} {p : Task α} {f : α → Task β} {s : Site} {Q : Except Fault β → Site → Prop}

theorem clashed_of_record {log : Audit.Log} {e : Audit.Event} (h : log.context.clash? e ≠ none)
    (field : String) : Clashed log.context (.error (.fieldClash field) : Except Fault α) :=
  ⟨fun hq => h (hq e), _, Fault.isClash_fieldClash field, rfl⟩

/-- What clashes while a fault is being handled still clashes. -/
theorem Clashed.whileHandling {c : Audit.Context} {x : Except Fault α} (h : Clashed c x) :
    Clashed c (x.mapError Fault.whileHandling) := by
  obtain ⟨hq, fault, hfault, rfl⟩ := h
  exact ⟨hq, _, hfault.whileHandling, rfl⟩

namespace Ends

theorem of_not_clashed {Q : Except Fault α → Site → Prop} {w : World Site τ} (h : Ends τ p s Q)
    (hw : ¬ Clashed w.log.context (World.run p w).1) (hs : w.remote = s) :
    Q (World.run p w).1 (World.run p w).2.remote := (h w hs).resolve_left hw

theorem of_quiet {Q : Except Fault α → Site → Prop} {w : World Site τ} (h : Ends τ p s Q)
    (hw : w.log.context.Quiet) (hs : w.remote = s) :
    Q (World.run p w).1 (World.run p w).2.remote := h.of_not_clashed (fun hc => hc.1 hw) hs

theorem mono {Q R : Except Fault α → Site → Prop} (hp : Ends τ p s R) (h : ∀ x t, R x t → Q x t) :
    Ends τ p s Q := fun w hs => (hp w hs).imp id (h _ _)

theorem pure {Q : Except Fault α → Site → Prop} {a : α} (h : Q (.ok a) s) :
    Ends τ (Pure.pure a) s Q := by
  rintro w rfl
  exact .inr h

theorem throw {Q : Except Fault α → Site → Prop} {e : Fault} (h : Q (.error e) s) :
    Ends τ (MonadExcept.throw e) s Q := by
  rintro w rfl
  exact .inr h

theorem conclude {Q : Except Fault α → Site → Prop} {x : Except Fault α} (h : Q x s) :
    Ends τ (Procedure.conclude x) s Q := by
  rintro w rfl
  exact .inr h

theorem bind {R : Except Fault α → Site → Prop} (hp : Ends τ p s R)
    (hok : ∀ a u, R (.ok a) u → Ends τ (f a) u Q) (herr : ∀ e u, R (.error e) u → Q (.error e) u) :
    Ends τ (p >>= f) s Q := by
  intro w hs
  have hctx := context_run τ p w
  have hend := hp w hs
  rw [World.run_bind]
  cases hrun : World.run p w with
  | mk x v =>
    rw [hrun] at hctx hend
    rcases hend with ⟨hq, fault, hfault, rfl⟩ | hend
    · exact .inl ⟨hq, fault, hfault, rfl⟩
    · cases x with
      | ok a =>
        rw [← show v.log.context = _ from hctx]
        exact hok a _ hend v rfl
      | error e => exact .inr (herr e _ hend)

theorem bind_conclude {x : Except Fault α} (hok : ∀ a, x = .ok a → Ends τ (f a) s Q)
    (herr : ∀ e, x = .error e → Q (.error e) s) : Ends τ (Procedure.conclude x >>= f) s Q :=
  bind (conclude (Q := fun y t => y = x ∧ t = s) ⟨rfl, rfl⟩)
    (fun a u h => by rw [h.2]; exact hok a h.1.symm) fun e u h => by rw [h.2]; exact herr e h.1.symm

/-- What looks at the outcome of a procedure, and lets it pass if an event could not be recorded. -/
theorem outcome_bind {f : Except Fault α → Task β} {R : Except Fault α → Site → Prop}
    (hp : Ends τ p s R)
    (hpass : ∀ field, f (.error (.fieldClash field)) = MonadExcept.throw (.fieldClash field) ∧
      f (.error (.missingKey (some field))) = MonadExcept.throw (.missingKey (some field)))
    (h : ∀ x u, R x u → Ends τ (f x) u Q) : Ends τ (Procedure.outcome p >>= f) s Q := by
  intro w hs
  have hctx := context_run τ p w
  have hend := hp w hs
  rw [World.run_bind, World.run_outcome]
  cases hrun : World.run p w with
  | mk x v =>
    rw [hrun] at hctx hend
    dsimp only
    rcases hend with ⟨hq, fault, hfault, rfl⟩ | hend
    · have hthrow : f (.error fault) = MonadExcept.throw fault := by
        obtain ⟨field, rfl | rfl⟩ := hfault
        · exact (hpass field).1
        · exact (hpass field).2
      rw [hthrow, World.run_throw]
      exact .inl ⟨hq, fault, hfault, rfl⟩
    · rw [← show v.log.context = _ from hctx]
      exact h x _ hend v rfl

theorem locked {R : Except Fault α → Site → Prop} {pair : Pair} (hp : Ends τ p s R) :
    Ends τ (p.locked pair) s R := by
  intro w hs
  rw [World.run_locked]
  exact hp w hs

/-- What is done while a fault is being handled changes the site as ever. -/
theorem handling {R : Except Fault α → Site → Prop} (hp : Ends τ p s R)
    (hR : ∀ f t, R (.error f) t → R (.error f.whileHandling) t) : Ends τ p.handling s R := by
  intro w hs
  rw [World.run_handling]
  refine (hp w hs).imp Clashed.whileHandling fun h => ?_
  cases hrun : World.run p w with
  | mk x v =>
    rw [hrun] at h
    cases x with
    | ok a => exact h
    | error f => exact hR f _ h

/-- The fault of a procedure goes on after it has been reported. -/
theorem onFault {R : Except Fault α → Site → Prop} {e : Fault → Audit.Event} (hp : Ends τ p s R) :
    Ends τ (p.onFault fun f => Procedure.report (e f)) s R := by
  intro w hs
  have hctx := context_run τ p w
  have hend := hp w hs
  rw [World.run_onFault]
  cases hrun : World.run p w with
  | mk x v =>
    rw [hrun] at hctx hend
    cases x with
    | ok a => exact hend
    | error f =>
      dsimp only
      rw [World.run_report]
      rcases v.log.record_cases (e f) with hr | ⟨hclash, field, hr⟩
      · rw [hr]
        exact hend
      · rw [hr, ← show v.log.context = _ from hctx]
        exact .inl (clashed_of_record (α := α) hclash field).whileHandling

/-- A remote call answers and changes the site as it should, if its event can be recorded. -/
theorem call {c : Call} {Q : Except Fault c.Answer → Site → Prop} (h : Q (s.answer c) (s.after c)) :
    Ends τ (Procedure.call c) s Q := by
  rintro w rfl
  obtain ⟨log, -, hworld⟩ := w.call_world c
  have hafter : (w.call c).2.remote = w.remote.after c := by rw [hworld]
  show Clashed w.log.context (w.call c).1 ∨ Q (w.call c).1 (w.call c).2.remote
  rw [hafter]
  by_cases hq : w.log.context.Quiet
  · rw [World.call_quiet fun e _ => hq e]
    exact .inr h
  · rcases w.call_clash c with hanswer | ⟨field, hclash⟩
    · rw [hanswer]
      exact .inr h
    · exact .inl ⟨hq, _, Fault.isClash_fieldClash field, hclash⟩

/-- A call of a backend that is not guarded. -/
theorem policy {c : Backend.Call} {Q : Except Fault c.Answer → Site → Prop}
    (hs : s.readOnly = false)
    (h : Q (c.answer s.backend s.store) { s with store := c.after s.store }) :
    Ends τ (Engine.policy c) s Q := by
  refine call ?_
  rw [Site.answer, Site.after, if_neg (by simp [hs]), if_neg (by simp [hs])]
  exact h

end Ends

namespace Succeeds

theorem mono {Q R : α → Site → Prop} (hp : Succeeds τ p s R) (h : ∀ a t, R a t → Q a t) :
    Succeeds τ p s Q := Ends.mono hp fun _ _ ⟨a, ha, hr⟩ => ⟨a, ha, h a _ hr⟩

theorem pure {Q : α → Site → Prop} {a : α} (h : Q a s) : Succeeds τ (Pure.pure a) s Q :=
  Ends.pure ⟨a, rfl, h⟩

theorem bind {R : α → Site → Prop} (hp : Succeeds τ p s R)
    (h : ∀ a u, R a u → Ends τ (f a) u Q) : Ends τ (p >>= f) s Q := by
  refine Ends.bind hp ?_ ?_
  · rintro a u ⟨b, hb, hr⟩
    obtain rfl := Except.ok.inj hb
    exact h a u hr
  · rintro e u ⟨a, ha, -⟩
    cases ha

theorem handling {Q : α → Site → Prop} (hp : Succeeds τ p s Q) : Succeeds τ p.handling s Q := by
  refine Ends.handling hp ?_
  rintro f t ⟨a, ha, -⟩
  cases ha

theorem ask (q : Chore) (s : Site) :
    Succeeds τ (Procedure.ask q : Task q.Reply) s fun _ t => t = s := by
  rintro w rfl
  rw [World.run_ask]
  exact .inr ⟨_, rfl, (chore_beside q w).remote⟩

theorem report (e : Audit.Event) (s : Site) :
    Succeeds τ (Procedure.report e : Task Unit) s fun _ t => t = s := by
  rintro w rfl
  rw [World.run_report]
  rcases w.log.record_cases e with hr | ⟨hclash, field, hr⟩
  · rw [hr]
    exact .inr ⟨(), rfl, rfl⟩
  · rw [hr]
    exact .inl (clashed_of_record hclash field)

theorem reports (l : List Cache.Key) (e : Cache.Key → Audit.Event) (s : Site) :
    Succeeds τ (l.forM fun k => Procedure.report (e k) : Task Unit) s fun _ t => t = s := by
  induction l with
  | nil => exact pure rfl
  | cons k l ih =>
    refine bind (report (e k) s) fun _ t ht => ?_
    subst ht
    exact ih

theorem groupsOf (E : Engine) (user : String) (s : Site) :
    Succeeds τ (E.groupsOf user) s fun groups t => groups = E.groupsAt s user ∧ t = s := by
  rintro w rfl
  rw [run_groupsOf]
  exact .inr ⟨_, rfl, rfl, rfl⟩

theorem invalidateSubtree (e : Entity) (s : Site) :
    Succeeds τ (Cache.invalidateSubtree e : Task Nat) s fun _ t => t = s := by
  refine bind (ask (.forget (.subtree e)) s) fun n u hu => ?_
  refine bind (report _ u) fun _ v hv => ?_
  exact pure (hv.trans hu)

theorem clear (s : Site) : Succeeds τ (Cache.clear : Task Nat) s fun _ t => t = s := by
  refine bind (ask (.forget .everything) s) fun n u hu => ?_
  refine bind (report _ u) fun _ v hv => ?_
  exact pure (hv.trans hu)

end Succeeds

end Engine

end Warrant
