import Warrant.Proofs.Alone

/-!
# Where a dialogue leads

Rules say which questions may be asked in a state, and how the other side may answer and go on. A
dialogue leads somewhere under the rules if it asks only what it may and ends there, whatever it is
answered (`Dialogue.Leads`). What one set of rules admits can be followed under another one
(`Leads.along`), so what is shown of a task at a site it goes through alone holds of it in any company
that leaves alone what it reads.
-/

namespace Warrant

/-- What may be asked in a state, and the answers to it with the states after them. -/
structure Rules (Q : Type) (A : Q → Type) (σ : Type) where
  may : Q → σ → Prop
  gives : (q : Q) → σ → A q → σ → Prop

namespace Dialogue

variable {Q : Type} {A : Q → Type} {α β σ ρ : Type} {R : Rules Q A σ} {S : Rules Q A ρ}

/-- The dialogue asks only what it may and ends as `Post` says, whatever it is answered. -/
def Leads (R : Rules Q A σ) (Post : α → σ → Prop) : Dialogue Q A α → σ → Prop
  | done a, s => Post a s
  | ask q next, s => R.may q s ∧ ∀ a t, R.gives q s a t → (next a).Leads R Post t

namespace Leads

variable {Post Post' : α → σ → Prop} {d : Dialogue Q A α} {s : σ} {t : ρ}

theorem mono (h : d.Leads R Post s) (hpost : ∀ a t, Post a t → Post' a t) : d.Leads R Post' s := by
  induction d generalizing s with
  | done a => exact hpost a s h
  | ask q next ih => exact ⟨h.1, fun a t hg => ih a (h.2 a t hg)⟩

theorem and (h : d.Leads R Post s) (h' : d.Leads R Post' s) :
    d.Leads R (fun a t => Post a t ∧ Post' a t) s := by
  induction d generalizing s with
  | done a => exact ⟨h, h'⟩
  | ask q next ih => exact ⟨h.1, fun a t hg => ih a (h.2 a t hg) (h'.2 a t hg)⟩

theorem bind {f : α → Dialogue Q A β} {Post : β → σ → Prop}
    (h : d.Leads R (fun a t => (f a).Leads R Post t) s) : (d >>= f).Leads R Post s := by
  induction d generalizing s with
  | done a => exact h
  | ask q next ih => exact ⟨h.1, fun a t hg => ih a (h.2 a t hg)⟩

/-- A dialogue goes the same way under other rules, in states that match. -/
theorem along {L : σ → ρ → Prop} (hmay : ∀ q s t, L s t → R.may q s → S.may q t)
    (hgives : ∀ q s t a t', L s t → R.may q s → S.gives q t a t' → ∃ s', R.gives q s a s' ∧ L s' t')
    (h : d.Leads R Post s) (hst : L s t) :
    d.Leads S (fun a t' => ∃ s', Post a s' ∧ L s' t') t := by
  induction d generalizing s t with
  | done a => exact ⟨s, h, hst⟩
  | ask q next ih =>
    refine ⟨hmay q s t hst h.1, fun a t' hg => ?_⟩
    obtain ⟨s', hs', hl⟩ := hgives q s t a t' hst h.1 hg
    exact ih a (h.2 a s' hs') hl

/-- What the dialogue asks may be forbidden to those who ask something else. -/
theorem of_asks {S : Rules Q A σ} {P : Q → Prop} (hmay : ∀ q s, P q → R.may q s → S.may q s)
    (hgives : ∀ q s a t, S.gives q s a t → R.gives q s a t) (h : d.Leads R Post s) (hd : d.Asks P) :
    d.Leads S Post s := by
  induction d generalizing s with
  | done a => exact h
  | ask q next ih =>
    exact ⟨hmay q s hd.1 h.1, fun a t hg => ih a (h.2 a t (hgives q s a t hg)) (hd.2 a)⟩

/-- Someone who keeps to the rules brings the dialogue where it leads. -/
theorem run {answer : (q : Q) → StateM ρ (A q)} {L : σ → ρ → Prop}
    (hanswer : ∀ q s t, L s t → R.may q s →
      ∃ s', R.gives q s (answer q t).1 s' ∧ L s' (answer q t).2)
    (h : d.Leads R Post s) (hst : L s t) :
    ∃ s', Post (d.run answer t).1 s' ∧ L s' (d.run answer t).2 := by
  induction d generalizing s t with
  | done a => exact ⟨s, h, hst⟩
  | ask q next ih =>
    obtain ⟨s', hs', hl⟩ := hanswer q s t hst h.1
    exact ih _ (h.2 _ s' hs') hl

end Leads

/-- What holds of the state after every answer if it holds before, holds in the end. -/
theorem Asks.leads_within {P : Q → Prop} {I : σ → Prop}
    (h : ∀ q s, P q → I s → R.may q s ∧ ∀ a t, R.gives q s a t → I t) {d : Dialogue Q A α}
    (hd : d.Asks P) {s : σ} (hs : I s) : d.Leads R (fun _ t => I t) s := by
  induction d generalizing s with
  | done a => exact hs
  | ask q next ih =>
    obtain ⟨hmay, hkeeps⟩ := h q s hd.1 hs
    exact ⟨hmay, fun a t hg => ih a (hd.2 a) (hkeeps a t hg)⟩

/-- A dialogue stays where no answer leads to another state. -/
theorem Asks.leads_still {P : Q → Prop} {s : σ}
    (h : ∀ q, P q → R.may q s ∧ ∀ a t, R.gives q s a t → t = s) {d : Dialogue Q A α}
    (hd : d.Asks P) : d.Leads R (fun _ t => t = s) s :=
  Asks.leads_within (I := (· = s)) (fun q _ hq ht => ht ▸ h q hq) hd rfl

/-- Where every answer is certain, a dialogue that keeps to the rules leads to one result. -/
theorem Asks.leads_one {P : Q → Prop} (hmay : ∀ q s, P q → R.may q s)
    (hsure : ∀ q s, P q → ∃ a t, ∀ b u, R.gives q s b u → b = a ∧ u = t) {d : Dialogue Q A α}
    (hd : d.Asks P) (s : σ) : ∃ a t, d.Leads R (fun b u => b = a ∧ u = t) s := by
  induction d generalizing s with
  | done a => exact ⟨a, s, rfl, rfl⟩
  | ask q next ih =>
    obtain ⟨b, u, hbu⟩ := hsure q s hd.1
    obtain ⟨a, t, hlead⟩ := ih b (hd.2 b) u
    refine ⟨a, t, hmay q s hd.1, fun b' u' hg => ?_⟩
    obtain ⟨rfl, rfl⟩ := hbu b' u' hg
    exact hlead

end Dialogue

namespace Procedure

variable {C : Type} [Remote C] {α β σ : Type} {R : Rules (Request C) Request.Reply σ} {s : σ}

/-- The procedure leads, under the rules, to a result and a state as `Post` says. -/
def Leads (R : Rules (Request C) Request.Reply σ) (Post : Except Fault α → σ → Prop)
    (p : Procedure C α) (s : σ) : Prop := Dialogue.Leads R Post (ExceptT.run p) s

/-- There is one result and one state that the procedure leads to. -/
def Settled (R : Rules (Request C) Request.Reply σ) (p : Procedure C α) (s : σ) : Prop :=
  ∃ x t, p.Leads R (fun y u => y = x ∧ u = t) s

theorem Leads.bind {p : Procedure C α} {f : α → Procedure C β} {Post : Except Fault β → σ → Prop}
    {Mid : Except Fault α → σ → Prop} (hp : p.Leads R Mid s)
    (hok : ∀ a t, Mid (.ok a) t → (f a).Leads R Post t)
    (herr : ∀ fault t, Mid (.error fault) t → Post (.error fault) t) : (p >>= f).Leads R Post s := by
  rw [Leads, ExceptT.run_bind]
  refine Dialogue.Leads.bind (Dialogue.Leads.mono hp fun x t h => ?_)
  cases x with
  | ok a => exact hok a t h
  | error fault => exact herr fault t h

theorem Leads.outcome {p : Procedure C α} {Post : Except Fault (Except Fault α) → σ → Prop}
    (hp : p.Leads R (fun x t => Post (.ok x) t) s) : (Procedure.outcome p).Leads R Post s := by
  rw [Leads, Procedure.outcome, ExceptT.run_lift, ← bind_pure_comp]
  exact Dialogue.Leads.bind hp

/-- What follows the outcome of a procedure goes on whether that has failed or not. -/
theorem Leads.outcome_bind {p : Procedure C α} {f : Except Fault α → Procedure C β}
    {Mid : Except Fault α → σ → Prop} {Post : Except Fault β → σ → Prop} (hp : p.Leads R Mid s)
    (hf : ∀ x t, Mid x t → (f x).Leads R Post t) : (Procedure.outcome p >>= f).Leads R Post s := by
  have houtcome : (Procedure.outcome p).Leads R (fun y t => ∃ x, y = .ok x ∧ Mid x t) s :=
    Leads.outcome (Dialogue.Leads.mono hp fun x t h => ⟨x, rfl, h⟩)
  refine Leads.bind houtcome ?_ ?_
  · rintro x t ⟨_, ⟨rfl⟩, h⟩
    exact hf x t h
  · rintro fault t ⟨x, h, -⟩
    cases h

theorem Leads.handling {p : Procedure C α} {Post : Except Fault α → σ → Prop}
    (hp : p.Leads R (fun x t => Post (x.mapError Fault.whileHandling) t) s) :
    p.handling.Leads R Post s := by
  refine Leads.outcome_bind hp fun x t h => ?_
  cases x with
  | ok a => exact h
  | error fault => exact h

theorem Leads.locked {p : Procedure C α} {pair : Pair} {Post : Except Fault α → σ → Prop}
    (hmay : R.may (.chore (.acquire pair)) s)
    (hp : ∀ t, R.gives (.chore (.acquire pair)) s () t →
      p.Leads R (fun x u => R.may (.chore (.release pair)) u ∧
        ∀ v, R.gives (.chore (.release pair)) u () v → Post x v) t) :
    (p.locked pair).Leads R Post s :=
  ⟨hmay, fun _ t hgives => Leads.outcome_bind (hp t hgives) fun _ _ h =>
    ⟨h.1, fun _ v hrelease => h.2 v hrelease⟩⟩

theorem Asks.leads_still {P : Request C → Prop}
    (h : ∀ q, P q → R.may q s ∧ ∀ reply t, R.gives q s reply t → t = s) {p : Procedure C α}
    (hp : p.Asks P) : p.Leads R (fun _ t => t = s) s := Dialogue.Asks.leads_still h hp

/-- The procedure comes back to the state that it has begun in. -/
def Returns (R : Rules (Request C) Request.Reply σ) (s : σ) (p : Procedure C α) : Prop :=
  p.Leads R (fun _ t => t = s) s

namespace Returns

theorem bind {p : Procedure C α} {f : α → Procedure C β} (hp : p.Returns R s)
    (hf : ∀ a, (f a).Returns R s) : (p >>= f).Returns R s := by
  refine Leads.bind hp (fun a t ht => ?_) fun fault t ht => ht
  subst ht
  exact hf a

theorem outcome {p : Procedure C α} (hp : p.Returns R s) : (Procedure.outcome p).Returns R s :=
  Leads.outcome hp

theorem onFault {p : Procedure C α} {f : Fault → Procedure C Unit} (hp : p.Returns R s)
    (hf : ∀ fault, (f fault).Returns R s) : (p.onFault f).Returns R s := by
  refine bind (outcome hp) fun x => ?_
  cases x with
  | ok a => exact (rfl : s = s)
  | error fault => exact bind (Leads.handling (hf fault)) fun _ => (rfl : s = s)

end Returns

/-- If the procedure succeeds, it does so in a state as `Q` says. -/
def Attains (R : Rules (Request C) Request.Reply σ) (Q : α → σ → Prop) (p : Procedure C α) (s : σ) :
    Prop := p.Leads R (fun x t => ∀ a, x = .ok a → Q a t) s

namespace Attains

variable {Q : α → σ → Prop} {p : Procedure C α}

theorem pure {a : α} (h : Q a s) : Attains R Q (Pure.pure a : Procedure C α) s := by
  rintro _ ⟨rfl⟩
  exact h

theorem error (fault : Fault) : Attains R Q (conclude (.error fault) : Procedure C α) s :=
  fun _ => nofun

theorem bind_conclude {x : Except Fault β} {f : β → Procedure C α}
    (hf : ∀ b, x = .ok b → Attains R Q (f b) s) : Attains R Q (conclude x >>= f) s := by
  cases x with
  | ok b => exact hf b rfl
  | error fault => exact error fault

theorem bind {Q' : β → σ → Prop} {f : α → Procedure C β} (hp : Attains R Q p s)
    (hf : ∀ a t, Q a t → Attains R Q' (f a) t) : Attains R Q' (p >>= f) s :=
  Leads.bind hp (fun a t h => hf a t (h a rfl)) fun _ _ _ => nofun

theorem handling (hp : Attains R Q p s) : Attains R Q p.handling s := by
  refine Leads.handling (Dialogue.Leads.mono hp fun x t h a ha => ?_)
  cases x with
  | ok b => exact h a ha
  | error fault => cases ha

theorem onFault {f : Fault → Procedure C Unit} (hp : Attains R Q p s)
    (hf : ∀ fault t, (f fault).Leads R (fun _ _ => True) t) : Attains R Q (p.onFault f) s := by
  refine Leads.outcome_bind hp fun x t h => ?_
  cases x with
  | ok a => exact pure (h a rfl)
  | error fault =>
    have hhandled : (f fault).handling.Leads R (fun _ _ => True) t := Leads.handling (hf fault t)
    exact Leads.bind hhandled (fun _ _ _ => error fault) fun _ _ _ => nofun

end Attains

theorem Asks.settled {P : Request C → Prop} (hmay : ∀ q s, P q → R.may q s)
    (hsure : ∀ q s, P q → ∃ reply t, ∀ reply' u, R.gives q s reply' u → reply' = reply ∧ u = t)
    {p : Procedure C α} (hp : p.Asks P) (s : σ) : p.Settled R s := by
  obtain ⟨x, t, hlead⟩ := Dialogue.Asks.leads_one hmay hsure hp s
  exact ⟨x, t, hlead⟩

theorem Settled.bind {p : Procedure C α} {f : α → Procedure C β} (hp : p.Settled R s)
    (hf : ∀ a t, (f a).Settled R t) : (p >>= f).Settled R s := by
  obtain ⟨x, t, hlead⟩ := hp
  cases x with
  | error fault =>
    refine ⟨.error fault, t, hlead.bind ?_ ?_⟩
    · rintro a u ⟨h, -⟩
      cases h
    · rintro fault' u ⟨h, rfl⟩
      cases h
      exact ⟨rfl, rfl⟩
  | ok a =>
    obtain ⟨y, u, hrest⟩ := hf a t
    refine ⟨y, u, hlead.bind ?_ ?_⟩
    · rintro a' t' ⟨h, rfl⟩
      cases h
      exact hrest
    · rintro fault t' ⟨h, -⟩
      cases h

theorem Settled.handling {p : Procedure C α} (hp : p.Settled R s) : p.handling.Settled R s := by
  obtain ⟨x, t, hlead⟩ := hp
  refine ⟨x.mapError Fault.whileHandling, t, Leads.handling (Dialogue.Leads.mono hlead ?_)⟩
  rintro _ _ ⟨rfl, rfl⟩
  exact ⟨rfl, rfl⟩

theorem Settled.onFault {p : Procedure C α} {f : Fault → Procedure C Unit} (hp : p.Settled R s)
    (hf : ∀ fault t, (f fault).Settled R t) : (p.onFault f).Settled R s := by
  obtain ⟨x, t, hlead⟩ := hp
  cases x with
  | ok a =>
    refine ⟨.ok a, t, Leads.outcome_bind hlead ?_⟩
    rintro _ _ ⟨rfl, rfl⟩
    exact ⟨rfl, rfl⟩
  | error fault =>
    -- the handler is done before the fault goes on
    have hthen : ((f fault).handling >>= fun _ =>
        (conclude (.error fault) : Procedure C α)).Settled R t :=
      (hf fault t).handling.bind fun _ v => ⟨.error fault, v, rfl, rfl⟩
    obtain ⟨y, u, hrest⟩ := hthen
    refine ⟨y, u, Leads.outcome_bind hlead ?_⟩
    rintro _ _ ⟨rfl, rfl⟩
    exact hrest

end Procedure

namespace Audit

/-- What reporting an event under the context comes to. -/
def Context.reply (c : Context) (e : Event) : Except Fault Unit := ((⟨c, []⟩ : Log).record e).1

theorem Log.record_reply (log : Log) (e : Event) : (log.record e).1 = log.context.reply e := by
  rw [Context.reply, Log.record, Log.record]
  cases log.context.clash? e <;> rfl

theorem Context.fault_of_reply {c : Context} {e : Event} {f : Fault} (h : c.reply e = .error f) :
    ¬ c.Quiet ∧ ∃ field, f = .fieldClash field := by
  rcases (⟨c, []⟩ : Log).record_cases e with hok | ⟨hclash, field, herror⟩
  · cases h.symm.trans hok
  · exact ⟨fun hq => hclash (hq e), field, Except.error.inj (h.symm.trans herror)⟩

/-- Only the names of the fields count. -/
theorem Context.reply_congr {c : Context} {e e' : Event}
    (h : e.fields.map Prod.fst = e'.fields.map Prod.fst) : c.reply e = c.reply e' := by
  rw [reply, reply, Log.record, Log.record, clash?, clash?, h]
  cases (c.fields.keys.find? fun name => decide (name ∈ e'.fields.map Prod.fst)).or
    (ownFields.find? fun name => c.fields.contains name) <;> rfl

end Audit

namespace Engine

open Audit

/-- What a call is answered at the site when events are recorded under the context. -/
def Site.reply (context : Context) (s : Site) (c : Call) : Except Fault c.Answer :=
  (s.serve c ⟨s, ⟨context, []⟩⟩).1

/-- A call is answered from the roles, unless its events cannot be recorded. -/
theorem Site.reply_cases (context : Context) (s : Site) (c : Call) :
    s.reply context c = s.answer c ∨
      ¬ context.Quiet ∧ ∃ field, s.reply context c = .error (.fieldClash field) := by
  have hsettles := settles_serve c ⟨s, ⟨context, []⟩⟩
  by_cases hq : context.Quiet
  · exact .inl (hsettles.quiet fun event _ => hq event)
  · exact hsettles.clash.imp id fun hclash => ⟨hq, hclash⟩

/-- What a chore may be answered: only for a report it is known. -/
def Allows (context : Context) : (q : Chore) → q.Reply → Prop
  | .report e, reply => reply = context.reply e
  | _, _ => True

/-- The rules at a site where nothing else happens, for those who make the requests in `may`. -/
def alone (context : Context) (may : Request Call → Prop) :
    Rules (Request Call) Request.Reply Site where
  may q _ := may q
  gives
    | .call c, s, reply, t => reply = s.reply context c ∧ t = s.after c
    | .chore q, s, reply, t => Allows context q reply ∧ t = s

variable {τ : Type} [Add τ] [LE τ] [DecidableLE τ] {w : World Site τ}

theorem call_reply (c : Call) (w : World Site τ) :
    (w.call c).1 = w.remote.reply w.log.context c ∧ (w.call c).2.remote = w.remote.after c ∧
      (w.call c).2.log.context = w.log.context := by
  obtain ⟨log, hlog, hw⟩ := w.call_world c
  refine ⟨?_, by rw [hw], by rw [hw]; exact hlog⟩
  exact (Site.deaf_serve w.remote c ⟨w.remote, w.log⟩ ⟨w.remote, ⟨w.log.context, []⟩⟩ rfl rfl).1

theorem chore_allows (q : Chore) (w : World Site τ) :
    Allows w.log.context q (World.chore q w).1 ∧ (World.chore q w).2.remote = w.remote ∧
      (World.chore q w).2.log.context = w.log.context := by
  refine ⟨?_, (World.chore_beside q w).remote, (World.chore_beside q w).context⟩
  cases q with
  | report e => exact w.log.record_reply e
  | find | keep | forget | acquire | release => trivial

/-- Run alone, a task goes where it leads. -/
theorem run_leads {α : Type} {context : Context} {may : Request Call → Prop} {p : Task α}
    {Post : Except Fault α → Site → Prop}
    (h : p.Leads (alone context may) Post w.remote)
    (hw : w.log.context = context) : Post (World.run p w).1 (World.run p w).2.remote := by
  have hanswer : ∀ q (s : Site) (v : World Site τ), (v.remote = s ∧ v.log.context = context) →
      (alone context may).may q s → ∃ s', (alone context may).gives q s (World.answer q v).1 s' ∧
        ((World.answer q v).2.remote = s' ∧ (World.answer q v).2.log.context = context) := by
    rintro q _ v ⟨rfl, rfl⟩ -
    cases q with
    | call c =>
      obtain ⟨hreply, hremote, hcontext⟩ := call_reply c v
      exact ⟨_, ⟨hreply, rfl⟩, hremote, hcontext⟩
    | chore q =>
      obtain ⟨hreply, hremote, hcontext⟩ := chore_allows q v
      exact ⟨_, ⟨hreply, rfl⟩, hremote, hcontext⟩
  obtain ⟨s', hpost, hs', -⟩ := h.run hanswer ⟨rfl, hw⟩
  exact hs' ▸ hpost

end Engine

end Warrant
