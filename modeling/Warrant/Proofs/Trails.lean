import Warrant.Proofs.Leading
import Warrant.Proofs.Passages

/-!
# What a task leaves behind

A task that runs alone, where every event can be recorded and every call may be answered anything,
leaves a trail: the events that it has told and the calls that it has made (`Passage.run_recorded`). The
parts of the operations are discreet (`Discreet`): none tells the event with which an operation closes,
and none makes up a denial. So whatever happens in them is left to the operation to account for.
-/

namespace Warrant

/-- The fault is a denial. -/
def Fault.isDenial : Fault → Bool
  | unauthorized .. => true
  | _ => false

namespace Audit.Event

/-- An operation that succeeds closes with the event. -/
def isSuccess : Event → Bool
  | enforceAllowed .. | enforceBypassed .. | grantApplied .. | revokeApplied .. | entityRevoked ..
  | roleOperationCompleted .. => true
  | _ => false

/-- The denied actions of an enforcement that closes with the event. -/
def denied? : Event → Option (List Action)
  | enforceDenied _ _ denied => some denied
  | _ => none

/-- The fault of an operation that closes with the event. -/
def failure? : Event → Option Fault
  | enforceFailed _ _ fault | grantFailed _ _ _ fault | revokeFailed _ _ _ fault
  | entityRevokeFailed _ fault | roleOperationFailed _ _ fault => some fault
  | _ => none

/-- The event closes an operation. -/
def isClosing (event : Event) : Bool :=
  event.isSuccess || event.denied?.isSome || event.failure?.isSome

/-- The event tells that a shadow role is gone. -/
def isDrop : Event → Bool
  | shadowRoleDropped .. => true
  | _ => false

end Audit.Event

namespace Engine

open Audit Procedure

/-! ### Trails -/

/-- The events that have been told and the calls that have been made. -/
structure Trail where
  told : List Event
  made : List Call

namespace Trail

def empty : Trail := ⟨[], []⟩

def tell (t : Trail) (event : Event) : Trail := { t with told := t.told ++ [event] }

def call (t : Trail) (c : Call) : Trail := { t with made := t.made ++ [c] }

/-- The events among those told that close an operation. -/
def closing (t : Trail) : List Event := t.told.filter Event.isClosing

/-- How many shadow roles are said to be gone. -/
def dropped (t : Trail) : Nat := t.told.countP Event.isDrop

variable {t : Trail} {event : Event}

theorem closing_tell (h : event.isClosing = false) : (t.tell event).closing = t.closing := by
  simp [closing, tell, h]

theorem dropped_tell (t : Trail) (event : Event) :
    (t.tell event).dropped = t.dropped + if event.isDrop then 1 else 0 := by
  simp [dropped, tell, List.countP_append, List.countP_singleton]

end Trail

/-- One of the calls made has failed with the fault. -/
def Oracle.Raised (s : Oracle) (made : List Call) (fault : Fault) : Prop :=
  ∃ before c after, made = before ++ c :: after ∧ s.reply (s.asked ++ before) c = .error fault

/-- The rules that a service answers by, where every event can be recorded. -/
def recorded (s : Oracle) : Rules (Request Call) Request.Reply Trail where
  may _ _ := True
  gives
    | .call c, t, reply, u => reply = s.reply (s.asked ++ t.made) c ∧ u = t.call c
    | .chore (.report event), t, reply, u => reply = .ok () ∧ u = t.tell event
    | .chore _, t, _, u => u = t

section

variable {s : Oracle} {made made' : List Call} {fault : Fault} {c : Call}

theorem Oracle.Raised.mono (h : s.Raised made fault) (hmade : made <+: made') :
    s.Raised made' fault := by
  obtain ⟨before, c, after, rfl, hreply⟩ := h
  obtain ⟨more, rfl⟩ := hmade
  exact ⟨before, c, after ++ more, by simp, hreply⟩

theorem raised_concat_iff : s.Raised (made ++ [c]) fault ↔
    s.Raised made fault ∨ s.reply (s.asked ++ made) c = .error fault := by
  constructor
  · rintro ⟨before, d, after, h, hreply⟩
    rcases List.eq_nil_or_concat after with rfl | ⟨after, last, rfl⟩
    · obtain ⟨rfl, hc⟩ := List.append_inj' h rfl
      obtain rfl := List.singleton_inj.mp hc
      exact .inr hreply
    · rw [List.concat_eq_append, ← List.cons_append, ← List.append_assoc] at h
      obtain ⟨rfl, -⟩ := List.append_inj' h rfl
      exact .inl ⟨before, d, after, rfl, hreply⟩
  · rintro (h | hreply)
    · exact h.mono (List.prefix_append ..)
    · exact ⟨made, c, [], rfl, hreply⟩

theorem leads_report {Post : Except Fault Unit → Trail → Prop} {t : Trail} {event : Event}
    (h : Post (.ok ()) (t.tell event)) : (report event : Task Unit).Leads (recorded s) Post t := by
  refine ⟨trivial, ?_⟩
  rintro _ _ ⟨rfl, rfl⟩
  exact h

theorem leads_handling_report {α : Type} {f : Unit → Task α} {Post : Except Fault α → Trail → Prop}
    {t : Trail} {event : Event} (h : (f ()).Leads (recorded s) Post (t.tell event)) :
    (handling (report event) >>= f).Leads (recorded s) Post t := by
  have htold : (handling (report event) : Task Unit).Leads (recorded s)
      (fun x u => x = .ok () ∧ u = t.tell event) t := Leads.handling (leads_report ⟨rfl, rfl⟩)
  refine Leads.bind htold ?_ ?_
  · rintro _ _ ⟨-, rfl⟩
    exact h
  · rintro fault _ ⟨hfault, -⟩
    cases hfault

/-- A fault goes on once it has been told. -/
theorem leads_onFault {α : Type} {p : Task α} {failed : Fault → Event}
    {Post : Except Fault α → Trail → Prop} {t : Trail}
    (h : p.Leads (recorded s) (fun x u => match x with
      | .ok a => Post (.ok a) u
      | .error fault => Post (.error fault) (u.tell (failed fault))) t) :
    (p.onFault fun fault => report (failed fault)).Leads (recorded s) Post t := by
  refine Leads.outcome_bind h fun x u hu => ?_
  cases x with
  | ok a => exact hu
  | error fault => exact leads_handling_report hu

variable {τ : Type} {S T : Passage τ} {u : Trail}

/-- The trail is what has been added from one state to a later one. -/
structure Trail.Between (u : Trail) (S T : Passage τ) : Prop where
  context : T.world.log.context = S.world.log.context
  reply : T.world.remote.reply = S.world.remote.reply
  events : T.world.log.events = S.world.log.events ++ u.told
  asked : T.world.remote.asked = S.world.remote.asked ++ u.made

theorem Trail.Between.refl (S : Passage τ) : Trail.empty.Between S S :=
  ⟨rfl, rfl, (List.append_nil _).symm, (List.append_nil _).symm⟩

variable [Add τ] [LE τ] [DecidableLE τ] {α : Type} {p : Task α} {Post : Except Fault α → Trail → Prop}

/-- An answer keeps to the rules, and the trail goes on with it. -/
theorem Trail.Between.answer (h : u.Between S T) (hq : S.world.log.context.Quiet) (q : Request Call) :
    ∃ v, (recorded S.world.remote).gives q u (Passage.answer q T).1 v ∧
      v.Between S (Passage.answer q T).2 := by
  cases q with
  | call c =>
    refine ⟨u.call c, ⟨?_, rfl⟩, h.context, h.reply, h.events, ?_⟩
    · show T.world.remote.reply T.world.remote.asked c = _
      rw [h.reply, h.asked]
    · show T.world.remote.asked ++ [c] = _
      rw [h.asked, List.append_assoc]
      rfl
  | chore q =>
    cases q with
    | report event =>
      have hrecord : T.world.log.record event = _ := Log.record_of_fits (h.context ▸ hq event)
      refine ⟨u.tell event, ⟨congrArg Prod.fst hrecord, rfl⟩, ?_, h.reply, ?_, h.asked⟩
      · exact (congrArg (fun r => r.2.context) hrecord).trans h.context
      · refine (congrArg (fun r => r.2.events) hrecord).trans ?_
        show T.world.log.events ++ [event] = _
        rw [h.events, List.append_assoc]
        rfl
    | find | keep | forget | acquire | release =>
      exact ⟨u, rfl, h.context, h.reply, h.events, h.asked⟩

end

/-! ### Discretion -/

section

variable {s : Oracle} {tolerant : Bool} {α β : Type} {t u v : Trail}

/-- What a part of an operation may come to: it tells no closing event, and a denial that it ends in is
that of a call. One that tolerates no failing call has met none if it succeeds. -/
structure Follows (s : Oracle) (tolerant : Bool) (t : Trail) (x : Except Fault α) (u : Trail) :
    Prop where
  closing : u.closing = t.closing
  made : t.made <+: u.made
  blames : ∀ fault, x = .error fault → fault.isDenial = true → s.Raised u.made fault
  strict : tolerant = false → ∀ a, x = .ok a → ∀ fault, s.Raised u.made fault → s.Raised t.made fault

namespace Follows

theorem refl {x : Except Fault α} (hx : ∀ fault, x = .error fault → fault.isDenial = false) :
    Follows s tolerant t x t :=
  ⟨rfl, List.prefix_rfl, fun fault h hd => absurd (hx fault h) (by simp [hd]), fun _ _ _ _ => id⟩

theorem trans {a : α} {y : Except Fault β} (h : Follows s tolerant t (.ok a) u)
    (h' : Follows s tolerant u y v) : Follows s tolerant t y v :=
  ⟨h'.closing.trans h.closing, h.made.trans h'.made, h'.blames, fun hs b hb fault hr =>
    h.strict hs a rfl fault (h'.strict hs b hb fault hr)⟩

theorem error {fault : Fault} (h : Follows s tolerant t (.error fault : Except Fault α) u) :
    Follows s tolerant t (.error fault : Except Fault β) u :=
  ⟨h.closing, h.made, fun f hf => h.blames f (by cases hf; rfl), fun _ _ ha => by cases ha⟩

/-- One who goes on from a failure tolerates it. -/
theorem recover {fault : Fault} {y : Except Fault β}
    (h : Follows s true t (.error fault : Except Fault α) u) (h' : Follows s true u y v) :
    Follows s true t y v :=
  ⟨h'.closing.trans h.closing, h.made.trans h'.made, h'.blames, fun hs => by cases hs⟩

end Follows

/-- Wherever it begins, a discreet task follows. -/
def Discreet (s : Oracle) (tolerant : Bool) (p : Task α) : Prop :=
  ∀ t, p.Leads (recorded s) (Follows s tolerant t) t

namespace Discreet

theorem pure (a : α) : Discreet s tolerant (Pure.pure a : Task α) := fun _ =>
  .refl fun _ h => by cases h

theorem conclude {x : Except Fault α} (hx : ∀ fault, x = .error fault → fault.isDenial = false) :
    Discreet s tolerant (Procedure.conclude x : Task α) := fun _ => .refl hx

theorem call (c : Call) : Discreet s tolerant (Procedure.call c : Task c.Answer) := by
  refine fun t => ⟨trivial, ?_⟩
  rintro reply u ⟨rfl, rfl⟩
  refine ⟨rfl, List.prefix_append .., fun fault hfault _ => ?_, fun _ a ha fault hr => ?_⟩
  · exact raised_concat_iff.mpr (.inr hfault)
  · refine (raised_concat_iff.mp hr).resolve_right fun hfault => ?_
    cases ha.symm.trans hfault

theorem report {event : Event} (h : event.isClosing = false) :
    Discreet s tolerant (Procedure.report event : Task Unit) := fun _ =>
  leads_report ⟨Trail.closing_tell h, List.prefix_rfl, fun _ hf => (by cases hf), fun _ _ _ _ => id⟩

theorem ask {q : Chore} (hq : ∀ event, q ≠ .report event) :
    Discreet s tolerant (Procedure.ask q : Task q.Reply) := by
  refine fun t => ⟨trivial, fun reply u hgives => ?_⟩
  have hstill : u = t := by
    cases q with
    | report event => exact absurd rfl (hq event)
    | find | keep | forget | acquire | release => exact hgives
  subst hstill
  exact .refl fun _ h => by cases h

theorem bind {p : Task α} {f : α → Task β} (hp : Discreet s tolerant p)
    (hf : ∀ a, Discreet s tolerant (f a)) : Discreet s tolerant (p >>= f) := by
  refine fun t => Leads.bind (hp t) (fun a u hu => ?_) fun fault u hu => hu.error
  exact Dialogue.Leads.mono (hf a u) fun y v hv => hu.trans hv

theorem bind_conclude {x : Except Fault α} {f : α → Task β}
    (hx : ∀ fault, x = .error fault → fault.isDenial = false)
    (hf : ∀ a, x = .ok a → Discreet s tolerant (f a)) :
    Discreet s tolerant (Procedure.conclude x >>= f) := by
  cases x with
  | ok a => exact hf a rfl
  | error fault => exact conclude fun f hf => hx f (by cases hf; rfl)

/-- A failure may be met if it is not passed off as a success. -/
theorem outcome_bind {p : Task α} {f : Except Fault α → Task β} (hp : Discreet s true p)
    (hf : ∀ x, Discreet s true (f x) ∨ ∃ fault, x = .error fault ∧ f x = throw fault) :
    Discreet s true (outcome p >>= f) := by
  refine fun t => Leads.outcome_bind (hp t) fun x u hu => ?_
  rcases hf x with hx | ⟨fault, rfl, hx⟩
  · refine Dialogue.Leads.mono (hx u) fun y v hv => ?_
    cases x with
    | ok a => exact hu.trans hv
    | error fault => exact hu.recover hv
  · rw [hx]
    exact hu.error

theorem locked {pair : Pair} {p : Task α} (hp : Discreet s tolerant p) :
    Discreet s tolerant (p.locked pair) := by
  refine fun t => Leads.locked trivial ?_
  rintro u rfl
  exact Dialogue.Leads.mono (hp u) fun x v hv => ⟨trivial, fun w hw => hw ▸ hv⟩

theorem handling {p : Task α} (hp : Discreet s tolerant p) : Discreet s tolerant p.handling := by
  refine fun t => Leads.handling (Dialogue.Leads.mono (hp t) fun x u hu => ?_)
  cases x with
  | ok a => exact hu
  | error fault =>
    refine ⟨hu.closing, hu.made, fun f hf hd => ?_, fun _ _ ha => by cases ha⟩
    obtain rfl : fault.whileHandling = f := Except.error.inj hf
    rcases fault.whileHandling_cases with hsame | ⟨field, -, hmissing⟩
    · rw [hsame] at hd ⊢
      exact hu.blames fault rfl hd
    · rw [hmissing] at hd
      cases hd

theorem onFault {p : Task α} {failed : Fault → Event} (hp : Discreet s tolerant p)
    (hfailed : ∀ fault, (failed fault).isClosing = false) :
    Discreet s tolerant (p.onFault fun fault => Procedure.report (failed fault)) := by
  refine fun t => leads_onFault (Dialogue.Leads.mono (hp t) fun x u hu => ?_)
  cases x with
  | ok a => exact hu
  | error fault =>
    exact ⟨(Trail.closing_tell (hfailed fault)).trans hu.closing, hu.made, hu.blames,
      fun _ _ ha => by cases ha⟩

end Discreet

/-! ### The parts of an enforcement -/

variable {E : Engine} {e : Entity} {p : Principal} {path : Path} {role : String} {actions : List Action}

end

end Engine

end Warrant
