import Warrant.World

/-!
# What a procedure may ask for

`Asks P` says that every request of a procedure satisfies `P`, whatever the answers to the earlier
ones were. Two runs of such a procedure stay alike when every answer to such a request keeps them
alike (`Dialogue.Asks.run_alike`), and an invariant that every such answer keeps is kept by the whole
run (`Dialogue.Asks.run_keeps`).
-/

namespace Warrant

namespace Dialogue

variable {Q : Type} {A : Q → Type} {α β : Type} {P R : Q → Prop}

/-- Every question that the dialogue may ask satisfies `P`. -/
def Asks (P : Q → Prop) : Dialogue Q A α → Prop
  | done _ => True
  | ask q next => P q ∧ ∀ a, (next a).Asks P

theorem Asks.of_all (d : Dialogue Q A α) : d.Asks fun _ => True := by
  induction d with
  | done _ => trivial
  | ask q next ih => exact ⟨trivial, ih⟩

theorem Asks.mono (h : ∀ q, P q → R q) {d : Dialogue Q A α} (hd : d.Asks P) : d.Asks R := by
  induction d with
  | done _ => trivial
  | ask q next ih => exact ⟨h q hd.1, fun a => ih a (hd.2 a)⟩

theorem Asks.bind {d : Dialogue Q A α} {f : α → Dialogue Q A β} (hd : d.Asks P)
    (hf : ∀ a, (f a).Asks P) : (d >>= f).Asks P := by
  induction d with
  | done a => exact hf a
  | ask q next ih => exact ⟨hd.1, fun a => ih a (hd.2 a)⟩

/-- Two runs that start alike end alike, with the same result, when every answer keeps them so. -/
theorem Asks.run_alike {σ ρ : Type} {answer : (q : Q) → StateM σ (A q)}
    {answer' : (q : Q) → StateM ρ (A q)} {L : σ → ρ → Prop}
    (h : ∀ q, P q → ∀ s t, L s t →
      (answer q s).1 = (answer' q t).1 ∧ L (answer q s).2 (answer' q t).2)
    {d : Dialogue Q A α} (hd : d.Asks P) {s : σ} {t : ρ} (hst : L s t) :
    (d.run answer s).1 = (d.run answer' t).1 ∧ L (d.run answer s).2 (d.run answer' t).2 := by
  induction d generalizing s t with
  | done a => exact ⟨rfl, hst⟩
  | ask q next ih =>
    obtain ⟨ha, hl⟩ := h q hd.1 s t hst
    have := ih (answer q s).1 (hd.2 _) hl
    rw [run, run]
    show ((next (answer q s).1).run answer (answer q s).2).1 =
        ((next (answer' q t).1).run answer' (answer' q t).2).1 ∧
      L ((next (answer q s).1).run answer (answer q s).2).2
        ((next (answer' q t).1).run answer' (answer' q t).2).2
    rwa [← ha]

/-- A run keeps what every answer keeps. -/
theorem Asks.run_keeps {σ : Type} {answer : (q : Q) → StateM σ (A q)} {I : σ → Prop}
    (h : ∀ q, P q → ∀ s, I s → I (answer q s).2) {d : Dialogue Q A α} (hd : d.Asks P) {s : σ}
    (hs : I s) : I (d.run answer s).2 := by
  induction d generalizing s with
  | done a => exact hs
  | ask q next ih => exact ih _ (hd.2 _) (h q hd.1 s hs)

end Dialogue

namespace Procedure

variable {C : Type} [Remote C] {α β σ : Type} {P R : Request C → Prop}

/-- Every request that the procedure may make satisfies `P`. -/
def Asks (P : Request C → Prop) (p : Procedure C α) : Prop := Dialogue.Asks P (ExceptT.run p)

namespace Asks

theorem mono (h : ∀ q, P q → R q) {p : Procedure C α} (hp : p.Asks P) : p.Asks R :=
  Dialogue.Asks.mono h hp

theorem pure (a : α) : (Pure.pure a : Procedure C α).Asks P := trivial

theorem throw (f : Fault) : (MonadExcept.throw f : Procedure C α).Asks P := trivial

theorem conclude (x : Except Fault α) : (Procedure.conclude x : Procedure C α).Asks P := trivial

theorem ask {q : Chore} (h : P (.chore q)) : (Procedure.ask q : Procedure C q.Reply).Asks P :=
  ⟨h, fun _ => trivial⟩

theorem call {c : C} (h : P (.call c)) : (Procedure.call c).Asks P := ⟨h, fun _ => trivial⟩

theorem report {e : Audit.Event} (h : P (.chore (.report e))) :
    (Procedure.report e : Procedure C Unit).Asks P := ⟨h, fun _ => trivial⟩

theorem bind {p : Procedure C α} {f : α → Procedure C β} (hp : p.Asks P) (hf : ∀ a, (f a).Asks P) :
    (p >>= f).Asks P := by
  rw [Asks, ExceptT.run_bind]
  refine Dialogue.Asks.bind hp fun x => ?_
  cases x with
  | ok a => exact hf a
  | error e => trivial

theorem reports {e : β → Audit.Event} (h : ∀ b, P (.chore (.report (e b)))) (l : List β) :
    (l.forM fun b => Procedure.report (e b) : Procedure C Unit).Asks P := by
  induction l with
  | nil => exact pure ()
  | cons b l ih => exact bind (report (h b)) fun _ => ih

theorem bind_conclude {x : Except Fault α} {f : α → Procedure C β}
    (hf : ∀ a, x = .ok a → (f a).Asks P) : (Procedure.conclude x >>= f).Asks P := by
  cases x with
  | ok a => exact hf a rfl
  | error e => trivial

theorem outcome {p : Procedure C α} (hp : p.Asks P) : (Procedure.outcome p).Asks P := by
  rw [Asks, Procedure.outcome, ExceptT.run_lift, ← bind_pure_comp]
  exact Dialogue.Asks.bind hp fun _ => trivial

theorem handling {p : Procedure C α} (hp : p.Asks P) : p.handling.Asks P := by
  refine bind (outcome hp) fun x => ?_
  cases x with
  | ok a => exact pure a
  | error e => exact throw e.whileHandling

theorem onFault {p : Procedure C α} {f : Fault → Procedure C Unit} (hp : p.Asks P)
    (hf : ∀ e, (f e).Asks P) : (p.onFault f).Asks P := by
  refine bind (outcome hp) fun x => ?_
  cases x with
  | ok a => exact pure a
  | error e => exact bind (handling (hf e)) fun _ => throw e

theorem locked {pair : Pair} {p : Procedure C α} (ha : P (.chore (.acquire pair)))
    (hr : P (.chore (.release pair))) (hp : p.Asks P) : (p.locked pair).Asks P :=
  bind (ask ha) fun _ => bind (outcome hp) fun _ => bind (ask hr) fun _ => conclude _

end Asks

/-! ### Runs against any answers -/

/-- Runs the procedure with every request answered as given. -/
def runWith (answer : (q : Request C) → StateM σ q.Reply) (p : Procedure C α) (s : σ) :
    Except Fault α × σ := (Dialogue.run answer (ExceptT.run p) : StateM σ _) s

variable {answer : (q : Request C) → StateM σ q.Reply}

theorem runWith_bind (p : Procedure C α) (f : α → Procedure C β) (s : σ) :
    runWith answer (p >>= f) s = match runWith answer p s with
      | (.ok a, t) => runWith answer (f a) t
      | (.error e, t) => (.error e, t) := by
  simp only [runWith, ExceptT.run_bind, Dialogue.run_bind]
  show StateT.run _ s = _
  rw [StateT.run_bind]
  show (match StateT.run (Dialogue.run answer (ExceptT.run p) : StateM σ _) s with | (a, t) => _) = _
  cases h : StateT.run (Dialogue.run answer (ExceptT.run p) : StateM σ _) s with
  | mk result t =>
    rw [show (Dialogue.run answer (ExceptT.run p) : StateM σ _) s = (result, t) from h]
    cases result <;> rfl

theorem runWith_outcome (p : Procedure C α) (s : σ) :
    runWith answer (outcome p) s = (.ok (runWith answer p s).1, (runWith answer p s).2) := by
  simp only [runWith, outcome, ExceptT.run_lift, ← bind_pure_comp, Dialogue.run_bind]
  show StateT.run _ s = _
  rw [StateT.run_bind]
  rfl

theorem runWith_handling (p : Procedure C α) (s : σ) :
    runWith answer p.handling s =
      ((runWith answer p s).1.mapError Fault.whileHandling, (runWith answer p s).2) := by
  rw [handling, runWith_bind, runWith_outcome]
  cases runWith answer p s with
  | mk result t => cases result <;> rfl

/-- A fault goes on after the second procedure, unless that one fails too. -/
theorem runWith_onFault (p : Procedure C α) (f : Fault → Procedure C Unit) (s : σ) :
    runWith answer (p.onFault f) s = match runWith answer p s with
      | (.ok a, t) => (.ok a, t)
      | (.error e, t) => match runWith answer (f e) t with
        | (.ok (), u) => (.error e, u)
        | (.error e, u) => (.error e.whileHandling, u) := by
  rw [onFault, runWith_bind, runWith_outcome]
  cases runWith answer p s with
  | mk result t =>
    cases result with
    | ok a => rfl
    | error e =>
      simp only [runWith_bind, runWith_handling]
      cases runWith answer (f e) t with
      | mk result u => cases result <;> rfl

end Procedure

end Warrant
