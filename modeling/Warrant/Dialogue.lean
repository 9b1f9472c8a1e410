/-!
# Dialogues

A `Dialogue` either is done with a result or asks a question and goes on from the answer. It says
what is asked in which order and leaves open who answers, so that one dialogue can be run alone,
between other ones, or against answers of one's own choice.
-/

namespace Warrant

/-- A sequence of questions, each depending on the answers before it, that ends in a result. -/
inductive Dialogue (Q : Type) (A : Q → Type) (α : Type) : Type
  | done (result : α)
  | ask (question : Q) (next : A question → Dialogue Q A α)

namespace Dialogue

variable {Q : Type} {A : Q → Type} {α β : Type}

/-- One dialogue and then another one that depends on its result. -/
def andThen : Dialogue Q A α → (α → Dialogue Q A β) → Dialogue Q A β
  | done a, f => f a
  | ask q next, f => ask q fun a => (next a).andThen f

instance : Monad (Dialogue Q A) where
  pure := done
  bind := andThen

@[simp] theorem pure_eq (a : α) : (pure a : Dialogue Q A α) = done a := rfl

@[simp] theorem done_bind (a : α) (f : α → Dialogue Q A β) : done a >>= f = f a := rfl

@[simp] theorem ask_bind (q : Q) (next : A q → Dialogue Q A α) (f : α → Dialogue Q A β) :
    ask q next >>= f = ask q fun a => next a >>= f := rfl

theorem map_id (x : Dialogue Q A α) : id <$> x = x := by
  induction x with
  | done _ => rfl
  | ask q _ ih => exact congrArg (ask q) (funext ih)

theorem andThen_assoc {γ : Type} (x : Dialogue Q A α) (f : α → Dialogue Q A β)
    (g : β → Dialogue Q A γ) : x >>= f >>= g = x >>= fun a => f a >>= g := by
  induction x with
  | done _ => rfl
  | ask q _ ih => exact congrArg (ask q) (funext ih)

instance : LawfulMonad (Dialogue Q A) :=
  LawfulMonad.mk' _ map_id (fun _ _ => rfl) andThen_assoc

/-- The dialogue of one question, whose result is the answer. -/
def query (q : Q) : Dialogue Q A (A q) := ask q done

/-- Holds the dialogue with someone who answers every question. -/
def run {m : Type → Type} [Monad m] (answer : (q : Q) → m (A q)) : Dialogue Q A α → m α
  | done a => pure a
  | ask q next => do (next (← answer q)).run answer

theorem run_bind {m : Type → Type} [Monad m] [LawfulMonad m] (answer : (q : Q) → m (A q))
    (x : Dialogue Q A α) (f : α → Dialogue Q A β) :
    (x >>= f).run answer = x.run answer >>= fun a => (f a).run answer := by
  induction x with
  | done a => simp [run]
  | ask q next ih => simp [run, ih]

end Dialogue

end Warrant
