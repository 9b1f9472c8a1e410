import Warrant.Malformed

/-!
# Actions

What a principal may be allowed to do on an entity. Lists of actions are shown in the alphabetical
order of their words.
-/

namespace Warrant

/-- The actions on an entity; `all` stands for every one of them. -/
inductive Action
  | read
  | write
  | execute
  | admin
  | all
  deriving DecidableEq, Repr

namespace Action

/-- Every action, in the alphabetical order of the words. -/
def alphabet : List Action := [admin, all, execute, read, write]

theorem mem_alphabet (a : Action) : a ∈ alphabet := by cases a <;> decide

def label : Action → String
  | read => "read"
  | write => "write"
  | execute => "execute"
  | admin => "admin"
  | all => "all"

/-- The word for an action in capitals. -/
def capitals : Action → String
  | read => "READ"
  | write => "WRITE"
  | execute => "EXECUTE"
  | admin => "ADMIN"
  | all => "ALL"

def ofLabel? (word : String) : Except Malformed Action :=
  match alphabet.find? fun a => a.label = word with
  | some a => .ok a
  | none => .error (.unknownWord word "Action")

/-- The distinct actions of a list, in alphabetical order. -/
def distinct (actions : List Action) : List Action :=
  alphabet.filter fun a => decide (a ∈ actions)

/-- The actions of a list in alphabetical order, each as often as it occurs. -/
def sorted (actions : List Action) : List Action :=
  alphabet.flatMap fun a => actions.filter fun b => decide (b = a)

@[simp] theorem mem_distinct {actions : List Action} {a : Action} :
    a ∈ distinct actions ↔ a ∈ actions := by
  simp [distinct, mem_alphabet]

theorem distinct_eq_nil {actions : List Action} : distinct actions = [] ↔ actions = [] := by
  simp only [List.eq_nil_iff_forall_not_mem, mem_distinct]

theorem nodup_distinct (actions : List Action) : (distinct actions).Nodup :=
  (show alphabet.Nodup by decide).sublist List.filter_sublist

end Action

end Warrant
