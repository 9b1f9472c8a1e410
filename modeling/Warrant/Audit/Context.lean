import Warrant.Audit.Value
import Warrant.Fault
import Warrant.Table

/-!
# Observation context

What the caller wants to see in every event of a request.
-/

namespace Warrant.Audit

/-- Fields that go into every event. -/
structure Context where
  requestId : Option String
  requestingUser : Option String
  instanceName : Option String
  extra : Table String Value
  deriving DecidableEq

namespace Context

def empty : Context := ⟨none, none, none, .empty⟩

instance : Inhabited Context := ⟨empty⟩

/-- The fields of a context: the named ones that are set, then the extra ones, which win over a
named one of the same name. -/
def fields (c : Context) : Table String Value :=
  let named := [("request_id", c.requestId), ("requesting_user", c.requestingUser),
    ("instance_name", c.instanceName)]
  (Table.ofList (named.filterMap fun (k, v) => v.map fun s => (k, Value.text s))).merge c.extra

/-- The context with the instance named. -/
def withInstance (c : Context) (name : String) : Context := { c with instanceName := some name }

/-- The name that stands for whoever is spoken to; no field can be added under it. -/
def ownName : String := "self"

/-- The names that every record has a use for: whoever is spoken to, and the name of the event. -/
def ownFields : List String := [ownName, "event"]

/-- The context with more extra fields, which win over older ones of the same name. -/
def withExtra? (c : Context) (extra : Table String Value) : Except Fault Context :=
  if extra.contains ownName then .error (.fieldClash ownName)
  else .ok { c with extra := c.extra.merge extra }

end Context

end Warrant.Audit

namespace Warrant

/-- What becomes of a clash of field names while another fault is being handled: the field counts as
a key that was not found, unless its name is one of those that every record has a use for. -/
def Fault.whileHandling : Fault → Fault
  | .fieldClash field =>
    if field ∈ Audit.Context.ownFields then .fieldClash field else .missingKey (some field)
  | fault => fault

theorem Fault.whileHandling_cases (f : Fault) : f.whileHandling = f ∨
    ∃ field, f = .fieldClash field ∧ f.whileHandling = .missingKey (some field) := by
  cases f with
  | fieldClash field =>
    rw [whileHandling]
    split
    · exact .inl rfl
    · exact .inr ⟨field, rfl, rfl⟩
  | _ => exact .inl rfl

end Warrant
