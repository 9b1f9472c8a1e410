/-!
# Values of event fields
-/

namespace Warrant.Audit

/-- What a field of an event may hold. -/
inductive Value
  | text (s : String)
  | flag (b : Bool)
  | count (n : Int)
  | words (ws : List String)
  /-- A value of the caller, carried in its written form and never looked into. -/
  | written (form : String)
  deriving DecidableEq, Repr

end Warrant.Audit
