import Warrant.Malformed

/-!
# Identifiers

The names of entities. None of the marks that separate parts of paths and of role names is an
identifier character.
-/

namespace Warrant

namespace Identifier

/-- The characters of names: the letters and digits of ASCII, underscore, hyphen and dot. -/
def isNameChar (c : Char) : Bool := c.isAlphanum || c == '_' || c == '-' || c == '.'

/-- One or more name characters. -/
def isWord (cs : List Char) : Bool := !cs.isEmpty && cs.all isNameChar

/-- One or more name characters, with at most one line feed behind them. -/
def isAccepted (cs : List Char) : Bool :=
  isWord cs || (cs.getLast? == some '\n' && isWord cs.dropLast)

end Identifier

/-- A text that is accepted as a name. -/
structure Identifier where
  text : String
  accepted : Identifier.isAccepted text.toList = true
  deriving DecidableEq

namespace Identifier

/-- The identifier with the given text; `what` names it in the refusal. -/
def make? (what value : String) : Except Malformed Identifier :=
  if h : isAccepted value.toList = true then .ok ⟨value, h⟩
  else .error (.identifier what value)

end Identifier

end Warrant
