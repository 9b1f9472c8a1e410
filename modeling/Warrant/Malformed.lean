import Warrant.Text.Quoted

/-!
# Malformed values

The reasons for which a value is refused before anything is done with it, and their wording.
-/

namespace Warrant

/-- Why a value is refused. -/
inductive Malformed
  /-- A name holds a character that names do not have, or none at all. -/
  | identifier (what value : String)
  /-- An entity type with two components was given one. -/
  | qualifierMissing (type : String)
  /-- An entity type with one component was given two. -/
  | qualifierUnexpected (type : String)
  /-- An entity hangs below an entity of another type than its own type asks for. -/
  | wrongParent (type : String) (expected actual : Option String)
  /-- A word does not belong to a fixed vocabulary. -/
  | unknownWord (word vocabulary : String)
  /-- No kind of principal has the tag. -/
  | unknownTag (tag : String)
  | namelessPrincipal
  /-- A part of a path is not a name and a value joined by an equals sign. -/
  | pathSegment (part path : String)
  /-- An entity is rooted at another instance than the one that is served. -/
  | foreignInstance (name served : String)
  /-- A value with two components lacks the separator between them. -/
  | unseparated (type value : String)
  | emptyPath
  | negativeSize (given : String)
  | lifetimeNotPositive (given : String)
  | severalAdminGroups (text : String)
  | unknownLogLevel (text : String)
  /-- A reason in words of its own. -/
  | stated (text : String)
  deriving DecidableEq, Repr

namespace Malformed

/-- The name of an entity type in a message, where there may be none. -/
def typeText : Option String → String
  | some type => type
  | none => "None"

def message : Malformed → String
  | identifier what value =>
    s!"Invalid {what} '{value}': only letters, digits, '_', '-' and '.' are allowed"
  | qualifierMissing type => s!"A {type} entity requires a qualifier"
  | qualifierUnexpected type => s!"A {type} entity does not take a qualifier"
  | wrongParent type expected actual =>
    s!"A {type} entity must have parent of type " ++ typeText expected ++ ", got " ++
      typeText actual
  | unknownWord word vocabulary => Text.quoted word ++ s!" is not a valid {vocabulary}"
  | unknownTag tag => "Unknown principal kind tag: " ++ Text.quoted tag
  | namelessPrincipal => "Principal name must not be empty"
  | pathSegment part path => s!"Invalid resource path level '{part}' in '{path}'"
  | foreignInstance name served =>
    s!"Entity belongs to instance '{name}', this resolver serves '{served}'"
  | unseparated type value => s!"Composite {type} value '{value}' has no separator"
  | emptyPath => "Cannot rebuild an entity from an empty resource path"
  | negativeSize given => s!"max_entries must be >= 0, got {given}"
  | lifetimeNotPositive given => s!"ttl_seconds must be > 0, got {given}"
  | severalAdminGroups text => s!"Provide exactly one admin group, found '{text}'"
  | unknownLogLevel text => s!"Unknown log level '{text}'"
  | stated text => text

end Malformed

end Warrant
