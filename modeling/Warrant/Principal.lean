import Warrant.Malformed

/-!
# Principals

Users, groups and roles: the identities that hold privileges.
-/

namespace Warrant

/-- The kinds of identity that a privilege can belong to. -/
inductive PrincipalKind
  | user
  | group
  | role
  deriving DecidableEq, Repr

namespace PrincipalKind

/-- All kinds, in the order in which a tag is looked up. -/
def all : List PrincipalKind := [user, group, role]

def label : PrincipalKind → String
  | user => "user"
  | group => "group"
  | role => "role"

/-- The letter that stands for a kind, the first one of its word. -/
def tag : PrincipalKind → String
  | user => "u"
  | group => "g"
  | role => "r"

def ofLabel? (word : String) : Except Malformed PrincipalKind :=
  match all.find? fun k => k.label = word with
  | some k => .ok k
  | none => .error (.unknownWord word "PrincipalKind")

def ofTag? (tag : String) : Except Malformed PrincipalKind :=
  match all.find? fun k => k.tag = tag with
  | some k => .ok k
  | none => .error (.unknownTag tag)

theorem mem_all (k : PrincipalKind) : k ∈ all := by cases k <;> decide

theorem ofTag?_tag (k : PrincipalKind) : ofTag? k.tag = .ok k := by cases k <;> rfl

end PrincipalKind

/-- An identity that privileges are granted to; it has a name. -/
structure Principal where
  kind : PrincipalKind
  name : String
  named : name ≠ ""
  deriving DecidableEq

namespace Principal

def make? (kind : PrincipalKind) (name : String) : Except Malformed Principal :=
  if named : name ≠ "" then .ok ⟨kind, name, named⟩ else .error .namelessPrincipal

def group? (name : String) : Except Malformed Principal := make? .group name

def text (p : Principal) : String := p.kind.label ++ ":" ++ p.name

instance : Repr Principal := ⟨fun p _ => p.text⟩

end Principal

end Warrant
