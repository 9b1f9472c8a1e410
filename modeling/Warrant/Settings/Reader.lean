import Warrant.Identifier
import Warrant.LogLevel
import Warrant.Text.Blank
import Warrant.Text.Cut
import Warrant.Text.Sorted

/-!
# Settings as they are declared

The settings of the service with their types and defaults, and the two checks that the service makes
itself. They are read by a library; of it nothing is known but that it does what the declarations ask
for (`Settings.Reader.Follows`).
-/

namespace Warrant

namespace Settings

/-- The names of the settings. -/
inductive Field
  | instanceName
  | cacheMaxEntries
  | cacheLifetime
  | adminGroup
  | superusers
  | logLevel
  deriving DecidableEq, Repr

namespace Field

def label : Field → String
  | instanceName => "instance_name"
  | cacheMaxEntries => "cache_max_entries"
  | cacheLifetime => "cache_ttl_seconds"
  | adminGroup => "admin_group_name"
  | superusers => "superusers"
  | logLevel => "log_level"

/-- The type that a setting is declared with. -/
abbrev Value : Field → Type
  | instanceName => String
  | cacheMaxEntries => Int
  | cacheLifetime => Float
  | adminGroup => Option String
  | superusers => String
  | logLevel => String

def default : (f : Field) → f.Value
  | instanceName => "cdap"
  | cacheMaxEntries => 10000
  | cacheLifetime => 300
  | adminGroup => none
  | superusers => ""
  | logLevel => "INFO"

end Field

/-- A value for each setting. -/
def Values : Type := (f : Field) → f.Value

/-- At most one admin group; a blank name is none. -/
def singleGroup : Option String → Except Malformed (Option String)
  | none => .ok none
  | some text =>
    let name := Text.trim text
    if name = "" then .ok none
    else if ',' ∈ name.toList then .error (.severalAdminGroups name)
    else .ok (some name)

/-- The log level is one of the known names. -/
def knownLevel (text : String) : Except Malformed LogLevel :=
  match LogLevel.ofText? text with
  | some level => .ok level
  | none => .error (.unknownLogLevel text)

/-- What the service's own check makes of a value; most settings have none. -/
def Field.validate : (f : Field) → f.Value → Except Malformed f.Value
  | .adminGroup, group => singleGroup group
  | .logLevel, text => (knownLevel text).map LogLevel.label
  | .instanceName, name => .ok name
  | .cacheMaxEntries, size => .ok size
  | .cacheLifetime, lifetime => .ok lifetime
  | .superusers, text => .ok text

/-- The names in the list of superusers: its parts between commas without white space around them,
blank ones left out, sorted and each once. -/
def namesIn (text : String) : List String :=
  let items := (Text.parts ',' text.toList).map fun item => Text.trim (String.ofList item)
  Text.sortedDistinct (items.filter fun name => decide (name ≠ ""))

/-- How settings are read from an input of type `I`, where each of them is given as a `G`. -/
structure Reader (I G : Type) where
  /-- What the input gives for a setting. -/
  given : I → Field → Option G
  /-- What is given, as a value of the setting's type if it can be taken for one. -/
  convert : (f : Field) → G → Option f.Value
  /-- The values of all settings, or the settings that are refused. -/
  read : I → Except (List Field) Values

namespace Reader

variable {I G : Type}

/-- The value that an input states for a setting; it states the default where it gives nothing. -/
def stated (R : Reader I G) (i : I) (f : Field) : Option f.Value :=
  match R.given i f with
  | some g => R.convert f g
  | none => some f.default

/-- The reader does what the declarations ask for. -/
structure Follows (R : Reader I G) : Prop where
  /-- The instance name matches its pattern, name characters to the very end. -/
  pattern : ∀ {i v}, R.read i = .ok v → Identifier.isWord (v .instanceName).toList = true
  /-- The size of the cache has zero as its least value. -/
  ge : ∀ {i v}, R.read i = .ok v → 0 ≤ v .cacheMaxEntries
  /-- The lifetime of decisions is above zero. -/
  gt : ∀ {i v}, R.read i = .ok v → 0 < v .cacheLifetime
  /-- A setting has what the service's own check makes of the stated value. -/
  validated : ∀ {i v}, R.read i = .ok v → ∀ f, ∃ x, R.stated i f = some x ∧ f.validate x = .ok (v f)
  /-- A stated instance name is refused only for its pattern. -/
  refused : ∀ {i fs name}, R.read i = .error fs → .instanceName ∈ fs →
    R.stated i .instanceName = some name → Identifier.isWord name.toList = false

end Reader

end Settings

end Warrant
