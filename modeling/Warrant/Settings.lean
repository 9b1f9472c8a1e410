import Warrant.Decimal.Numeral
import Warrant.Settings.Reader

/-!
# Settings

The settings of the service, and a reader of them. A setting is given as a value, or by a variable of the
environment, or has a default. All settings are checked, and every one that fails is told.
-/

namespace Warrant

/-- The settings of the service. -/
structure Settings where
  instanceName : String
  cacheMaxEntries : Nat
  cacheLifetime : Float
  adminGroup : Option String
  superusers : String
  logLevel : LogLevel

namespace Settings

/-- The settings one by one. -/
def values (s : Settings) : Values
  | .instanceName => s.instanceName
  | .cacheMaxEntries => s.cacheMaxEntries
  | .cacheLifetime => s.cacheLifetime
  | .adminGroup => s.adminGroup
  | .superusers => s.superusers
  | .logLevel => s.logLevel.label

def superuserNames (s : Settings) : List String := namesIn s.superusers

/-- What the names of the variables start with, in small letters. -/
def variableStart : String := "authz_bridge_"

/-- A setting as it was given. -/
inductive Given
  | text (s : String)
  | bytes (b : ByteArray)
  | number (n : Decimal.Numeral)
  | flag (b : Bool)
  | nothing
  /-- Something that none of the settings can be, such as a list. -/
  | other

/-- What is wrong with a setting. -/
inductive Problem
  | notText
  /-- Bytes that are not the code of a text. -/
  | notUnicode
  | patternMismatch
  | notWholeText
  | notWhole
  | fractional
  /-- Too great a number to be looked at. -/
  | outOfReach
  | notFinite
  | belowLeast
  | notRealText
  | notReal
  | notAboveLeast
  | refused (reason : Malformed)
  deriving DecidableEq, Repr

def Problem.label : Problem → String
  | notText => "string_type"
  | notUnicode => "string_unicode"
  | patternMismatch => "string_pattern_mismatch"
  | notWholeText => "int_parsing"
  | notWhole => "int_type"
  | fractional => "int_from_float"
  | outOfReach => "int_parsing_size"
  | notFinite => "finite_number"
  | belowLeast => "greater_than_equal"
  | notRealText => "float_parsing"
  | notReal => "float_type"
  | notAboveLeast => "greater_than"
  | refused _ => "value_error"

def Problem.message? : Problem → Option String
  | refused reason => some ("Value error, " ++ reason.message)
  | _ => none

/-! ### The single settings -/

def textOf : Given → Except Problem String
  | .text s => .ok s
  | .bytes b =>
    match String.fromUTF8? b with
    | some s => .ok s
    | none => .error .notUnicode
  | _ => .error .notText

def optionalTextOf : Given → Except Problem (Option String)
  | .nothing => .ok none
  | g => (textOf g).map some

/-- An instance name is made of name characters only. -/
def instanceNameOf (g : Given) : Except Problem String := do
  let s ← textOf g
  if Identifier.isWord s.toList then return s else throw .patternMismatch

/-- The whole number with the value of a real one, if there is one. -/
def wholeOfReal? (x : Float) : Option Int := do
  let b ← Decimal.Binary.ofFloat? x
  let m : Nat := b.mantissa * Decimal.twoTo b.exponent.toNat
  let d : Nat := Decimal.twoTo (-b.exponent).toNat
  if m % d = 0 then some (if b.negative then -(m / d : Nat) else (m / d : Nat)) else none

/-- The whole number that a text writes. -/
def wholeOfText (s : String) : Except Problem Int :=
  match Decimal.readWhole? s with
  | some n => .ok n
  | none => .error (if Decimal.startsTooLong s then .outOfReach else .notWholeText)

def wholeOf : Given → Except Problem Int
  | .text s => wholeOfText s
  | .bytes b =>
    match String.fromUTF8? b with
    | some s => wholeOfText s
    | none => .error .notWholeText
  | .number (.whole n) => .ok n
  | .number (.real x) =>
    if !x.isFinite then .error .notFinite
    else match wholeOfReal? x with
      | some n => if n.natAbs < Decimal.twoTo 63 then .ok n else .error .outOfReach
      | none => .error .fractional
  | .flag b => .ok b.toInt
  | .nothing | .other => .error .notWhole

/-- The real number that a text writes. -/
def realOfText (s : String) : Except Problem Float :=
  match Decimal.readReal? s with
  | some x => .ok x
  | none => .error .notRealText

def realOf : Given → Except Problem Float
  | .text s => realOfText s
  | .bytes b =>
    match String.fromUTF8? b with
    | some s => realOfText s
    | none => .error .notRealText
  | .number n => .ok n.toFloat
  | .flag b => .ok (if b then 1 else 0)
  | .nothing | .other => .error .notReal

/-- The size of the cache is a whole number from zero on. -/
def cacheMaxEntriesOf (g : Given) : Except Problem Nat := do
  let n ← wholeOf g
  if n < 0 then throw .belowLeast else return n.toNat

/-- The lifetime of decisions is a number above zero. -/
def cacheLifetimeOf (g : Given) : Except Problem Float := do
  let x ← realOf g
  if 0 < x then return x else throw .notAboveLeast

def adminGroupOf (g : Given) : Except Problem (Option String) := do
  let group ← optionalTextOf g
  (singleGroup group).mapError .refused

def logLevelOf (g : Given) : Except Problem LogLevel := do
  let s ← textOf g
  (knownLevel s).mapError .refused

/-! ### All settings -/

/-- Where settings come from. The variables of a file stand in front of those of the process. -/
structure Source where
  environment : List (String × String)
  values : List (String × Given)

/-- A setting as it is given: a value wins over a variable. Where names differ in case only, the
first of the values wins and the last of the variables. -/
def Source.find? (s : Source) (f : Field) : Option Given :=
  let given := (s.values.find? fun v => Text.lowerAscii v.1 = f.label).map Prod.snd
  let stated := s.environment.reverse.find? fun v =>
    Text.lowerAscii v.1 = variableStart ++ f.label
  given.or (stated.map fun v => .text v.2)

/-- One setting: its default where it is not given, else what the check makes of it. -/
def Source.read {α : Type} (s : Source) (f : Field) (default : α)
    (check : Given → Except Problem α) : Except (List (Field × Problem)) α :=
  match s.find? f with
  | none => .ok default
  | some g => (check g).mapError fun p => [(f, p)]

/-- The problem of a setting, if it has one. -/
def problems {α : Type} : Except (List (Field × Problem)) α → List (Field × Problem)
  | .ok _ => []
  | .error ps => ps

/-- Reads all settings, or tells the problem of each that fails. -/
def read (s : Source) : Except (List (Field × Problem)) Settings :=
  let instanceName := s.read .instanceName "cdap" instanceNameOf
  let cacheMaxEntries := s.read .cacheMaxEntries 10000 cacheMaxEntriesOf
  let cacheLifetime := s.read .cacheLifetime 300 cacheLifetimeOf
  let adminGroup := s.read .adminGroup none adminGroupOf
  let superusers := s.read .superusers "" textOf
  let logLevel := s.read .logLevel .info logLevelOf
  match instanceName, cacheMaxEntries, cacheLifetime, adminGroup, superusers, logLevel with
  | .ok instanceName, .ok cacheMaxEntries, .ok cacheLifetime, .ok adminGroup, .ok superusers,
    .ok logLevel =>
    .ok { instanceName, cacheMaxEntries, cacheLifetime, adminGroup, superusers, logLevel }
  | _, _, _, _, _, _ =>
    .error (problems instanceName ++ problems cacheMaxEntries ++ problems cacheLifetime ++
      problems adminGroup ++ problems superusers ++ problems logLevel)

/-- The reading of the settings from their sources. -/
def reader : Reader Source Given :=
  { given := Source.find?
    convert
      | .instanceName, g => (textOf g).toOption
      | .cacheMaxEntries, g => (wholeOf g).toOption
      | .cacheLifetime, g => (realOf g).toOption
      | .adminGroup, g => (optionalTextOf g).toOption
      | .superusers, g => (textOf g).toOption
      | .logLevel, g => (textOf g).toOption
    read src :=
      match read src with
      | .ok s => .ok s.values
      | .error ps => .error (ps.map Prod.fst) }

end Settings

end Warrant
