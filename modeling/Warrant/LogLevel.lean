import Warrant.Fault
import Warrant.Text.Upper

/-!
# Log levels and log output

The names of log levels, and how log lines are produced: as coloured text for a reader, or as one
object a line for a machine.
-/

namespace Warrant

/-- The names of the log levels; two levels have two names. -/
inductive LogLevel
  | critical
  | fatal
  | error
  | warning
  | warn
  | info
  | debug
  | notset
  deriving DecidableEq, Repr

namespace LogLevel

def all : List LogLevel := [critical, fatal, error, warning, warn, info, debug, notset]

def label : LogLevel → String
  | critical => "CRITICAL"
  | fatal => "FATAL"
  | error => "ERROR"
  | warning => "WARNING"
  | warn => "WARN"
  | info => "INFO"
  | debug => "DEBUG"
  | notset => "NOTSET"

/-- The rank of a level; lines of a lower rank than the least one are not written. -/
def rank : LogLevel → Nat
  | critical | fatal => 50
  | error => 40
  | warning | warn => 30
  | info => 20
  | debug => 10
  | notset => 0

/-- The level of a name, whatever its case. -/
def ofText? (text : String) : Option LogLevel := all.find? fun l => l.label = Text.upper text

end LogLevel

/-- One step on the way from an event to a line. -/
inductive LogStage
  | mergeContext
  | addLevel
  | addTime
  | addStack
  | addException
  | writeObject
  | writeColoured
  deriving DecidableEq, Repr

/-- How log lines are produced. -/
structure LogOutput where
  leastRank : Nat
  stages : List LogStage
  deriving DecidableEq, Repr

namespace LogOutput

/-- The texts that ask for colours. -/
def colourWords : List String := ["1", "true", "yes"]

/-- Colours are asked for, in letters of any case. -/
def wantsColours (force : Option String) : Bool :=
  match force with
  | some word => decide (Text.lowerAscii word ∈ colourWords)
  | none => false

/-- Lines of at least the given level, coloured if that is asked for. -/
def configure (level : String) (force : Option String) : Except Fault LogOutput :=
  let shared : List LogStage := [.mergeContext, .addLevel, .addTime, .addStack]
  let stages :=
    if wantsColours force then shared ++ [.writeColoured]
    else shared ++ [.addException, .writeObject]
  match LogLevel.ofText? level with
  | some l => .ok ⟨l.rank, stages⟩
  | none => .error (.missingKey (some (Text.upper level)))

/-- Lines are written as coloured text. -/
def isColoured (o : LogOutput) : Bool := decide (LogStage.writeColoured ∈ o.stages)

end LogOutput

end Warrant
