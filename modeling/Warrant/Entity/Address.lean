import Warrant.Entity.Basic

/-!
# Addresses

Entities given by the names on the way down to them, within an instance and below its namespaces.
-/

namespace Warrant

namespace Entity

/-- The name of the instance that is meant where none is given. -/
def defaultInstance : String := "cdap"

/-- The version of an application that is meant where none is given. -/
def defaultVersion : String := "-SNAPSHOT"

def instance? (name : String) : Except Malformed Entity :=
  make? (.of .root) name none none

/-- A namespace of an instance. -/
def space? (inst name : String) : Except Malformed Entity := do
  make? (.of .space) name (← instance? inst) none

/-- An entity with one component in a namespace. -/
def inSpace? (tier : Tier) (inst space name : String) : Except Malformed Entity := do
  make? (.of tier) name (← space? inst space) none

/-- An entity with a version in a namespace. -/
def versioned? (tier : Tier) (inst space name version : String) : Except Malformed Entity := do
  make? (.of tier) name (← space? inst space) version

/-- A program of an application; the application is looked at before the kind of program. -/
def program? (inst space application version kind name : String) : Except Malformed Entity := do
  let app ← versioned? .application inst space application version
  let kind ← ProgramKind.ofLabel? kind
  make? (.of .program) name app kind.label

end Entity

end Warrant
