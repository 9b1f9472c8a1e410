import Warrant.Identifier

/-!
# Entity types

The resource tree has ten tiers, each with one tier above it. A word that names none of them is the
type of a foreign entity, which no path leads to.
-/

namespace Warrant

/-- The kinds of program that run inside an application. -/
inductive ProgramKind
  | flow
  | mapreduce
  | spark
  | workflow
  | service
  | worker
  deriving DecidableEq, Repr

namespace ProgramKind

def all : List ProgramKind := [flow, mapreduce, spark, workflow, service, worker]

def label : ProgramKind → String
  | flow => "flow"
  | mapreduce => "mapreduce"
  | spark => "spark"
  | workflow => "workflow"
  | service => "service"
  | worker => "worker"

def ofLabel? (word : String) : Except Malformed ProgramKind :=
  match all.find? fun k => k.label = word with
  | some k => .ok k
  | none => .error (.unknownWord word "ProgramType")

end ProgramKind

/-- The tiers of the resource tree, from the instance at its root to the programs of an
application. -/
inductive Tier
  | root
  | space
  | artifact
  | application
  | dataset
  | datasetModule
  | datasetType
  | stream
  | program
  | secureKey
  deriving DecidableEq, Repr

namespace Tier

def all : List Tier :=
  [root, space, artifact, application, dataset, datasetModule, datasetType, stream, program,
    secureKey]

theorem mem_all (t : Tier) : t ∈ all := by cases t <;> decide

def label : Tier → String
  | root => "instance"
  | space => "namespace"
  | artifact => "artifact"
  | application => "application"
  | dataset => "dataset"
  | datasetModule => "dataset_module"
  | datasetType => "dataset_type"
  | stream => "stream"
  | program => "program"
  | secureKey => "securekey"

def ofLabel? (word : String) : Option Tier := all.find? fun t => t.label = word

theorem ofLabel?_label (t : Tier) : ofLabel? t.label = some t := by cases t <;> rfl

theorem label_ofLabel? {word : String} {t : Tier} (h : ofLabel? word = some t) : t.label = word := by
  simpa using List.find?_some h

/-- The tier right above. -/
def above? : Tier → Option Tier
  | root => none
  | space => some root
  | program => some application
  | _ => some space

/-- The tiers whose entities have two components: a name and a version or, for programs, a name and
a kind. -/
def isComposite : Tier → Bool
  | artifact | application | program => true
  | _ => false

end Tier

/-- The type of an entity: a tier of the resource tree, or a word that names none. -/
inductive EntityType
  | of (tier : Tier)
  | foreign (word : String) (unknown : Tier.ofLabel? word = none)
  deriving DecidableEq

namespace EntityType

def label : EntityType → String
  | of tier => tier.label
  | foreign word _ => word

/-- The type that a word stands for. -/
def ofLabel (word : String) : EntityType :=
  match h : Tier.ofLabel? word with
  | some tier => .of tier
  | none => .foreign word h

/-- The type of the entities above; a foreign entity has none above it. -/
def above? : EntityType → Option EntityType
  | of tier => tier.above?.map .of
  | foreign _ _ => none

/-- The type has entities with two components. -/
def isComposite : EntityType → Bool
  | of tier => tier.isComposite
  | foreign _ _ => false

theorem label_injective {a b : EntityType} (h : a.label = b.label) : a = b := by
  cases a with
  | of s =>
    cases b with
    | of t =>
      have := Tier.ofLabel?_label s
      rw [show s.label = t.label from h, Tier.ofLabel?_label] at this
      cases this; rfl
    | foreign w hw => rw [← show s.label = w from h, Tier.ofLabel?_label] at hw; cases hw
  | foreign v hv =>
    cases b with
    | of t => rw [show v = t.label from h, Tier.ofLabel?_label] at hv; cases hv
    | foreign w hw => cases (show v = w from h); rfl

end EntityType

end Warrant
