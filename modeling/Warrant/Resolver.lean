import Warrant.Fault
import Warrant.Path

/-!
# Resolution

A resolver turns entities into paths and paths into entities. A resolver that serves one instance
refuses every entity of another one, so that two entities never share a path.
-/

namespace Warrant

/-- The way from entities to paths and back, for one instance or for all. -/
structure Resolver where
  served : Option String
  deriving DecidableEq, Repr

/-- A node as a level of a path: the word for its type and its components. -/
def Node.segment (n : Node) : Segment := ⟨n.type.label, n.component⟩

namespace Resolver

/-- Accepts the names of the instances that are served. -/
def check (r : Resolver) (name : String) : Except Malformed Unit :=
  match r.served with
  | some served => if name = served then .ok () else .error (.foreignInstance name served)
  | none => .ok ()

/-- The path of an entity, one level for every node from the root down. -/
def resolve (r : Resolver) (e : Entity) : Except Fault Path :=
  match e.type with
  | .foreign word _ => .error (.unsupportedEntityType word)
  | .of _ => do
    r.check e.root.name.text
    return ⟨e.nodes.map Node.segment⟩

/-- The components of a value: those of a composite tier are parted by the first separator, and a
program has its kind in front. -/
def splitValue? (tier : Tier) (value : String) : Except Malformed (String × Option String) :=
  if tier.isComposite then
    match Text.cut? Node.separator value.toList with
    | none => .error (.unseparated tier.label value)
    | some (front, behind) =>
      if tier = .program then .ok (String.ofList behind, some (String.ofList front))
      else .ok (String.ofList front, some (String.ofList behind))
  else .ok (value, none)

/-- The entity that one more level leads to. -/
def extend? (r : Resolver) (above : Option Entity) (s : Segment) : Except Fault Entity := do
  match Tier.ofLabel? s.name with
  | none => throw (.unsupportedEntityType s.name)
  | some tier =>
    let (name, qualifier) ← splitValue? tier s.value
    if above.isNone then r.check name
    Entity.make? (.of tier) name above qualifier

/-- The entity that a list of levels leads to from the one above them. -/
def descend? (r : Resolver) : Option Entity → List Segment → Except Fault (Option Entity)
  | above, [] => .ok above
  | above, s :: rest => do r.descend? (some (← r.extend? above s)) rest

/-- The entity that a path was resolved from. -/
def entityOf? (r : Resolver) (p : Path) : Except Fault Entity := do
  match ← r.descend? none p.segments with
  | some e => return e
  | none => throw (.malformed .emptyPath)

end Resolver

end Warrant
