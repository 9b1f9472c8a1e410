import Warrant.Entity.Tier
import Warrant.Text.Cut

/-!
# Entities

An entity is a node of the resource tree together with all nodes above it: a non-empty list of
nodes, the root first, in which every node hangs below a node of the type that its own type asks
for. `Entity.make?` builds every entity, and says why not when it refuses.
-/

namespace Warrant

/-- One node of the resource tree, without those above it. -/
structure Node where
  type : EntityType
  name : Identifier
  qualifier : Option Identifier
  deriving DecidableEq

namespace Node

/-- The mark between the two components of a node. -/
def separator : Char := '#'

/-- A node has a qualifier exactly when its type is composite, and the qualifier of a program is a
kind of program. -/
def isQualified (type : EntityType) (qualifier : Option Identifier) : Bool :=
  match type, qualifier with
  | .of .program, some q => (ProgramKind.ofLabel? q.text).isOk
  | type, some _ => type.isComposite
  | type, none => !type.isComposite

/-- Every node is qualified as its type asks and hangs below a node of the right type. -/
def Descends : Option EntityType → List Node → Prop
  | _, [] => True
  | above, n :: rest =>
    isQualified n.type n.qualifier = true ∧ n.type.above? = above ∧ Descends (some n.type) rest

theorem Descends.concat {above : Option EntityType} {nodes : List Node} {n : Node}
    (h : Descends above nodes) (hq : isQualified n.type n.qualifier = true)
    (ht : n.type.above? = (nodes.getLast?.map type).or above) : Descends above (nodes ++ [n]) := by
  induction nodes generalizing above with
  | nil => exact ⟨hq, by simpa using ht, trivial⟩
  | cons m rest ih =>
    refine ⟨h.1, h.2.1, ih h.2.2 ?_⟩
    cases rest with
    | nil => simpa using ht
    | cons k rest => simpa [List.getLast?_cons] using ht

/-- A node as one part of a display or of a path: a program has its kind in front of its name, an
artifact or application its version behind its name. -/
def component (n : Node) : String :=
  match n.type, n.qualifier with
  | .of .program, some q => q.text ++ String.singleton separator ++ n.name.text
  | _, some q => n.name.text ++ String.singleton separator ++ q.text
  | _, none => n.name.text

end Node

/-- A node of the resource tree with all nodes above it, the root first. -/
structure Entity where
  nodes : List Node
  nonempty : nodes ≠ []
  descends : Node.Descends none nodes
  deriving DecidableEq

namespace Entity

/-- The node of the entity itself. -/
def leaf (e : Entity) : Node := e.nodes.getLast e.nonempty

/-- The node at the root of the tree. -/
def root (e : Entity) : Node := e.nodes.head e.nonempty

def type (e : Entity) : EntityType := e.leaf.type

def depth (e : Entity) : Nat := e.nodes.length

/-- The other entity is one of those strictly above this one. -/
def isBelow (e other : Entity) : Bool :=
  decide (other.depth < e.depth) && other.nodes.isPrefixOf e.nodes

/-- How an entity is displayed: its type and, from below the instance on, its components. -/
def text (e : Entity) : String :=
  let shown := if e.depth = 1 then e.nodes else e.nodes.drop 1
  e.type.label ++ ":" ++ String.ofList (Text.joined '/' (shown.map fun n => n.component.toList))

instance : Repr Entity := ⟨fun e _ => e.text⟩

/-! ### Building -/

/-- The nodes above the children of an optional entity. -/
def nodesOf : Option Entity → List Node
  | none => []
  | some e => e.nodes

theorem descends_nodesOf (parent : Option Entity) : Node.Descends none (nodesOf parent) := by
  cases parent with
  | none => trivial
  | some e => exact e.descends

theorem getLast?_nodesOf (parent : Option Entity) :
    (nodesOf parent).getLast?.map Node.type = parent.map type := by
  cases parent with
  | none => rfl
  | some e => simp [nodesOf, type, leaf, List.getLast?_eq_some_getLast e.nonempty]

/-- The qualifier of a new node, if it fits the type. -/
def qualify? (type : EntityType) (qualifier : Option String) :
    Except Malformed { q : Option Identifier // Node.isQualified type q = true } :=
  match qualifier with
  | none =>
    if h : Node.isQualified type none = true then .ok ⟨none, h⟩
    else .error (.qualifierMissing type.label)
  | some value => do
    if !type.isComposite then throw (.qualifierUnexpected type.label)
    let q ← Identifier.make? (type.label ++ " qualifier") value
    if h : Node.isQualified type (some q) = true then .ok ⟨some q, h⟩
    else .error (.unknownWord value "ProgramType")

/-- The entity of the type and name below the parent: the name is looked at first, then the
qualifier, then the type of the parent. -/
def make? (type : EntityType) (name : String) (parent : Option Entity)
    (qualifier : Option String) : Except Malformed Entity := do
  let name ← Identifier.make? (type.label ++ " name") name
  let ⟨q, hq⟩ ← qualify? type qualifier
  if h : type.above? = parent.map Entity.type then
    .ok ⟨nodesOf parent ++ [⟨type, name, q⟩], by simp,
      (descends_nodesOf parent).concat hq (by rw [getLast?_nodesOf]; simpa using h)⟩
  else
    .error (.wrongParent type.label (type.above?.map EntityType.label)
      (parent.map fun e => e.type.label))

end Entity

end Warrant
