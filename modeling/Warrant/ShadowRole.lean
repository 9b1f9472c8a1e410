import Warrant.Resolver

/-!
# Shadow roles

Privileges can be granted to roles only, so every pair of an entity and a user or group that holds
any has a private role of its own. Its name is the marker, the path of the entity, the tag of the
principal's kind and the principal's name, with colons between them; the first three hold no colon,
so that the name determines the pair.
-/

namespace Warrant.ShadowRole

/-- The mark between the parts of a name. -/
def colon : Char := ':'

/-- What the name of every shadow role starts with. -/
def marker : String := ".:"

/-- The role carries the marker and is reserved to the engine. -/
def isReserved (role : String) : Bool := marker.toList.isPrefixOf role.toList

/-- Only users and groups have shadow roles. -/
def isShadowed (kind : PrincipalKind) : Bool := kind != .role

/-- The name of the shadow role of a pair, given the path of its entity. -/
def nameOn (path : Path) (p : Principal) : String :=
  marker ++ path.text ++ String.singleton colon ++ p.kind.tag ++ String.singleton colon ++ p.name

/-- The name of the shadow role of an entity and a user or group. -/
def name? (r : Resolver) (e : Entity) (p : Principal) : Except Fault String := do
  if !isShadowed p.kind then throw (.invalidPrincipalKind p "shadow_role")
  return nameOn (← r.resolve e) p

/-- Reads the path and the principal off a name. -/
def read? (role : String) : Option (Path × Principal) := do
  if !isReserved role then none
  let (path, behind) ← Text.cut? colon (role.toList.drop marker.length)
  let (tag, name) ← Text.cut? colon behind
  let principal ← (do
    let kind ← PrincipalKind.ofTag? (String.ofList tag)
    Principal.make? kind (String.ofList name)).toOption
  let path ← (Path.read? (String.ofList path)).toOption
  if isShadowed principal.kind then some (path, principal) else none

/-- The entity of a shadow role, none if the role is not one. A path that leads to no entity makes
the name that of no shadow role; any other failure on the way back is passed on. -/
def ownerOf (r : Resolver) (role : String) : Except Fault (Option Entity) :=
  match read? role with
  | none => .ok none
  | some (path, _) =>
    match r.entityOf? path with
    | .ok e => .ok (some e)
    | .error (.unsupportedEntityType _) => .ok none
    | .error (.malformed _) => .ok none
    | .error fault => .error fault

/-- The entity of a shadow role, if the role is one and the way back to it does not fail. -/
def owner? (r : Resolver) (role : String) : Option Entity := (ownerOf r role).toOption.join

/-- The role is a shadow role on the path of the entity. -/
def isOwnedBy? (r : Resolver) (role : String) (e : Entity) : Except Fault Bool :=
  match read? role with
  | none => .ok false
  | some (path, _) => return decide (path = (← r.resolve e))

end Warrant.ShadowRole
