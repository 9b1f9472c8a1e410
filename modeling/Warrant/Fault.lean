import Warrant.Action
import Warrant.Entity.Basic
import Warrant.Principal

/-!
# Faults

The ways in which an operation fails. A fault is a cause; its message and the class it is reported
under are functions of the cause.
-/

namespace Warrant

/-- Why an operation failed. -/
inductive Fault
  /-- The principal may not perform some of the actions that it asked for. -/
  | unauthorized (principal : Principal) (entity : Entity) (denied : List Action)
  /-- A word stands where the name of a tier is due. -/
  | unsupportedEntityType (word : String)
  | roleNotFound (role : String)
  | roleAlreadyExists (role : String)
  /-- A caller named a role that is reserved to the engine. -/
  | reservedRoleName (role : String)
  /-- The policy backend cannot be reached. -/
  | backendUnavailable (reason : String)
  /-- The operation does not serve principals of this kind. -/
  | invalidPrincipalKind (principal : Principal) (operation : String)
  /-- The policy backend does not offer the operation. -/
  | unsupportedOperation (operation : String)
  /-- Another failure of the authorization service. -/
  | unclassified (reason : String)
  | malformed (reason : Malformed)
  /-- A look-up met a key that is not there. -/
  | missingKey (key : Option String)
  /-- A failure outside the authorization service. -/
  | external (reason : String)
  | timeout (reason : String)
  /-- A field of the observation context has the name of a field of the event. -/
  | fieldClash (field : String)
  deriving DecidableEq

namespace Fault

def message : Fault → String
  | unauthorized principal entity denied =>
    let capitals := ", ".intercalate ((Action.distinct denied).map Action.capitals)
    s!"Principal '" ++ principal.text ++ s!"' is not authorized to perform {capitals} on entity '" ++
      entity.text ++ "'"
  | unsupportedEntityType word => "Unsupported entity type: " ++ Text.quoted word
  | roleNotFound role => s!"Role '{role}' not found"
  | roleAlreadyExists role => s!"Role '{role}' already exists"
  | reservedRoleName role => s!"Role name '{role}' uses the reserved shadow-role prefix"
  | backendUnavailable reason => reason
  | invalidPrincipalKind principal operation =>
    s!"Operation '{operation}' does not support principal '" ++ principal.text ++ "' of kind '" ++
      principal.kind.label ++ "'"
  | unsupportedOperation operation =>
    s!"Operation '{operation}' is not supported by this policy backend"
  | unclassified reason => reason
  | malformed reason => reason.message
  | missingKey key => (key.map Text.quoted).getD ""
  | external reason => reason
  | timeout reason => reason
  | fieldClash field => s!"Event field '{field}' is given twice"

/-- The class under which a fault is reported. -/
def label : Fault → String
  | unauthorized .. => "UnauthorizedError"
  | unsupportedEntityType _ => "UnsupportedEntityTypeError"
  | roleNotFound _ => "RoleNotFoundError"
  | roleAlreadyExists _ => "RoleAlreadyExistsError"
  | reservedRoleName _ => "ReservedRoleNameError"
  | backendUnavailable _ => "BackendUnavailableError"
  | invalidPrincipalKind .. => "InvalidPrincipalKindError"
  | unsupportedOperation _ => "UnsupportedOperationError"
  | unclassified _ => "AuthorizationBridgeError"
  | malformed _ => "ValueError"
  | missingKey _ => "KeyError"
  | external _ => "RuntimeError"
  | timeout _ => "TimeoutError"
  | fieldClash _ => "TypeError"

/-- The fault is one of the authorization service itself, not of a value or of its surroundings. -/
def isOwn : Fault → Bool
  | malformed _ | missingKey _ | external _ | timeout _ | fieldClash _ => false
  | _ => true

end Fault

/-- A refused value is a fault of the operation that met it. -/
instance : MonadLift (Except Malformed) (Except Fault) := ⟨fun x => x.mapError .malformed⟩

end Warrant
