import Warrant.Audit.Context
import Warrant.Cache.Key
import Warrant.Fault

/-!
# Events

What the engine, its cache and the policy backend report. An event has a level, a name and fields;
the fields of the observation context are added when it is recorded.
-/

namespace Warrant.Audit

/-- How urgent an event is. -/
inductive Level
  | debug
  | info
  | warning
  | error
  deriving DecidableEq, Repr

def Level.label : Level → String
  | .debug => "debug"
  | .info => "info"
  | .warning => "warning"
  | .error => "error"

/-- Something worth reporting. Principals and entities appear as they are displayed. -/
inductive Event
  | enforceAllowed (principal entity : String) (actions : List Action)
  | enforceDenied (principal entity : String) (denied : List Action)
  | enforceBypassed (principal entity reason : String)
  | enforceFailed (principal entity : String) (fault : Fault)
  | grantApplied (principal entity : String) (actions : List Action) (role : String)
  | grantFailed (principal entity : String) (actions : List Action) (fault : Fault)
  | revokeApplied (principal entity : String) (actions : List Action) (role : String)
  | revokeFailed (principal entity : String) (actions : List Action) (fault : Fault)
  | shadowRoleCreated (role : String)
  | shadowRoleReused (role : String)
  | shadowRoleDropped (role reason : String)
  | shadowRoleRetained (role : String) (remaining : Int)
  | entityRevoked (entity : String) (dropped : Int)
  | entityRevokeFailed (entity : String) (fault : Fault)
  | roleOperationCompleted (operation role : String) (principal : Option String)
  | roleOperationFailed (operation role : String) (fault : Fault)
  | cacheHit (key : Cache.Key) (allowed : Bool)
  | cacheMiss (key : Cache.Key)
  | cacheLoadFailed (key : Cache.Key) (fault : Fault)
  | entryEvicted (key : Cache.Key)
  | entriesInvalidated (entity : String) (count : Int)
  | cacheCleared (count : Int)
  | roleCreated (role : String)
  | roleDropped (role : String)
  | principalAttached (role principal : String)
  | principalDetached (role principal : String)
  | privilegesGranted (resource role : String) (actions : List Action)
  | privilegesRevoked (resource role : String) (actions : List Action)
  | resourceCleared (resource : String) (roles : Int)
  | authorizationChecked (principal resource : String) (action : Action) (granted : Bool)
  | operationRejected (operation : String)
  deriving DecidableEq

namespace Event

def level : Event → Level
  | enforceAllowed .. | enforceBypassed .. | shadowRoleCreated _ | shadowRoleReused _
  | shadowRoleRetained .. | cacheHit .. | cacheMiss _ | entryEvicted _
  | authorizationChecked .. => .debug
  | enforceFailed .. | grantFailed .. | revokeFailed .. | entityRevokeFailed ..
  | roleOperationFailed .. | cacheLoadFailed .. => .error
  | operationRejected _ => .warning
  | _ => .info

/-- The name under which an event is recorded. -/
def name : Event → String
  | enforceAllowed .. => "authorization_enforce_allowed"
  | enforceDenied .. => "authorization_enforce_denied"
  | enforceBypassed .. => "authorization_enforce_bypassed"
  | enforceFailed .. => "authorization_enforce_failed"
  | grantApplied .. => "authorization_grant_applied"
  | grantFailed .. => "authorization_grant_failed"
  | revokeApplied .. => "authorization_revoke_applied"
  | revokeFailed .. => "authorization_revoke_failed"
  | shadowRoleCreated _ => "shadow_role_created"
  | shadowRoleReused _ => "shadow_role_reused"
  | shadowRoleDropped .. => "shadow_role_dropped"
  | shadowRoleRetained .. => "shadow_role_retained"
  | entityRevoked .. => "authorization_entity_revoked"
  | entityRevokeFailed .. => "authorization_entity_revoke_failed"
  | roleOperationCompleted .. => "role_operation_completed"
  | roleOperationFailed .. => "role_operation_failed"
  | cacheHit .. => "decision_cache_hit"
  | cacheMiss _ => "decision_cache_miss"
  | cacheLoadFailed .. => "decision_cache_load_failed"
  | entryEvicted _ => "decision_cache_entry_evicted"
  | entriesInvalidated .. => "decision_cache_entries_invalidated"
  | cacheCleared _ => "decision_cache_cleared"
  | roleCreated _ => "policy_backend_role_created"
  | roleDropped _ => "policy_backend_role_dropped"
  | principalAttached .. => "policy_backend_principal_attached"
  | principalDetached .. => "policy_backend_principal_detached"
  | privilegesGranted .. => "policy_backend_privileges_granted"
  | privilegesRevoked .. => "policy_backend_privileges_revoked"
  | resourceCleared .. => "policy_backend_resource_cleared"
  | authorizationChecked .. => "policy_backend_authorization_checked"
  | operationRejected _ => "policy_backend_operation_rejected"

/-- The words of a list of actions, sorted. -/
def actionWords (actions : List Action) : Value :=
  .words ((Action.sorted actions).map Action.label)

/-- The fields that describe a fault: its wording and its class. -/
def faultFields (fault : Fault) : List (String × Value) :=
  [("error", .text fault.message), ("error_type", .text fault.label)]

/-- The fields that name a cached decision. -/
def keyFields (key : Cache.Key) : List (String × Value) :=
  [("principal", .text key.principal.text), ("entity", .text key.entity.text),
    ("action", .text key.action.label)]

/-- The fields of an event, without those of the context. -/
def fields : Event → List (String × Value)
  | enforceAllowed principal entity actions =>
    [("principal", .text principal), ("entity", .text entity), ("actions", actionWords actions)]
  | enforceDenied principal entity denied =>
    [("principal", .text principal), ("entity", .text entity),
      ("denied_actions", actionWords denied)]
  | enforceBypassed principal entity reason =>
    [("principal", .text principal), ("entity", .text entity), ("reason", .text reason)]
  | enforceFailed principal entity fault =>
    [("principal", .text principal), ("entity", .text entity)] ++ faultFields fault
  | grantApplied principal entity actions role | revokeApplied principal entity actions role =>
    [("principal", .text principal), ("entity", .text entity), ("actions", actionWords actions),
      ("role", .text role)]
  | grantFailed principal entity actions fault | revokeFailed principal entity actions fault =>
    [("principal", .text principal), ("entity", .text entity), ("actions", actionWords actions)] ++
      faultFields fault
  | shadowRoleCreated role | shadowRoleReused role | roleCreated role | roleDropped role =>
    [("role", .text role)]
  | shadowRoleDropped role reason => [("role", .text role), ("reason", .text reason)]
  | shadowRoleRetained role remaining =>
    [("role", .text role), ("remaining_privileges", .count remaining)]
  | entityRevoked entity dropped => [("entity", .text entity), ("dropped_roles", .count dropped)]
  | entityRevokeFailed entity fault => ("entity", .text entity) :: faultFields fault
  | roleOperationCompleted operation role principal =>
    [("operation", .text operation), ("role", .text role)] ++
      principal.toList.map fun p => ("principal", .text p)
  | roleOperationFailed operation role fault =>
    [("operation", .text operation), ("role", .text role)] ++ faultFields fault
  | cacheHit key allowed => ("allowed", .flag allowed) :: keyFields key
  | cacheMiss key | entryEvicted key => keyFields key
  | cacheLoadFailed key fault => faultFields fault ++ keyFields key
  | entriesInvalidated entity count => [("entity", .text entity), ("count", .count count)]
  | cacheCleared count => [("count", .count count)]
  | principalAttached role principal | principalDetached role principal =>
    [("role", .text role), ("principal", .text principal)]
  | privilegesGranted resource role actions | privilegesRevoked resource role actions =>
    [("resource", .text resource), ("role", .text role), ("actions", actionWords actions)]
  | resourceCleared resource roles =>
    [("resource", .text resource), ("roles_affected", .count roles)]
  | authorizationChecked principal resource action granted =>
    [("principal", .text principal), ("resource", .text resource), ("action", .text action.label),
      ("granted", .flag granted)]
  | operationRejected operation => [("operation", .text operation)]

end Event

end Warrant.Audit
