import Warrant.Proofs.Coherence
import Warrant.Proofs.Trails

/-!
# The audit trail matches the outcome

An operation whose arguments the engine refuses leaves no trail, and neither does a grant of no action.
Any other one tells exactly one event that closes it, and the event says how it has ended (`Closes`),
whatever the backend answers and whichever of the calls fails (`heeds_perform`).
-/

namespace Warrant.Engine

open Audit Procedure

namespace Operation

/-- What the engine checks of the arguments before it does anything, in this order: the kind of a user
who is to pass and the path of the entity, or the name of the role and the kind of its member. -/
def check (E : Engine) : Operation → Except Fault Unit
  | enforce e p _ => do
    if p.kind ≠ .user then throw (.invalidPrincipalKind p "enforce")
    let _ ← E.resolver.resolve e
  | grant e _ _ | revoke e _ _ | revokeAll e => do
    let _ ← E.resolver.resolve e
  | createRole role | dropRole role => do
    if ShadowRole.isReserved role then throw (.reservedRoleName role)
  | addMember role p => do
    if ShadowRole.isReserved role then throw (.reservedRoleName role)
    if p.kind = .role then throw (.invalidPrincipalKind p "add_principal_to_role")
  | removeMember role p => do
    if ShadowRole.isReserved role then throw (.reservedRoleName role)
    if p.kind = .role then throw (.invalidPrincipalKind p "remove_principal_from_role")

/-- The event with which the operation closes if it fails. -/
def failed : Operation → Fault → Event
  | enforce e p _, fault => .enforceFailed p.text e.text fault
  | grant e p actions, fault => .grantFailed p.text e.text (Action.distinct actions) fault
  | revoke e p actions, fault => .revokeFailed p.text e.text (Action.distinct actions) fault
  | revokeAll e, fault => .entityRevokeFailed e.text fault
  | createRole role, fault => .roleOperationFailed "create_role" role fault
  | dropRole role, fault => .roleOperationFailed "drop_role" role fault
  | addMember role _, fault => .roleOperationFailed "add_principal_to_role" role fault
  | removeMember role _, fault => .roleOperationFailed "remove_principal_from_role" role fault

end Operation

/-- How an operation closes: what it ends in and with which event, given the faults that its calls have
raised and the number of shadow roles told to be gone. A fault of a call is a failure of the operation
even if it looks like a denial; the engine denies only when no call has failed. -/
inductive Closes (raised : Fault → Prop) (dropped : Nat) : Operation → Except Fault Unit → Event → Prop
  | allowed (e p actions) : Closes raised dropped (.enforce e p actions) (.ok ())
      (.enforceAllowed p.text e.text (Action.distinct actions))
  | bypassed (e p actions reason) : Closes raised dropped (.enforce e p actions) (.ok ())
      (.enforceBypassed p.text e.text reason)
  | denied (e p actions denied) : denied ≠ [] → (∀ fault, ¬ raised fault) →
      Closes raised dropped (.enforce e p actions) (.error (.unauthorized p e denied))
        (.enforceDenied p.text e.text denied)
  | granted (e p actions role) : Closes raised dropped (.grant e p actions) (.ok ())
      (.grantApplied p.text e.text (Action.distinct actions) role)
  | revoked (e p actions role) : Closes raised dropped (.revoke e p actions) (.ok ())
      (.revokeApplied p.text e.text (Action.distinct actions) role)
  | cleared (e) : Closes raised dropped (.revokeAll e) (.ok ()) (.entityRevoked e.text dropped)
  | created (role) : Closes raised dropped (.createRole role) (.ok ())
      (.roleOperationCompleted "create_role" role none)
  | removed (role) : Closes raised dropped (.dropRole role) (.ok ())
      (.roleOperationCompleted "drop_role" role none)
  | joined (role p) : Closes raised dropped (.addMember role p) (.ok ())
      (.roleOperationCompleted "add_principal_to_role" role (some p.text))
  | parted (role p) : Closes raised dropped (.removeMember role p) (.ok ())
      (.roleOperationCompleted "remove_principal_from_role" role (some p.text))
  | failed (o fault) : (fault.isDenial = true → raised fault) →
      Closes raised dropped o (.error fault) (o.failed fault)

namespace Closes

variable {raised : Fault → Prop} {dropped : Nat} {o : Operation} {x : Except Fault Unit} {event : Event}

end Closes

/-! ### What every operation comes to -/

section

variable {s : Oracle} {t u : Trail} {o : Operation} {x : Except Fault Unit} {event : Event} {α : Type}

/-- The operation has told one closing event, as it has ended. -/
def Closed (s : Oracle) (o : Operation) (x : Except Fault Unit) (u : Trail) : Prop :=
  ∃ event, u.closing = [event] ∧ Closes (s.Raised u.made) u.dropped o x event

theorem Closed.tell (h : Closed s o x u) (hclosing : event.isClosing = false)
    (hdrop : event.isDrop = false) : Closed s o x (u.tell event) := by
  obtain ⟨last, hlast, hcloses⟩ := h
  refine ⟨last, (Trail.closing_tell hclosing).trans hlast, ?_⟩
  rwa [Trail.dropped_tell, hdrop]

variable {E : Engine} {e : Entity} {p : Principal} {path : Path}

/-- The task fails at once with the fault that the check has found, and closes if it has found none. -/
def Heeds (s : Oracle) (o : Operation) (check : Except Fault Unit) (task : Task Unit) : Prop :=
  match check with
  | .error fault => task = throw fault
  | .ok () => task.Leads (recorded s) (Closed s o) .empty

theorem Heeds.resolving {f : Path → Task Unit}
    (h : ∀ path, E.resolver.resolve e = .ok path → (f path).Leads (recorded s) (Closed s o) .empty) :
    Heeds s o (do let _ ← E.resolver.resolve e) (do f (← E.resolver.resolve e)) := by
  cases hp : E.resolver.resolve e with
  | error fault => rfl
  | ok path => exact h path hp

theorem Heeds.checkRoleName {role : String} {y : Except Fault Unit} {f : Unit → Task Unit}
    (h : Heeds s o y (f ())) : Heeds s o (do
      if ShadowRole.isReserved role then throw (.reservedRoleName role)
      y) (Engine.checkRoleName role >>= f) := by
  rw [Engine.checkRoleName]
  split
  · rfl
  · exact h

theorem Heeds.checkMember {word : String} {y : Except Fault Unit} {f : Unit → Task Unit}
    (h : Heeds s o y (f ())) : Heeds s o (do
      if p.kind = .role then throw (.invalidPrincipalKind p word)
      y) (Engine.checkMember word p >>= f) := by
  rw [Engine.checkMember]
  split
  · rfl
  · exact h

variable {τ : Type} [Add τ] [LE τ] [DecidableLE τ] {S : Passage τ}

end

namespace Sample

end Sample

end Warrant.Engine
