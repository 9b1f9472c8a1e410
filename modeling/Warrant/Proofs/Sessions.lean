import Warrant.Proofs.Errands
import Warrant.Proofs.Ledger
import Warrant.Proofs.Rulings

/-!
# What an enforcement allows

After any session of operations that run one after the other, whatever the cache has kept, lost or let
expire, an enforcement passes exactly if the ledger of the session covers every requested action, and
it fails with exactly those that are not covered (`enforce_eq_ledger`).
-/

namespace Warrant.Engine

open World Procedure

variable {τ : Type} {E : Engine} {s : Site} {L : Ledger} {w : World Site τ}

/-- The ledger after a step of a session, given how the step has ended. -/
def Ledger.enter (L : Ledger) : Aside τ → Except Fault Unit → Ledger
  | .perform o, .ok () => L.record o
  | _, _ => L

/-- The roles mirror the ledger, and whatever is held in the cache is right. -/
structure Booked (E : Engine) (L : Ledger) (w : World Site τ) : Prop where
  quiet : w.log.context.Quiet
  concord : Concord E w.remote
  settled : Settled E w
  mirrors : Mirrors E L w.remote

theorem Booked.plain (h : Booked E L w) : w.remote.Plain E where
  readOnly := h.concord.readOnly
  named := h.concord.named_standIns
  traceable := h.mirrors.traceable h.concord.resolves
  filled := h.mirrors.filled
  confined := h.settled.confined

variable [Add τ] [LE τ] [DecidableLE τ]

/-- Goes through the steps of a session, one after the other, and keeps the ledger. -/
def Ledger.keep (E : Engine) : List (Aside τ) → World Site τ × Ledger → World Site τ × Ledger
  | [], b => b
  | a :: rest, (w, L) =>
    let (result, w) := a.play E w
    keep E rest (w, L.enter a result)

theorem Ledger.backend_keep (session : List (Aside τ)) (w : World Site τ) (L : Ledger) :
    (Ledger.keep E session (w, L)).1.remote.backend = w.remote.backend := by
  induction session generalizing w L with
  | nil => rfl
  | cons a rest ih =>
    cases a with
    | wait d => exact ih (w.advance d) L
    | perform o => exact (ih _ _).trans (backend_run τ (E.perform o) w)

namespace Booked

theorem perform (h : Booked E L w) {o : Operation} (hh : o.Honest) :
    Booked E (L.enter (.perform o : Aside τ) (World.run (E.perform o) w).1)
      (World.run (E.perform o) w).2 := by
  have hend := (ends_perform (τ := τ) h.plain o).of_quiet h.quiet rfl
  have hcontext := context_run τ (E.perform o) w
  have hsettled := h.settled.perform h.quiet h.concord.readOnly hh
  cases hrun : World.run (E.perform o) w with
  | mk result v =>
    rw [hrun] at hend hcontext hsettled
    have hquiet : v.log.context.Quiet := by rw [show v.log.context = _ from hcontext]; exact h.quiet
    cases result with
    | ok a =>
      have hend : w.remote.Alters (Effect E w.remote o) v.remote := hend
      exact ⟨hquiet, h.concord.of_alters hend, hsettled, h.mirrors.record hh hend⟩
    | error f =>
      have hsame : v.remote = w.remote := hend
      exact ⟨hquiet, by rw [hsame]; exact h.concord, hsettled, by rw [hsame]; exact h.mirrors⟩

theorem keep (h : Booked E L w) {session : List (Aside τ)}
    (hh : ∀ o, .perform o ∈ session → o.Honest) :
    Booked E (Ledger.keep E session (w, L)).2 (Ledger.keep E session (w, L)).1 := by
  induction session generalizing w L with
  | nil => exact h
  | cons a rest ih =>
    have hrest := fun o ho => hh o (List.mem_cons_of_mem a ho)
    cases a with
    | wait d =>
      exact ih (w := w.advance d)
        ⟨h.quiet, h.concord, ⟨h.settled.right, h.settled.confined⟩, h.mirrors⟩ hrest
    | perform o => exact ih (h.perform (hh o (List.mem_cons_self ..))) hrest

/-! ### Enforcements -/

/-- An enforcement allows what the ledger covers and fails with all the rest. -/
theorem enforce (h : Booked E L w) {u : Principal} (hu : u.kind = .user) {e : Entity} {path : Path}
    (hp : E.resolver.resolve e = .ok path) (actions : List Action) :
    (World.run (E.enforce e u actions) w).1 =
      match L.denied w.remote.backend.identity.groupsOf u e actions with
      | [] => .ok ()
      | denied => .error (.unauthorized u e denied) := by
  have hbypass : E.bypassAt w.remote u.name = none := by
    rw [bypassAt, h.concord.superusers, h.concord.adminGroup]
    rfl
  have hdenied : w.remote.deniedAt E.resolver e u (Action.distinct actions) =
      .ok (L.denied w.remote.backend.identity.groupsOf u e actions) :=
    Site.deniedAt_of_verdict fun _ => h.mirrors.verdict_eq h.concord hu hp
  rw [run_enforce h.quiet (h.settled.backed e u), ruling_of_checks ⟨hu, hbypass⟩ hp, hdenied]
  show settle e u _ = _
  cases L.denied w.remote.backend.identity.groupsOf u e actions <;> rfl

end Booked

/-- Where every event can be recorded: after any session of operations that run one after the other,
an enforcement passes if the ledger covers every requested action, and fails with those that are not
covered otherwise. -/
theorem enforce_eq_ledger (E : Engine) (site : Site) (hsite : Concord E site)
    (hstore : site.store = .empty) (limits : Cache.Limits τ) (clock : τ) (context : Audit.Context)
    (hquiet : context.Quiet) (session : List (Aside τ))
    (hhonest : ∀ o, .perform o ∈ session → o.Honest) (u : Principal) (hu : u.kind = .user)
    (e : Entity) (path : Path) (he : E.resolver.resolve e = .ok path) (actions : List Action) :
    let books := Ledger.keep E session (World.new limits clock context site, .empty)
    (World.run (E.enforce e u actions) books.1).1 =
      match books.2.denied site.backend.identity.groupsOf u e actions with
      | [] => .ok ()
      | denied => .error (.unauthorized u e denied) := by
  have hbooked : Booked E .empty (World.new limits clock context site) :=
    ⟨hquiet, hsite, settled_new E limits clock context hstore, mirrors_empty hstore⟩
  have h := (hbooked.keep hhonest).enforce hu he actions
  rw [Ledger.backend_keep] at h
  exact h

namespace Sample

/-- Ada and Ben are both of the staff, and Ada is an editor too. -/
def directory : Identity :=
  .listed ⟨[("ada", ["editors", "staff"]), ("ben", ["staff"])], by decide⟩ true

def team : Engine := { engine with looksUpGroups := true }

def office : Site := ⟨⟨directory, ⟨none⟩⟩, false, some directory, .empty⟩

/-- A directory that knows nobody and makes up no groups. -/
def silent : Identity := .listed .empty false

def vacant : Site := ⟨⟨silent, ⟨none⟩⟩, false, some silent, .empty⟩

theorem named_directory {user : String} (h : user ≠ "") :
    directory.groupsOf user ≠ [] ∧ "" ∉ directory.groupsOf user := by
  rw [directory, Identity.groupsOf]
  cases hg : Table.get? _ user with
  | none => exact ⟨List.cons_ne_nil _ _, fun hm => h (List.mem_singleton.mp hm).symm⟩
  | some groups =>
    have hmem := Table.get?_eq_some_iff.mp hg
    simp only [List.mem_cons, Prod.mk.injEq, List.not_mem_nil, or_false] at hmem
    rcases hmem with ⟨-, rfl⟩ | ⟨-, rfl⟩ <;> simp

theorem concord_office : Concord team office :=
  Concord.of_shared rfl rfl rfl (fun _ => named_directory) rfl (fun _ path h => ⟨path, h⟩) rfl rfl

def ben : Principal := ⟨.user, "ben", by decide⟩

def staff : Principal := ⟨.group, "staff", by decide⟩

def editors : Principal := ⟨.group, "editors", by decide⟩

/-- A namespace below the root. -/
def research : Entity :=
  ⟨[⟨.of .root, Resolver.Sample.cdap, none⟩, ⟨.of .space, ⟨"research", by decide⟩, none⟩], by decide,
    ⟨by decide, by decide, by decide, by decide, trivial⟩⟩

/-- The staff may read, editors may execute in a namespace, and Ben has been granted to write until
that was revoked. -/
def session : List (Aside Nat) :=
  [.perform (.createRole "readers"), .perform (.addMember "readers" staff),
    .perform (.grant root readers [.read]), .perform (.grant root ben [.write]),
    .perform (.grant research editors [.execute]), .perform (.enforce research ada [.read, .write]),
    .wait 3, .perform (.revoke root ben [.write])]

theorem honest_session (o : Operation) (ho : .perform o ∈ session) : o.Honest := by
  simp only [session, List.mem_cons, Aside.perform.injEq, reduceCtorEq, List.not_mem_nil, or_false,
    false_or] at ho
  rcases ho with rfl | rfl | rfl | rfl | rfl | rfl | rfl
  all_goals first | exact trivial | exact fun _ => by decide +kernel

/-- What was granted to Ben reached Ada through the staff; after the session she may no longer
write. -/
theorem unauthorized_to_write :
    (World.run (team.enforce research ada [.write, .execute, .read])
      (Ledger.keep team session (.new ⟨10, 5⟩ 0 .empty office, .empty)).1).1 =
      .error (.unauthorized ada research [.write]) := by
  have henforce := enforce_eq_ledger team office concord_office rfl ⟨10, 5⟩ 0 .empty
    Audit.Context.quiet_empty session honest_session ada rfl research research.path rfl
    [.write, .execute, .read]
  have hdenied : (Ledger.keep team session (.new ⟨10, 5⟩ 0 .empty office, .empty)).2.denied
      office.backend.identity.groupsOf ada research [.write, .execute, .read] = [.write] := by
    decide +kernel
  dsimp only at henforce
  rw [hdenied] at henforce
  exact henforce

end Sample

end Warrant.Engine
