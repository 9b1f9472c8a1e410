import Warrant.Proofs.Schedules
import Warrant.Proofs.Sessions

/-!
# Who passes without a check

An engine with superusers and an admin group and the same engine without them go through the same
sites when they run the same errands (`Abreast.attend`): only enforcements tell them apart, and these
change no role. So what an enforcement by anybody else comes to is the same on both, but for one case:
a user who has no groups is taken to be in the group of the user's own name, and that may be the admin
group (`same_as_unprivileged_iff`).
-/

namespace Warrant.Engine

open World Procedure

variable {τ : Type} {E : Engine} {s : Site} {o : Operation} {e : Entity} {u : Principal}

/-- The engine under which nobody passes without a check. -/
def unprivileged (E : Engine) : Engine := { E with superusers := [], adminGroup := none }

theorem bypassAt_unprivileged (user : String) : E.unprivileged.bypassAt s user = none := rfl

theorem dropOwned_unprivileged (roles : List String) :
    E.unprivileged.dropOwned e roles = E.dropOwned e roles := by
  induction roles with
  | nil => rfl
  | cons role rest ih =>
    rw [dropOwned, dropOwned, ih]
    rfl

/-- No write looks at who passes without a check. -/
theorem perform_unprivileged (hw : o.IsWrite) : E.unprivileged.perform o = E.perform o := by
  cases o with
  | enforce => exact hw.elim
  | revokeAll e =>
    have hbody : ∀ path, E.unprivileged.revokeAllOn e path = E.revokeAllOn e path := by
      intro path
      simp only [revokeAllOn, dropOwned_unprivileged]
    show E.unprivileged.revokeAll e = E.revokeAll e
    rw [revokeAll, revokeAll]
    simp only [hbody]
    rfl
  | _ => rfl

variable [Add τ] [LE τ] [DecidableLE τ] {w v : World Site τ}

/-- What a write ends in and makes of the site does not depend on the cache. -/
theorem run_write_congr (hw : o.IsWrite) (hh : o.Honest) (hr : v.remote = w.remote)
    (hc : v.log.context = w.log.context) :
    (World.run (E.perform o) v).2.remote = (World.run (E.perform o) w).2.remote := by
  let scene : World Site τ → Scene τ := fun w => ⟨w, fun _ => .bare .carriedOut, [w.remote], [], []⟩
  have hlookups : Lookups fun _ => (.bare .carriedOut : Turn τ) := fun n a ha => by cases ha
  have hlike : Like (scene v) (scene w) :=
    ⟨hr, hc, congrArg (fun s => [s]) hr, fun _ => rfl, hlookups, hlookups⟩
  have hend := (hlike.write (E := E) (shape_perform E hw hh)).2.remote
  rwa [(Scene.run_quiet (E := E) (E.perform o) (scene v) fun _ => rfl).2,
    (Scene.run_quiet (E := E) (E.perform o) (scene w) fun _ => rfl).2] at hend

/-- The first world is one that the engine has come to, the second one that the engine without
privileges has come to; they have the same site, and both hold only what is right. -/
structure Abreast (E : Engine) (w v : World Site τ) : Prop where
  remote : v.remote = w.remote
  context : v.log.context = w.log.context
  quiet : w.log.context.Quiet
  readOnly : w.remote.readOnly = false
  privileged : Settled E w
  plain : Settled E.unprivileged v

namespace Abreast

/-- Whatever an errand ends in on either side, the two worlds go on with the same site. -/
theorem errand (h : Abreast E w v) {x : Errand} (hh : ∀ o, x = .perform o → o.Honest) :
    Abreast E (World.run (x.task E) w).2 (World.run (x.task E.unprivileged) v).2 := by
  have hcontext := context_run τ (x.task E) w
  have hcontext' := context_run τ (x.task E.unprivileged) v
  have hquiet : v.log.context.Quiet := by rw [h.context]; exact h.quiet
  refine ⟨?_, by rw [hcontext, hcontext', h.context], by rw [hcontext]; exact h.quiet,
    by rw [services_run]; exact h.readOnly, h.privileged.errand h.quiet h.readOnly hh,
    h.plain.errand hquiet (by rw [h.remote]; exact h.readOnly) hh⟩
  by_cases hx : ∃ o, x = .perform o
  · obtain ⟨o, rfl⟩ := hx
    by_cases hw : o.IsWrite
    · show (World.run (E.unprivileged.perform o) v).2.remote = (World.run (E.perform o) w).2.remote
      rw [perform_unprivileged hw]
      exact run_write_congr hw (hh o rfl) h.remote h.context
    · have hremote := ((Aside.IsLookup.passes (E := E) (a := .perform o) hw w)).1
      have hremote' := ((Aside.IsLookup.passes (E := E.unprivileged) (a := .perform o) hw v)).1
      exact hremote'.trans (h.remote.trans hremote.symm)
  · have hlists : ∀ o, x ≠ .perform o := fun o ho => hx ⟨o, ho⟩
    rw [(Errand.lists hlists w).1, (Errand.lists hlists v).1, h.remote]

theorem attend (h : Abreast E w v) {history : List (Occasion τ)}
    (hh : ∀ o, .errand (.perform o) ∈ history → o.Honest) :
    Abreast E (E.attend history w) (E.unprivileged.attend history v) := by
  induction history generalizing w v with
  | nil => exact h
  | cons happening rest ih =>
    have hrest := fun o ho => hh o (List.mem_cons_of_mem happening ho)
    cases happening with
    | errand x => exact ih (h.errand fun o ho => hh o (ho ▸ List.mem_cons_self ..)) hrest
    | wait d =>
      exact ih (w := w.advance d) (v := v.advance d)
        ⟨h.remote, h.context, h.quiet, h.readOnly, ⟨h.privileged.right, h.privileged.confined⟩,
          ⟨h.plain.right, h.plain.confined⟩⟩ hrest

end Abreast

omit [Add τ] [LE τ] [DecidableLE τ] in
/-- Why a user passes who is neither a superuser nor, by the groups that are reported, in the admin
group: no groups are reported at all, and the admin group has the user's name. -/
theorem bypassAt_isSome_iff {I : Identity} (hlook : E.looksUpGroups = true)
    (hidentity : s.identity = some I) {user : String} (hsuper : user ∉ E.superusers)
    (hadmin : ∀ admins, E.adminGroup = some admins → admins ∉ I.groupsOf user) :
    (E.bypassAt s user).isSome = true ↔ I.groupsOf user = [] ∧ E.adminGroup = some user := by
  have hgroups : E.groupsAt s user = if (I.groupsOf user).isEmpty then [user] else I.groupsOf user := by
    rw [groupsAt, hlook, hidentity]
    rfl
  rw [bypassAt, if_neg hsuper, hgroups]
  cases hg : E.adminGroup with
  | none => simp
  | some admins =>
    have hout := hadmin admins hg
    cases hl : I.groupsOf user with
    | nil => by_cases h : admins = user <;> simp [h]
    | cons group rest =>
      rw [hl] at hout
      simp [hout]

omit [Add τ] [LE τ] [DecidableLE τ] in
theorem ruling_unprivileged {actions : List Action} (h : E.bypassAt s u.name = none) :
    E.unprivileged.ruling s e u actions = E.ruling s e u actions := by
  rw [ruling, ruling, h, bypassAt_unprivileged]
  rfl

omit [Add τ] [LE τ] [DecidableLE τ] in
/-- A user who passes without a check is ruled on alike by the engine without privileges exactly if
that allows all, or if there is nothing to rule on. -/
theorem ruling_eq_unprivileged_iff {actions : List Action}
    (hbypass : (E.bypassAt s u.name).isSome = true) :
    E.ruling s e u actions = E.unprivileged.ruling s e u actions ↔
      (u.kind = .user → E.unprivileged.ruling s e u actions = .ok () ∨
        ∃ f, E.resolver.resolve e = .error f) := by
  by_cases hu : u.kind = .user
  · cases hp : E.resolver.resolve e with
    | error f =>
      have hp' : E.unprivileged.resolver.resolve e = .error f := hp
      rw [ruling_of_unresolved hu hp, ruling_of_unresolved hu hp']
      exact iff_of_true rfl fun _ => .inr ⟨f, rfl⟩
    | ok path =>
      rw [ruling_of_bypass hu hp hbypass]
      exact ⟨fun h _ => .inl h.symm, fun h => ((h hu).resolve_right nofun).symm⟩
  · rw [ruling_of_kind hu, ruling_of_kind hu]
    exact iff_of_true rfl fun hu' => absurd hu' hu

/-- Where every event can be recorded, an enforcement on a user who is neither a superuser nor a member
of the admin group ends, after any errands on an empty backend, as it would if nobody passed without a
check; unless the user is reported to have no groups and the admin group carries the user's name. Then
the user passes, so that the two still end alike if all is allowed, or if the entity cannot be
resolved. -/
theorem same_as_unprivileged_iff (E : Engine) (hlook : E.looksUpGroups = true) (site : Site)
    (I : Identity) (hidentity : site.identity = some I) (hopen : site.readOnly = false)
    (hempty : site.store = .empty) (limits : Cache.Limits τ) (clock : τ) (context : Audit.Context)
    (hquiet : context.Quiet) (history : List (Occasion τ))
    (hhonest : ∀ o, .errand (.perform o) ∈ history → o.Honest) (u : Principal)
    (hsuper : u.name ∉ E.superusers)
    (hadmin : ∀ admins, E.adminGroup = some admins → admins ∉ I.groupsOf u.name) (e : Entity)
    (actions : List Action) :
    let start := World.new limits clock context site
    let result := (World.run (E.enforce e u actions) (E.attend history start)).1
    let plain := (World.run (E.unprivileged.enforce e u actions)
      (E.unprivileged.attend history start)).1
    result = plain ↔ (u.kind = .user → I.groupsOf u.name = [] → E.adminGroup = some u.name →
      plain = .ok () ∨ ∃ f, E.resolver.resolve e = .error f) := by
  intro start result plain
  have hstart : Abreast E start start :=
    ⟨rfl, rfl, hquiet, hopen, settled_new E limits clock context hempty,
      settled_new E.unprivileged limits clock context hempty⟩
  have h := hstart.attend hhonest
  have hquiet' : (E.unprivileged.attend history start).log.context.Quiet := by
    rw [h.context]
    exact h.quiet
  have hresult : result = E.ruling (E.attend history start).remote e u actions :=
    run_enforce h.quiet (h.privileged.backed e u)
  have hplain : plain = E.unprivileged.ruling (E.attend history start).remote e u actions := by
    rw [← h.remote]
    exact run_enforce hquiet' (h.plain.backed e u)
  have hservices := services_attend (E := E) history start
  have hwhy : (E.bypassAt (E.attend history start).remote u.name).isSome = true ↔
      I.groupsOf u.name = [] ∧ E.adminGroup = some u.name :=
    bypassAt_isSome_iff hlook (by rw [hservices]; exact hidentity) hsuper hadmin
  rw [hresult, hplain]
  by_cases hbypass : (E.bypassAt (E.attend history start).remote u.name).isSome = true
  · obtain ⟨hgroups, hname⟩ := hwhy.mp hbypass
    rw [ruling_eq_unprivileged_iff hbypass]
    exact ⟨fun h hu _ _ => h hu, fun h hu => h hu hgroups hname⟩
  · rw [ruling_unprivileged (Option.not_isSome_iff_eq_none.mp hbypass)]
    exact iff_of_true rfl fun _ hgroups hname => absurd (hwhy.mpr ⟨hgroups, hname⟩) hbypass

namespace Sample

/-- The team with the editors as its admins, of which Ada is one and Ben is not. -/
def headed : Engine := { team with superusers := ["root"], adminGroup := some "editors" }

/-- Ada passes without a check before and after the readers come to read. -/
def meanwhile : List (Occasion Nat) :=
  [.errand (.perform (.createRole "readers")), .errand (.perform (.addMember "readers" staff)),
    .errand (.perform (.enforce research ada [.write])), .wait 3,
    .errand (.perform (.grant root readers [.read])), .errand .listAllRoles,
    .errand (.perform (.enforce research ada [.write]))]

theorem honest_meanwhile (o : Operation) (ho : .errand (.perform o) ∈ meanwhile) : o.Honest := by
  simp only [meanwhile, List.mem_cons, Occasion.errand.injEq, Errand.perform.injEq, reduceCtorEq,
    List.not_mem_nil, or_false, false_or] at ho
  rcases ho with rfl | rfl | rfl | rfl | rfl
  all_goals first | exact trivial | exact fun _ => by decide +kernel

/-- That Ada passes makes no difference to Ben, who is denied to write. -/
theorem ben_as_unprivileged :
    let start : World Site Nat := .new ⟨10, 5⟩ 0 .empty office
    (World.run (headed.enforce research ada [.write]) (headed.attend meanwhile start)).1 = .ok () ∧
    (World.run (headed.enforce research ben [.read, .write]) (headed.attend meanwhile start)).1 =
      (World.run (headed.unprivileged.enforce research ben [.read, .write])
        (headed.unprivileged.attend meanwhile start)).1 ∧
    (World.run (headed.enforce research ben [.read, .write]) (headed.attend meanwhile start)).1 =
      .error (.unauthorized ben research [.write]) := by
  refine ⟨by decide +kernel, ?_, by decide +kernel⟩
  refine (same_as_unprivileged_iff headed rfl office directory rfl rfl rfl ⟨10, 5⟩ 0 .empty
    Audit.Context.quiet_empty meanwhile honest_meanwhile ben (by decide) (fun admins h => ?_) research
    [.read, .write]).mpr fun _ hgroups => absurd hgroups (by decide)
  obtain rfl := Option.some.inj h
  decide

/-- An admin group that happens to carry Ada's name. -/
def namesake : Engine := { team with adminGroup := some "ada" }

/-- Ada has no groups, and still passes for her name. -/
theorem passes_for_name :
    let start : World Site Nat := .new ⟨10, 5⟩ 0 .empty vacant
    ada.name ∉ namesake.superusers ∧ "ada" ∉ silent.groupsOf ada.name ∧
    (World.run (namesake.enforce root ada [.read]) start).1 = .ok () ∧
    (World.run (namesake.unprivileged.enforce root ada [.read]) start).1 =
      .error (.unauthorized ada root [.read]) := by
  decide +kernel

end Sample

end Warrant.Engine
