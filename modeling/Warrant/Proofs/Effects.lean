import Warrant.Proofs.Alone
import Warrant.Proofs.Privileges
import Warrant.Proofs.Writes

/-!
# What writes do when they run alone

Unless an event cannot be recorded, a write that runs alone alters the roles as it is meant to, or it
fails and alters nothing (`AllOrNothing`). The steps on shadow roles cannot fail: a role that is
already there is reused, one that is gone is passed over, and what a shadow role holds can always be
listed, because the paths of its grants lead back to entities (`Site.Traceable`).
-/

namespace Warrant.Engine

open Procedure RoleStore

/-- Only the roles differ, and they differ as `R` says. -/
structure Site.Alters (R : RoleStore → RoleStore → Prop) (s t : Site) : Prop where
  services : t = { s with store := t.store }
  roles : R s.store t.store

namespace Site.Alters

variable {R R' : RoleStore → RoleStore → Prop} {s t u : Site}

theorem of_store {r : RoleStore} (h : R s.store r) : Alters R s { s with store := r } := ⟨rfl, h⟩

theorem refl (h : R s.store s.store) : Alters R s s := ⟨rfl, h⟩

theorem mono (h : Alters R s t) (hR : R s.store t.store → R' s.store t.store) : Alters R' s t :=
  ⟨h.services, hR h.roles⟩

theorem trans {Q : RoleStore → RoleStore → Prop} (h : Alters R s t) (h' : Alters R' t u)
    (hQ : R s.store t.store → R' t.store u.store → Q s.store u.store) : Alters Q s u := by
  refine ⟨?_, hQ h.roles h'.roles⟩
  rw [h'.services, h.services]

theorem readOnly (h : Alters R s t) : t.readOnly = s.readOnly := by rw [h.services]

theorem backend (h : Alters R s t) : t.backend = s.backend := by rw [h.services]

theorem groupsAt (h : Alters R s t) (E : Engine) (user : String) :
    E.groupsAt t user = E.groupsAt s user := by rw [h.services]; rfl

end Site.Alters

open Site

/-- It has succeeded and altered the roles as `R` says, or it has failed and altered nothing. -/
def AllOrNothing {α : Type} (R : RoleStore → RoleStore → Prop) (s : Site) :
    Except Fault α → Site → Prop
  | .ok _, t => Alters R s t
  | .error _, t => t = s

theorem AllOrNothing.mono {α : Type} {R R' : RoleStore → RoleStore → Prop} {s t : Site}
    {x : Except Fault α} (h : AllOrNothing R s x t) (hR : ∀ r, R s.store r → R' s.store r) :
    AllOrNothing R' s x t := by
  cases x with
  | ok a => exact Alters.mono h (hR t.store)
  | error f => exact h

/-- A call that is refused leaves the roles as they are. -/
theorem answer_cases (c : Backend.Call) (setup : Backend.Setup) (s : RoleStore) :
    (∃ a, c.answer setup s = .ok a ∧ c.apply s = .ok (c.after s)) ∨
      ∃ f, c.answer setup s = .error f ∧ c.after s = s := by
  have hafter : c.apply s = .ok (c.after s) ∨ (∃ f, c.apply s = .error f) ∧ c.after s = s := by
    rw [Backend.Call.after]
    cases c.apply s with
    | ok t => exact .inl rfl
    | error f => exact .inr ⟨⟨f, rfl⟩, rfl⟩
  have hwrite : ∀ (x : Except Fault RoleStore) t, (x = .ok t ∨ (∃ f, x = .error f) ∧ t = s) →
      (∃ a, (x.map fun _ => ()) = .ok a ∧ x = .ok t) ∨
        ∃ f, (x.map fun _ => ()) = .error f ∧ t = s := by
    rintro x t (rfl | ⟨⟨f, rfl⟩, rfl⟩)
    · exact .inl ⟨(), rfl, rfl⟩
    · exact .inr ⟨f, rfl, rfl⟩
  have hread : ∀ {α : Type} (x : Except Fault α), (∃ a, x = .ok a ∧ (.ok s : Except Fault RoleStore) =
      .ok s) ∨ ∃ f, x = .error f ∧ s = s := by
    intro α x
    cases x with
    | ok a => exact .inl ⟨a, rfl, rfl⟩
    | error f => exact .inr ⟨f, rfl, rfl⟩
  cases c with
  | createRole role => exact hwrite _ _ hafter
  | dropRole role => exact hwrite _ _ hafter
  | attach role p => exact hwrite _ _ hafter
  | detach role p => exact hwrite _ _ hafter
  | grant path role actions => exact hwrite _ _ hafter
  | revoke path role actions => exact hwrite _ _ hafter
  | revokeAllOn path => exact .inl ⟨(), rfl, rfl⟩
  | authorize p path a => exact hread _
  | listPrivileges p => exact hread _
  | listRoles p => exact hread _
  | listAllRoles => exact hread _

variable {τ : Type} [Add τ] [LE τ] [DecidableLE τ] {α : Type} {E : Engine} {s : Site}
  {R : RoleStore → RoleStore → Prop} {e : Entity} {path : Path} {p : Principal} {role : String}
  {actions : List Action}

namespace Ends

theorem change {c : Backend.Call} (hs : s.readOnly = false)
    (h : ∀ r, c.apply s.store = .ok r → R s.store r) :
    Ends τ (Engine.policy c) s (AllOrNothing R s) := by
  refine Ends.policy hs ?_
  rcases answer_cases c s.backend s.store with ⟨a, ha, hr⟩ | ⟨f, hf, hr⟩
  · rw [ha]
    exact Alters.of_store (h _ hr)
  · rw [hf, hr]
    rfl

theorem sweeping {body : Task α} {failed : Fault → Audit.Event} {succeeded : α → Audit.Event}
    (h : Ends τ body s (AllOrNothing R s)) :
    Ends τ (Engine.sweeping e body failed succeeded) s (AllOrNothing R s) := by
  refine Succeeds.bind (Succeeds.invalidateSubtree e s) fun _ u hu => ?_
  subst hu
  refine Ends.bind h.onFault (fun a v hv => ?_) fun f v hv => hv
  refine Succeeds.bind (Succeeds.invalidateSubtree e v) fun _ t ht => ?_
  subst ht
  refine Ends.mono (Succeeds.report _ t) fun x t' ⟨_, hx, ht'⟩ => ?_
  rw [hx, ht']
  exact hv

theorem clearing {body : Task Unit} (h : Ends τ body s (AllOrNothing R s)) :
    Ends τ (Engine.clearing body) s (AllOrNothing R s) := by
  refine Ends.bind h (fun _ u hu => ?_) fun f u hu => hu
  refine Succeeds.bind (Succeeds.clear u) fun _ v hv => ?_
  subst hv
  exact Ends.pure hu

theorem roleOperation {operation : String} {about : Option Principal} {run : Task Unit}
    (h : Ends τ run s (AllOrNothing R s)) :
    Ends τ (Engine.roleOperation operation role about run) s (AllOrNothing R s) := by
  refine Ends.bind h.onFault (fun a u hu => ?_) fun f u hu => hu
  refine Ends.mono (Succeeds.report _ u) fun x t ⟨_, hx, ht⟩ => ?_
  rw [hx, ht]
  exact hu

end Ends

/-- What succeeds does so between two droppings of decisions. -/
theorem Succeeds.sweeping {body : Task α} {failed : Fault → Audit.Event} {succeeded : α → Audit.Event}
    {Q : α → Site → Prop} (h : Succeeds τ body s Q) :
    Succeeds τ (Engine.sweeping e body failed succeeded) s fun _ t => ∃ a, Q a t := by
  refine Succeeds.bind (Succeeds.invalidateSubtree e s) fun _ u hu => ?_
  subst hu
  refine Succeeds.bind (Ends.onFault h) fun a v hv => ?_
  refine Succeeds.bind (Succeeds.invalidateSubtree e v) fun _ t ht => ?_
  subst ht
  exact Succeeds.mono (Succeeds.report _ t) fun _ _ ht => ⟨a, ht ▸ hv⟩

theorem Succeeds.policy {c : Backend.Call} {a : c.Answer} {r : RoleStore} (hs : s.readOnly = false)
    (ha : c.answer s.backend s.store = .ok a) (hr : c.apply s.store = .ok r) :
    Succeeds τ (Engine.policy c) s fun b t => b = a ∧ t = { s with store := r } := by
  refine Ends.policy hs ⟨a, ha, rfl, ?_⟩
  rw [Backend.Call.after, hr]

/-! ### Granting -/

theorem succeeds_ensureRole (hs : s.readOnly = false) (role : String) :
    Succeeds τ (ensureRole role) s fun _ t =>
      Alters (Gains (fun n => n = role) (fun _ _ _ => False) fun _ _ => False) s t := by
  let Q : Except Fault Unit → Site → Prop := fun x t =>
    (x = .ok () ∨ x = .error (.roleAlreadyExists role)) ∧
      Alters (Gains (fun n => n = role) (fun _ _ _ => False) fun _ _ => False) s t
  have hcreate : Ends τ (Engine.policy (.createRole role)) s Q := by
    refine Ends.policy hs ?_
    dsimp only [Backend.Call.answer, Backend.Call.after, Backend.Call.apply]
    cases hc : s.store.create role with
    | ok r => exact ⟨.inl rfl, Alters.of_store (gains_create hc)⟩
    | error f =>
      rw [RoleStore.create] at hc
      split at hc
      · rename_i hcontains
        cases hc
        have hkey : role ∈ s.store.roles.keys := by simpa [Table.contains] using hcontains
        exact ⟨.inr rfl, Alters.refl (Gains.of_has (Table.mem_keys_iff.mp hkey))⟩
      · cases hc
  have hcreated : Ends τ (do
      Engine.policy (.createRole role)
      report (.shadowRoleCreated role) : Task Unit) s Q := by
    refine Ends.bind hcreate (fun a u hu => Ends.mono (Succeeds.report _ u) ?_) fun f u hu => hu
    rintro x t ⟨_, hx, ht⟩
    rw [hx, ht]
    exact ⟨.inl rfl, hu.2⟩
  refine Ends.outcome_bind hcreated (fun _ => ⟨rfl, rfl⟩) ?_
  rintro x u ⟨hx, hu⟩
  rcases hx with rfl | rfl
  · exact Ends.conclude ⟨(), rfl, hu⟩
  · refine Succeeds.mono (Succeeds.report _ u).handling fun _ t ht => ?_
    rw [ht]
    exact hu

theorem succeeds_attachGroup (hs : s.readOnly = false) (hrole : s.store.Has role)
    (group : Principal) : Succeeds τ (attachGroup role group) s fun _ t => Alters
      (Gains (fun _ => False) (fun _ _ _ => False) fun n m => n = role ∧ m = group) s t := by
  obtain ⟨r, hr⟩ := hrole.change (Role.attach group)
  have hattach := Succeeds.policy (τ := τ) (c := .attach role group) hs
    (congrArg (Except.map fun _ => ()) hr) hr
  refine Ends.outcome_bind hattach (fun _ => ⟨rfl, rfl⟩) fun x u ⟨_, hx, _, hu⟩ => ?_
  subst hx hu
  exact Ends.conclude ⟨(), rfl, Alters.of_store (gains_attach hr)⟩

theorem succeeds_attachGroups (hs : s.readOnly = false) (hrole : s.store.Has role)
    {names : List String} (hnames : "" ∉ names) : Succeeds τ (attachGroups role names) s fun _ t =>
      Alters (Gains (fun _ => False) (fun _ _ _ => False)
        fun n m => n = role ∧ m.kind = .group ∧ m.name ∈ names) s t := by
  induction names generalizing s with
  | nil =>
    refine Succeeds.pure (Alters.refl ((Gains.nothing s.store).congr (fun _ => .rfl)
      (fun _ _ _ => .rfl) ?_))
    exact fun n m => ⟨False.elim, fun h => by cases h.2.2⟩
  | cons name rest ih =>
    have hname : name ≠ "" := fun h => hnames (h ▸ List.mem_cons_self ..)
    have hgroup : Principal.group? name = .ok ⟨.group, name, hname⟩ := by
      rw [Principal.group?, Principal.make?, dif_pos hname]
    refine Ends.bind_conclude (fun group hg => ?_) fun f hf => ?_
    · obtain rfl : ⟨.group, name, hname⟩ = group := by
        rw [hgroup] at hg
        exact Except.ok.inj hg
      refine Succeeds.bind (succeeds_attachGroup hs hrole _) fun _ u hu => ?_
      have hrest := ih (s := u) (hu.readOnly.trans hs) ((hu.roles.roles role).mpr (.inl hrole))
        fun h => hnames (List.mem_cons_of_mem _ h)
      refine Succeeds.mono hrest fun _ t ht => ?_
      refine hu.trans ht fun h h' => (h.trans h').congr (fun _ => or_self_iff)
        (fun _ _ _ => or_self_iff) fun n m => ?_
      constructor
      · rintro (⟨rfl, rfl⟩ | ⟨rfl, hk, hm⟩)
        · exact ⟨rfl, rfl, List.mem_cons_self ..⟩
        · exact ⟨rfl, hk, List.mem_cons_of_mem _ hm⟩
      · rintro ⟨rfl, hk, hm⟩
        rcases List.mem_cons.mp hm with hm | hm
        · obtain ⟨kind, word, named⟩ := m
          subst hk hm
          exact .inl ⟨rfl, rfl⟩
        · exact .inr ⟨rfl, hk, hm⟩
    · rw [hgroup] at hf
      cases hf

/-- The names of the groups that stand for a user or group at the site. -/
def standInsAt (E : Engine) (s : Site) (p : Principal) : List String :=
  if p.kind = .user then E.groupsAt s p.name else [p.name]

omit [Add τ] [LE τ] [DecidableLE τ] in
/-- No group that stands for a principal lacks a name, if none that is looked up does. -/
theorem named_standInsAt
    (h : ∀ I, s.identity = some I → ∀ user, user ≠ "" → "" ∉ I.groupsOf user) (p : Principal) :
    "" ∉ E.standInsAt s p := by
  have hself : ∀ {name : String}, name ≠ "" → "" ∉ [name] := fun hne hm =>
    hne (List.mem_singleton.mp hm).symm
  rw [standInsAt]
  split
  · rw [groupsAt]
    split
    · split
      · exact hself p.named
      · cases hI : s.identity with
        | none => exact List.not_mem_nil
        | some I => exact h I hI p.name p.named
    · exact hself p.named
  · exact hself p.named

theorem succeeds_standIns (E : Engine) (p : Principal) (s : Site) :
    Succeeds τ (E.standIns p) s fun groups t => groups = E.standInsAt s p ∧ t = s := by
  rw [standIns, standInsAt]
  split
  · exact Succeeds.groupsOf E p.name s
  · exact Succeeds.pure ⟨rfl, rfl⟩

/-- The role that holds what is granted to a principal on a path. -/
def holder (path : Path) (p : Principal) : String :=
  if p.kind = .role then p.name else ShadowRole.nameOn path p

/-- The role of the pair holds the actions on the path, and if it is a shadow role it is there now and
the groups that stand for the principal are its members. -/
def Granted (E : Engine) (s : Site) (path : Path) (p : Principal) (actions : List Action) :
    RoleStore → RoleStore → Prop :=
  Gains (fun n => p.kind ≠ .role ∧ n = holder path p)
    (fun n q a => n = holder path p ∧ q = path ∧ a ∈ actions)
    fun n m => n = holder path p ∧ p.kind ≠ .role ∧ m.kind = .group ∧ m.name ∈ E.standInsAt s p

theorem succeeds_grantThrough (hs : s.readOnly = false) (hgroups : "" ∉ E.standInsAt s p)
    (hp : E.resolver.resolve e = .ok path) (hk : p.kind ≠ .role) (hne : actions ≠ []) :
    Succeeds τ (E.grantThrough e path p actions) s fun _ t =>
      Alters (Granted E s path p actions) s t := by
  have hholder : holder path p = ShadowRole.nameOn path p := if_neg hk
  refine Ends.bind_conclude (fun role hrole => ?_) fun f hf => ?_
  · obtain rfl : holder path p = role := by
      rw [ShadowRole.name?_of_resolve hp hk] at hrole
      exact hholder.trans (Except.ok.inj hrole)
    refine Succeeds.bind (succeeds_ensureRole hs _) fun _ u hu => ?_
    have hhas : u.store.Has (holder path p) := (hu.roles.roles _).mpr (.inr rfl)
    refine Succeeds.bind (succeeds_standIns E p u) fun groups v ⟨hgs, hv⟩ => ?_
    subst hv
    have hstand : groups = E.standInsAt s p := by
      rw [hgs, standInsAt, standInsAt, hu.groupsAt]
    subst hstand
    have hempty : "" ∉ Text.sortedDistinct (E.standInsAt s p) := by
      rwa [Text.mem_sortedDistinct]
    refine Succeeds.bind (succeeds_attachGroups (hu.readOnly.trans hs) hhas hempty)
      fun _ v hv => ?_
    obtain ⟨r, hr⟩ := ((hv.roles.roles _).mpr (.inl hhas)).change (Role.grant path actions)
    refine Succeeds.bind (Succeeds.policy (c := .grant path (holder path p) actions)
      (hv.readOnly.trans (hu.readOnly.trans hs)) (congrArg (Except.map fun _ => ()) hr) hr)
      fun _ t ⟨_, ht⟩ => ?_
    subst ht
    refine Succeeds.pure ?_
    refine (hu.trans hv fun h h' => h.trans h').trans (Alters.of_store (gains_grant hr hne))
      fun h h' => (h.trans h').congr (fun n => by simp [hk]) (fun n q a => by simp)
        fun n m => by simp [hk]
  · rw [ShadowRole.name?_of_resolve hp hk] at hf
    cases hf

theorem ends_grantOn (hs : s.readOnly = false) (hgroups : "" ∉ E.standInsAt s p)
    (hp : E.resolver.resolve e = .ok path) (hne : actions ≠ []) :
    Ends τ (E.grantOn e path p actions) s (AllOrNothing (Granted E s path p actions) s) := by
  rw [grantOn]
  split
  · rename_i hk
    have hgrant : Ends τ (Engine.policy (.grant path p.name actions)) s
        (AllOrNothing (Granted E s path p actions) s) := by
      refine Ends.change hs fun r hr => (gains_grant hr hne).congr (fun n => ?_) (fun n q a => ?_)
        fun n m => ?_
      · simp [hk]
      · rw [holder, if_pos hk]
      · simp [hk]
    exact Ends.bind hgrant (fun _ u hu => Ends.pure hu) fun f u hu => hu
  · rename_i hk
    refine Ends.locked (Ends.mono (succeeds_grantThrough hs hgroups hp hk hne) ?_)
    rintro _ t ⟨role, rfl, ht⟩
    exact ht

/-! ### Revoking -/

theorem Ends.refused {c : Backend.Call} {f : Fault} (hs : s.readOnly = false)
    (ha : c.answer s.backend s.store = .error f) (hr : c.apply s.store = .error f) :
    Ends τ (Engine.policy c) s fun x t => x = .error f ∧ t = s := by
  refine Ends.policy hs ⟨ha, ?_⟩
  rw [Backend.Call.after, hr]

/-- After it the shadow role is gone; it tells whether the role was there. -/
theorem succeeds_dropRoleFor (hs : s.readOnly = false) (reason role : String) :
    Succeeds τ (dropRoleFor reason role) s fun dropped t =>
      (dropped = true ↔ s.store.Has role) ∧ t = { s with store := s.store.erase role } := by
  cases hd : s.store.drop role with
  | ok r =>
    obtain rfl := RoleStore.drop_eq hd
    obtain ⟨r, hr, -⟩ := bind_eq_ok_iff.mp hd
    have hdrop := Succeeds.policy (τ := τ) (c := .dropRole role) hs
      (congrArg (Except.map fun _ => ()) hd) hd
    refine Ends.outcome_bind hdrop (fun _ => ⟨rfl, rfl⟩) fun x u ⟨_, hx, _, hu⟩ => ?_
    subst hx hu
    refine Succeeds.bind (Succeeds.report _ _) fun _ t ht => Succeeds.pure ⟨?_, ht⟩
    exact iff_of_true rfl ⟨r, find_eq_ok_iff.mp hr⟩
  | error f =>
    have hrefused := Ends.refused (τ := τ) (c := .dropRole role) hs
      (congrArg (Except.map fun _ => ()) hd) hd
    refine Ends.outcome_bind hrefused (fun _ => ⟨rfl, rfl⟩) fun x u ⟨hx, hu⟩ => ?_
    obtain ⟨rfl, hnone⟩ := drop_error hd
    subst hx hu
    refine Succeeds.pure ⟨iff_of_false Bool.false_ne_true fun ⟨r, hr⟩ => ?_, ?_⟩
    · rw [hnone] at hr
      cases hr
    · rw [RoleStore.erase, Table.erase_of_not_mem (Table.get?_eq_none_iff.mp hnone)]

/-- The paths that roles hold something on lead back to entities. -/
def Site.Traceable (s : Site) : Prop :=
  ∀ n q a, s.store.Holds n q a → ∃ e, s.backend.resolver.entityOf? q = .ok e

theorem Site.Traceable.of_alters {lost : String → Path → Action → Prop} {t : Site}
    (h : s.Traceable) (ha : Alters (Sheds lost) s t) : t.Traceable := by
  intro n q a hh
  rw [ha.backend]
  exact h n q a ((ha.roles.holds n q a).mp hh).1

/-- What a shadow role holds can be listed, and the list is empty exactly if it holds nothing. -/
theorem succeeds_privilegesOfRole (hs : s.readOnly = false) (hrole : role ≠ "")
    (ht : s.Traceable) (hf : s.store.Filled) : Succeeds τ (privilegesOfRole role) s
      fun remaining t => t = s ∧ (remaining = [] ↔ ∀ q a, ¬ s.store.Holds role q a) := by
  let p : Principal := ⟨.role, role, hrole⟩
  have hp : Principal.make? .role role = .ok p := by rw [Principal.make?, dif_pos hrole]
  obtain ⟨ps, hps, hall⟩ := Backend.privileges_of_role (p := p) s.backend rfl hf
    fun q a hh => ht role q a hh
  refine Ends.bind_conclude (fun p' hp' => ?_) fun f hf => ?_
  · obtain rfl : p = p' := by
      rw [hp] at hp'
      exact Except.ok.inj hp'
    refine Succeeds.mono (Succeeds.policy (c := .listPrivileges p) hs hps rfl) ?_
    rintro _ _ ⟨rfl, rfl⟩
    exact ⟨rfl, hall⟩
  · rw [hp] at hf
    cases hf

/-- A shadow role is dropped if nothing remains that it holds. -/
theorem succeeds_collect (hs : s.readOnly = false) (hr : ShadowRole.isReserved role = true)
    {remaining : List Privilege} (hidle : remaining = [] ↔ ∀ q a, ¬ s.store.Holds role q a) :
    Succeeds τ (collect role remaining) s fun _ t => Alters (Sheds fun _ _ _ => False) s t ∧
      (t.store.Has role → ∃ q a, t.store.Holds role q a) := by
  rw [collect]
  split
  · rename_i hnil
    refine Succeeds.bind (succeeds_dropRoleFor hs _ role) fun _ t ht => ?_
    obtain rfl := ht.2
    have hsheds := sheds_erase hr (hidle.mp (List.isEmpty_iff.mp hnil))
    exact Succeeds.pure ⟨Alters.of_store hsheds, fun hhas => absurd hhas (not_has_erase role _)⟩
  · rename_i hsome
    refine Succeeds.mono (Succeeds.report _ s) fun _ t ht => ?_
    rw [ht]
    refine ⟨Alters.refl (Sheds.nothing _), fun _ => ?_⟩
    refine Classical.byContradiction fun hnone => hsome (List.isEmpty_iff.mpr ?_)
    exact hidle.mpr fun q a hh => hnone ⟨q, a, hh⟩

/-- The actions are taken from the role of the pair; if it is a shadow role it goes with the last one
that it holds. -/
structure Revoked (path : Path) (p : Principal) (actions : List Action) (r r' : RoleStore) : Prop
    extends Sheds (fun n q a => n = holder path p ∧ q = path ∧ a ∈ actions) r r' where
  collected : p.kind ≠ .role → r'.Has (holder path p) → ∃ q a, r'.Holds (holder path p) q a

theorem succeeds_revokeThrough (hs : s.readOnly = false) (ht : s.Traceable) (hf : s.store.Filled)
    (hp : E.resolver.resolve e = .ok path) (hk : p.kind ≠ .role) :
    Succeeds τ (E.revokeThrough e path p actions) s fun _ t =>
      Alters (Revoked path p actions) s t := by
  have hholder : holder path p = ShadowRole.nameOn path p := if_neg hk
  have hreserved : ShadowRole.isReserved (holder path p) = true := by
    rw [hholder]
    exact ShadowRole.isReserved_nameOn path p
  refine Ends.bind_conclude (fun role hrole => ?_) fun f hf => ?_
  · obtain rfl : holder path p = role := by
      rw [ShadowRole.name?_of_resolve hp hk] at hrole
      exact hholder.trans (Except.ok.inj hrole)
    cases hr : s.store.change (holder path p) (Role.revoke path actions) with
    | error f =>
      -- a role that is gone holds nothing, so nothing is left to take away
      have hrefused := Ends.refused (τ := τ) (c := .revoke path (holder path p) actions) hs
        (congrArg (Except.map fun _ => ()) hr) hr
      refine Ends.outcome_bind hrefused (fun _ => ⟨rfl, rfl⟩) fun x u ⟨hx, hu⟩ => ?_
      obtain ⟨rfl, hnone⟩ := change_error hr
      have hgone : ¬ s.store.Has (holder path p) := fun ⟨r, hr⟩ => by
        rw [hnone] at hr
        cases hr
      subst hx hu
      refine Succeeds.pure (Alters.refl ⟨(Sheds.nothing _).congr fun n q a hh => ?_,
        fun _ hhas => absurd hhas hgone⟩)
      refine ⟨False.elim, ?_⟩
      rintro ⟨rfl, -⟩
      obtain ⟨r, hr, -⟩ := hh
      exact hgone ⟨r, hr⟩
    | ok r =>
      have hrevoke := Succeeds.policy (τ := τ) (c := .revoke path (holder path p) actions) hs
        (congrArg (Except.map fun _ => ()) hr) hr
      have hloses := (loses_revoke hr).sheds
      refine Ends.outcome_bind hrevoke (fun _ => ⟨rfl, rfl⟩) fun x u ⟨_, hx, _, hu⟩ => ?_
      subst hx hu
      have hu : Alters (Sheds fun n q a => n = holder path p ∧ q = path ∧ a ∈ actions) s
        { s with store := r } := Alters.of_store hloses
      have hne : holder path p ≠ "" := by
        intro h
        rw [h] at hreserved
        cases hreserved
      refine Succeeds.bind (succeeds_privilegesOfRole (hu.readOnly.trans hs) hne (ht.of_alters hu)
        (hloses.filled hf)) fun remaining v ⟨hv, hidle⟩ => ?_
      subst hv
      refine Succeeds.bind (succeeds_collect (hu.readOnly.trans hs) hreserved hidle)
        fun _ t ⟨ht, hcollected⟩ => Succeeds.pure ?_
      exact hu.trans ht fun h h' =>
        ⟨(h.trans h').congr fun n q a _ => by rw [or_false], fun _ => hcollected⟩
  · rw [ShadowRole.name?_of_resolve hp hk] at hf
    cases hf

theorem ends_revokeOn (hs : s.readOnly = false) (ht : s.Traceable) (hf : s.store.Filled)
    (hp : E.resolver.resolve e = .ok path) :
    Ends τ (E.revokeOn e path p actions) s (AllOrNothing (Revoked path p actions) s) := by
  rw [revokeOn]
  split
  · rename_i hk
    have hrevoke : Ends τ (Engine.policy (.revoke path p.name actions)) s
        (AllOrNothing (Revoked path p actions) s) := by
      refine Ends.change hs fun r hr => ⟨?_, fun hk' => absurd hk hk'⟩
      rw [holder, if_pos hk]
      exact (loses_revoke hr).sheds
    exact Ends.bind hrevoke (fun _ u hu => Ends.pure hu) fun f u hu => hu
  · rename_i hk
    refine Ends.locked (Ends.mono (succeeds_revokeThrough hs ht hf hp hk) ?_)
    rintro _ t ⟨role, rfl, ht⟩
    exact ht

/-! ### Deleting an entity -/

/-- As many roles as are counted are dropped. -/
theorem succeeds_dropOwned (hs : s.readOnly = false) (hp : E.resolver.resolve e = .ok path)
    (roles : List String) : Succeeds τ (E.dropOwned e roles) s fun dropped t =>
      dropped + t.store.roles.size = s.store.roles.size ∧
        t = { s with store := s.store.disown E.resolver e roles } := by
  induction roles generalizing s with
  | nil => exact Succeeds.pure ⟨Nat.zero_add _, by rw [RoleStore.disown_nil]⟩
  | cons role rest ih =>
    let kept := if ShadowRole.owner? E.resolver role = some e then s.store.erase role else s.store
    have hrest : ∀ dropped : Bool, kept.roles.size + dropped.toNat = s.store.roles.size →
        Succeeds τ (do
          let more ← E.dropOwned e rest
          return if dropped then more + 1 else more : Task Nat) { s with store := kept } fun n t =>
            n + t.store.roles.size = s.store.roles.size ∧
              t = { s with store := s.store.disown E.resolver e (role :: rest) } := by
      intro dropped hsize
      refine Succeeds.bind (ih (s := { s with store := kept }) hs) fun more t ⟨hmore, ht⟩ => ?_
      refine Succeeds.pure ⟨?_, by rw [ht, RoleStore.disown_cons]⟩
      rw [← hsize, ← hmore]
      cases dropped with
      | true => exact Nat.add_right_comm ..
      | false => rfl
    refine Ends.bind_conclude (fun owned ho => ?_) fun f hf => ?_
    · cases owned with
      | true =>
        have howner := (ShadowRole.isOwnedBy?_iff_owner? hp).mp ho
        refine Succeeds.bind (succeeds_dropRoleFor hs _ role) fun dropped u ⟨hdropped, hu⟩ => ?_
        have hkept : kept = s.store.erase role := if_pos howner
        rw [hu, ← hkept]
        refine hrest dropped ?_
        rw [hkept]
        by_cases hhas : s.store.Has role
        · rw [hdropped.mpr hhas]
          exact Table.size_erase (Table.mem_keys_iff.mpr hhas)
        · rw [Bool.eq_false_iff.mpr fun h => hhas (hdropped.mp h), RoleStore.erase,
            Table.erase_of_not_mem fun h => hhas (Table.mem_keys_iff.mp h)]
          rfl
      | false =>
        have hforeign : ¬ ShadowRole.owner? E.resolver role = some e := fun howner => by
          rw [(ShadowRole.isOwnedBy?_iff_owner? hp).mpr howner] at ho
          cases ho
        have hkept : kept = s.store := if_neg hforeign
        refine Succeeds.bind (Q := fun x t => ∃ a, x = .ok a ∧ _)
          (Succeeds.pure (Q := fun dropped t => dropped = false ∧ t = s) ⟨rfl, rfl⟩)
          fun dropped u h => ?_
        have hu : u = { s with store := kept } := h.2.trans (by rw [hkept])
        rw [h.1, hu]
        exact hrest false (by rw [hkept]; rfl)
    · rw [ShadowRole.isOwnedBy?_of_resolve hp] at hf
      cases hf

theorem succeeds_revokeAllOn (hs : s.readOnly = false) (hp : E.resolver.resolve e = .ok path) :
    Succeeds τ (E.revokeAllOn e path) s fun dropped t =>
      dropped + t.store.roles.size = s.store.roles.size ∧
        t = { s with store := s.store.without E.resolver e } := by
  obtain rfl := Resolver.eq_path_of_resolve hp
  refine Succeeds.bind (Succeeds.policy (c := .revokeAllOn e.path) hs (a := ()) rfl rfl)
    fun _ u ⟨_, hu⟩ => ?_
  subst hu
  refine Succeeds.bind (Succeeds.policy (c := .listAllRoles) hs rfl rfl) fun roles u ⟨hroles, hu⟩ => ?_
  subst hroles hu
  refine Succeeds.mono (succeeds_dropOwned (s := { s with store := s.store.clear e.path }) hs hp _)
    fun dropped t ⟨hsize, ht⟩ => ⟨?_, ?_⟩
  · exact hsize.trans (List.length_map _)
  · -- every role that is there is among those that are listed
    rw [ht]
    refine congrArg (fun store => { s with store }) (congrArg RoleStore.mk (Table.ext ?_))
    refine List.filter_congr fun entry hentry => decide_eq_decide.mpr (not_congr (and_iff_right ?_))
    rw [Text.mem_sortedDistinct]
    exact List.mem_map_of_mem hentry

/-- Nothing is held on the path any more, and the shadow roles of its entity are gone. -/
structure Cleared (e : Entity) (r r' : RoleStore) : Prop
    extends Sheds (fun _ q _ => q = e.path) r r' where
  dropped : ∀ n, IsShadowOn e n → ¬ r'.Has n

omit [Add τ] [LE τ] [DecidableLE τ] in
/-- A shadow role is confined to its path, so that it holds nothing once the path is cleared. -/
theorem cleared_without (hp : E.resolver.resolve e = .ok path) {r : RoleStore} (hc : r.Confined) :
    Cleared e r (r.without E.resolver e) := by
  have hget := RoleStore.get?_without E.resolver e r
  have hclear := (loses_clear e.path r).sheds
  have hstays : ∀ {n r'}, (r.without E.resolver e).roles.get? n = some r' →
      (r.clear e.path).roles.get? n = some r' := by
    intro n r' hr'
    rw [hget] at hr'
    split at hr'
    · cases hr'
    · rwa [get?_clear]
  have hforeign : ∀ {n q a}, (r.clear e.path).Holds n q a →
      ¬ ShadowRole.owner? E.resolver n = some e := by
    intro n q a hh howner
    obtain ⟨p, hread⟩ := (IsShadowOn.iff_owner? hp).mpr howner
    obtain ⟨hh, hq⟩ := (hclear.holds n q a).mp hh
    obtain ⟨p', hread'⟩ := hc n q a hh (ShadowRole.isReserved_of_read? hread)
    rw [hread] at hread'
    exact hq (congrArg Prod.fst (Option.some.inj hread')).symm
  have hkept : ∀ {n}, ¬ ShadowRole.owner? E.resolver n = some e →
      (r.without E.resolver e).roles.get? n = (r.clear e.path).roles.get? n := fun howner => by
    rw [hget, if_neg howner, get?_clear]
  have hholds : ∀ n q a, (r.without E.resolver e).Holds n q a ↔ (r.clear e.path).Holds n q a := by
    intro n q a
    constructor
    · rintro ⟨r', hr', ha⟩
      exact ⟨r', hstays hr', ha⟩
    · rintro ⟨r', hr', ha⟩
      exact ⟨r', (hkept (hforeign ⟨r', hr', ha⟩)).trans hr', ha⟩
  refine ⟨⟨?_, fun n q a => ?_, ?_, fun n m hm hn => ?_,
    fun hf n r' hr' => hclear.filled hf n r' (hstays hr')⟩, ?_⟩
  · rintro n ⟨r', hr'⟩
    exact hclear.roles n ⟨r', hstays hr'⟩
  · rw [hholds, hclear.holds]
  · rintro n m ⟨r', hr', hm⟩
    exact hclear.sub n m ⟨r', hstays hr', hm⟩
  · have hn : ShadowRole.isReserved n = false ∨ ∃ q a, (r.clear e.path).Holds n q a := by
      simpa only [hholds] using hn
    obtain ⟨r', hr', hm⟩ := hclear.kept n m hm hn
    refine ⟨r', (hkept fun howner => ?_).trans hr', hm⟩
    rcases hn with hfree | ⟨q, a, hh⟩
    · obtain ⟨p, hread⟩ := (IsShadowOn.iff_owner? hp).mpr howner
      rw [ShadowRole.isReserved_of_read? hread] at hfree
      cases hfree
    · exact hforeign hh howner
  · rintro n hshadow ⟨r', hr'⟩
    rw [hget, if_pos ((IsShadowOn.iff_owner? hp).mp hshadow)] at hr'
    cases hr'

/-! ### All operations -/

/-- What an operation does to the roles when it succeeds at the site. -/
def Effect (E : Engine) (s : Site) : Operation → RoleStore → RoleStore → Prop
  | .enforce .. => fun r r' => r' = r
  | .grant e p actions => fun r r' => (actions = [] ∧ r' = r) ∨ (actions ≠ [] ∧
      ∃ path, E.resolver.resolve e = .ok path ∧ Granted E s path p actions r r')
  | .revoke e p actions => fun r r' =>
      ∃ path, E.resolver.resolve e = .ok path ∧ Revoked path p actions r r'
  | .revokeAll e => fun r r' => E.resolver.resolve e = .ok e.path ∧ Cleared e r r'
  | .createRole role => fun r r' => ShadowRole.isReserved role = false ∧
      Gains (fun n => n = role) (fun _ _ _ => False) (fun _ _ => False) r r'
  | .dropRole role => fun r r' => ShadowRole.isReserved role = false ∧
      Loses (fun n _ _ => n = role) (fun n _ => n = role) r r'
  | .addMember role p => fun r r' => ShadowRole.isReserved role = false ∧ p.kind ≠ .role ∧
      Gains (fun _ => False) (fun _ _ _ => False) (fun n m => n = role ∧ m = p) r r'
  | .removeMember role p => fun r r' => ShadowRole.isReserved role = false ∧
      Loses (fun _ _ _ => False) (fun n m => n = role ∧ m = p) r r'

/-- Nothing at the site gets in the way of the steps on shadow roles. -/
structure Site.Plain (E : Engine) (s : Site) : Prop where
  readOnly : s.readOnly = false
  named : ∀ p, "" ∉ E.standInsAt s p
  traceable : s.Traceable
  filled : s.store.Filled
  confined : s.store.Confined

theorem Ends.checkRoleName {f : Unit → Task Unit}
    (h : ShadowRole.isReserved role = false → Ends τ (f ()) s (AllOrNothing R s)) :
    Ends τ (Engine.checkRoleName role >>= f) s (AllOrNothing R s) := by
  rw [Engine.checkRoleName]
  split
  · exact Ends.throw rfl
  · rename_i hr
    exact h (Bool.eq_false_iff.mpr hr)

theorem Ends.checkMember {operation : String} {f : Unit → Task Unit}
    (h : p.kind ≠ .role → Ends τ (f ()) s (AllOrNothing R s)) :
    Ends τ (Engine.checkMember operation p >>= f) s (AllOrNothing R s) := by
  rw [Engine.checkMember]
  split
  · exact Ends.throw rfl
  · rename_i hk
    exact h hk

/-- The operations on a role depend on nothing but that role. -/
theorem ends_administer (hs : s.readOnly = false) {o : Operation} (ho : o.Administers) :
    Ends τ (E.perform o) s (AllOrNothing (Effect E s o) s) := by
  cases o with
  | createRole role =>
    refine Ends.checkRoleName fun hrole => Ends.roleOperation ?_
    exact Ends.change hs fun r hr => ⟨hrole, gains_create hr⟩
  | dropRole role =>
    refine Ends.checkRoleName fun hrole => Ends.clearing (Ends.roleOperation ?_)
    exact Ends.change hs fun r hr => ⟨hrole, loses_drop hr⟩
  | addMember role p =>
    refine Ends.checkRoleName fun hrole => Ends.checkMember fun hk =>
      Ends.clearing (Ends.roleOperation ?_)
    exact Ends.change hs fun r hr => ⟨hrole, hk, gains_attach hr⟩
  | removeMember role p =>
    refine Ends.checkRoleName fun hrole => Ends.checkMember fun hk =>
      Ends.clearing (Ends.roleOperation ?_)
    exact Ends.change hs fun r hr => ⟨hrole, loses_detach hr⟩
  | enforce | grant | revoke | revokeAll => exact ho.elim

/-- A grant depends on nothing but the groups that stand for the principal. -/
theorem ends_grant (hs : s.readOnly = false) (hstand : "" ∉ E.standInsAt s p) :
    Ends τ (E.grant e p actions) s (AllOrNothing (Effect E s (.grant e p actions)) s) := by
  rw [grant]
  split
  · rename_i hnil
    refine Ends.pure (Alters.refl (.inl ⟨?_, rfl⟩))
    refine List.eq_nil_iff_forall_not_mem.mpr fun a ha => ?_
    rw [← Action.mem_distinct, List.isEmpty_iff.mp hnil] at ha
    cases ha
  · rename_i hne
    refine Ends.bind_conclude (fun path hp => Ends.sweeping ?_) fun f _ => rfl
    have hne : Action.distinct actions ≠ [] := fun h => hne (List.isEmpty_iff.mpr h)
    refine (ends_grantOn hs hstand hp hne).mono fun x t h => h.mono fun r hr =>
      .inr ⟨fun h => hne (by rw [h]; rfl), path, hp, ?_⟩
    exact Gains.congr hr (fun n => .rfl) (fun n q a => by rw [Action.mem_distinct]) fun n m => .rfl

/-- An operation that runs alone does what it should or fails and changes nothing. -/
theorem ends_perform (hs : s.Plain E) (o : Operation) :
    Ends τ (E.perform o) s (AllOrNothing (Effect E s o) s) := by
  cases o with
  | enforce e p actions =>
    rintro w rfl
    have hremote := (looked_enforce E e p actions w).beside.remote
    refine .inr ?_
    show AllOrNothing _ _ (World.run (E.enforce e p actions) w).1
      (World.run (E.enforce e p actions) w).2.remote
    rw [hremote]
    cases (World.run (E.enforce e p actions) w).1 with
    | ok a => exact Alters.refl rfl
    | error f => rfl
  | grant e p actions => exact ends_grant hs.readOnly (hs.named p)
  | revoke e p actions =>
    refine Ends.bind_conclude (fun path hp => Ends.sweeping ?_) fun f _ => rfl
    refine (ends_revokeOn hs.readOnly hs.traceable hs.filled hp).mono fun x t h => ?_
    refine h.mono fun r hr => ⟨path, hp, ?_⟩
    exact ⟨hr.toSheds.congr fun n q a _ => by rw [Action.mem_distinct], hr.collected⟩
  | revokeAll e =>
    refine Ends.bind_conclude (fun path hp => Ends.sweeping ?_) fun f _ => rfl
    refine Ends.mono (succeeds_revokeAllOn hs.readOnly hp) ?_
    rintro _ t ⟨n, rfl, -, rfl⟩
    obtain rfl := Resolver.eq_path_of_resolve hp
    exact Alters.of_store ⟨hp, cleared_without hp hs.confined⟩
  | createRole | dropRole | addMember | removeMember => exact ends_administer hs.readOnly trivial

end Warrant.Engine
