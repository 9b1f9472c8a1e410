import Warrant.Proofs.Privileges
import Warrant.Proofs.TwoTables

/-!
# Roles as relations

What a role store keeps are three relations (`RoleStore.relations`): which roles there are, who is a
member of which role, and which role holds which action on which path. A call of the policy backend is
refused because of the first relation alone (`Call.Refused`); otherwise it puts something into the
relations or takes something out (`Call.acts`), or tells what is in them (`Call.Tells`).
-/

namespace Warrant

/-- The roles, their members, and what they hold on which path. -/
@[ext] structure Relations where
  role : String → Prop
  member : String → Principal → Prop
  holds : String → Path → Action → Prop

def RoleStore.relations (s : RoleStore) : Relations := ⟨s.Has, s.HasMember, s.Holds⟩

/-- A role principal acts in the role of its name, if there is one; a user or group acts in the roles
that it is a member of, and a user in those of its groups, too. -/
def Relations.ActsIn (R : Relations) (groupsOf : String → List String) (p : Principal)
    (name : String) : Prop :=
  match p.kind with
  | .role => name = p.name ∧ R.role name
  | .group => R.member name p
  | .user => R.member name p ∨ ∃ m, m.kind = .group ∧ m.name ∈ groupsOf p.name ∧ R.member name m

namespace Backend

open RoleStore Audit Audit.Logging

/-- Why a call is refused: its role is there already, or it is not there. -/
def Call.Refused : Call → Relations → Fault → Prop
  | .createRole role, R, f => R.role role ∧ f = .roleAlreadyExists role
  | .dropRole role, R, f | .attach role _, R, f | .detach role _, R, f | .grant _ role _, R, f
  | .revoke _ role _, R, f => ¬ R.role role ∧ f = .roleNotFound role
  | _, _, _ => False

/-- What a call puts into the relations or takes out of them. -/
def Call.acts : Call → Relations → Relations
  | .createRole role, R => { R with role := fun n => R.role n ∨ n = role }
  | .dropRole role, R =>
    ⟨fun n => R.role n ∧ n ≠ role, fun n m => R.member n m ∧ n ≠ role,
      fun n q a => R.holds n q a ∧ n ≠ role⟩
  | .attach role p, R => { R with member := fun n m => R.member n m ∨ (n = role ∧ m = p) }
  | .detach role p, R => { R with member := fun n m => R.member n m ∧ ¬ (n = role ∧ m = p) }
  | .grant path role actions, R =>
    { R with holds := fun n q a => R.holds n q a ∨ (n = role ∧ q = path ∧ a ∈ actions) }
  | .revoke path role actions, R =>
    { R with holds := fun n q a => R.holds n q a ∧ ¬ (n = role ∧ q = path ∧ a ∈ actions) }
  | .revokeAllOn path, R => { R with holds := fun n q a => R.holds n q a ∧ q ≠ path }
  | _, R => R

/-- What the answer of a call tells of the relations. -/
def Call.Tells (setup : Setup) : (c : Call) → Relations → c.Answer → Prop
  | .authorize p path a, R, answer => ∃ b, answer = some b ∧ (b = true ↔
      ∃ n, R.ActsIn setup.identity.groupsOf p n ∧
        ∃ q a', R.holds n q a' ∧ q.covers path = true ∧ (a' = a ∨ a' = .all))
  | .listRoles p, R, names => ∀ n, n ∈ names ↔ R.ActsIn setup.identity.groupsOf p n
  | .listAllRoles, R, names => ∀ n, n ∈ names ↔ R.role n
  | .listPrivileges p, R, privileges => ∀ v, v ∈ privileges ↔ v.principal = p ∧
      ∃ n, R.ActsIn setup.identity.groupsOf p n ∧
        ∃ q, setup.resolver.entityOf? q = .ok v.entity ∧ R.holds n q v.action
  | _, _, _ => True

variable {setup : Setup} {c : Call} {s t : RoleStore} {name : String} {p : Principal} {f : Fault}

/-! ### Effects -/

theorem contains_iff_has : s.roles.contains name = true ↔ s.Has name := by
  rw [Table.contains, decide_eq_true_eq, Table.mem_keys_iff]
  rfl

theorem change_refused_iff {g : Role → Role} :
    s.change name g = .error f ↔ ¬ s.Has name ∧ f = .roleNotFound name := by
  constructor
  · intro h
    obtain ⟨rfl, hnone⟩ := change_error h
    refine ⟨?_, rfl⟩
    rintro ⟨r, hr⟩
    rw [hnone] at hr
    cases hr
  · rintro ⟨hnot, rfl⟩
    have hnone : s.roles.get? name = none := Option.eq_none_iff_forall_ne_some.mpr fun r hr =>
      hnot ⟨r, hr⟩
    rw [RoleStore.change, RoleStore.find, hnone]
    rfl

theorem Call.apply_refused_iff : c.apply s = .error f ↔ c.Refused s.relations f := by
  cases c with
  | createRole role =>
    show s.create role = _ ↔ s.Has role ∧ _
    rw [RoleStore.create, ← contains_iff_has]
    split
    · rename_i h
      simp [h, eq_comm]
    · rename_i h
      simp [h]
  | dropRole role =>
    show s.drop role = _ ↔ ¬ s.Has role ∧ _
    rw [← change_refused_iff (g := id), RoleStore.drop, RoleStore.change]
    cases s.find role <;> simp [bind, Except.bind, pure, Except.pure]
  | attach | detach | grant | revoke => exact change_refused_iff
  | authorize | listPrivileges | listRoles | listAllRoles | revokeAllOn =>
    exact ⟨fun h => (by cases h), False.elim⟩

theorem Call.relations_of_apply (h : c.apply s = .ok t) : t.relations = c.acts s.relations := by
  cases c with
  | createRole role =>
    have hgains := gains_create h
    ext n
    · exact hgains.roles n
    · exact (hgains.members n _).trans (by rw [or_false]; rfl)
    · exact (hgains.holds n _ _).trans (by rw [or_false]; rfl)
  | dropRole role =>
    have hloses := loses_drop h
    ext n
    · exact has_drop h n
    · exact hloses.members n _
    · exact hloses.holds n _ _
  | attach role p =>
    have hgains := gains_attach h
    ext n
    · exact has_change h n
    · exact hgains.members n _
    · exact (hgains.holds n _ _).trans (by rw [or_false]; rfl)
  | detach role p =>
    have hloses := loses_detach h
    ext n
    · exact has_change h n
    · exact hloses.members n _
    · exact (hloses.holds n _ _).trans (by rw [not_false_eq_true, and_true]; rfl)
  | grant path role actions =>
    obtain ⟨r, hr, -⟩ := get?_change h
    ext n m a
    · exact has_change h n
    · refine (members_change h).trans ?_
      by_cases hn : n = role
      · subst hn
        simp [Call.acts, relations, HasMember, hr]
      · simp [Call.acts, relations, hn]
    · refine (holds_change h).trans ?_
      by_cases hn : n = role
      · subst hn
        simp [Call.acts, relations, Holds, hr, Role.mem_heldOn_grant]
      · simp [Call.acts, relations, hn]
  | revoke path role actions =>
    have hloses := loses_revoke h
    ext n
    · exact has_change h n
    · exact (hloses.members n _).trans (by rw [not_false_eq_true, and_true]; rfl)
    · exact hloses.holds n _ _
  | revokeAllOn path =>
    obtain rfl : s.clear path = t := Except.ok.inj h
    have hloses := loses_clear path s
    ext n
    · exact has_clear path s n
    · exact (hloses.members n _).trans (by rw [not_false_eq_true, and_true]; rfl)
    · exact hloses.holds n _ _
  | authorize | listPrivileges | listRoles | listAllRoles =>
    obtain rfl : s = t := Except.ok.inj h
    rfl

/-! ### Answers -/

/-- Every group of a user has a name. -/
def Setup.Named (setup : Setup) : Prop := ∀ user ≠ "", "" ∉ setup.identity.groupsOf user

theorem Setup.named_userNamed (resolver : Resolver) : Setup.Named ⟨.userNamed, resolver⟩ :=
  fun _ huser hmem => huser (List.mem_singleton.mp hmem).symm

/-- The fallback has the name of its user, so only the listed groups matter. -/
theorem Setup.named_of_memberships {memberships : Table String (List String)} {fallback : Bool}
    {resolver : Resolver} (h : ∀ groups ∈ memberships.values, "" ∉ groups) :
    Setup.Named ⟨.listed memberships fallback, resolver⟩ := by
  intro user huser hmem
  have hlisted : "" ∉ (memberships.get? user).getD [] := by
    cases hg : memberships.get? user with
    | none => exact List.not_mem_nil
    | some groups => exact h groups (List.mem_map.mpr ⟨_, Table.get?_eq_some_iff.mp hg, rfl⟩)
  replace hmem : "" ∈ Identity.groupsOf _ user := hmem
  rw [Identity.groupsOf] at hmem
  split at hmem
  · split at hmem
    · exact huser (List.mem_singleton.mp hmem).symm
    · exact List.not_mem_nil hmem
  · exact hlisted hmem

theorem rolesFor_of_named (hnamed : setup.Named) (p : Principal) (s : RoleStore) :
    ∃ names, rolesFor setup p s = .ok names ∧
      ∀ n, n ∈ names ↔ s.relations.ActsIn setup.identity.groupsOf p n := by
  unfold rolesFor Relations.ActsIn
  cases hk : p.kind with
  | role =>
    refine ⟨_, rfl, fun n => ?_⟩
    show _ ↔ n = p.name ∧ s.Has n
    split
    · rename_i h
      have hhas : s.Has p.name := contains_iff_has.mp h
      rw [List.mem_singleton]
      exact ⟨fun hn => ⟨hn, hn ▸ hhas⟩, And.left⟩
    · rename_i h
      have hhas : ¬ s.Has p.name := mt contains_iff_has.mpr h
      exact ⟨fun hn => (by cases hn), fun hn => absurd (hn.1 ▸ hn.2) hhas⟩
  | group =>
    have hps : candidates setup p = .ok [p] := by
      rw [candidates, hk]
      rfl
    rw [hps]
    refine ⟨_, rfl, fun n => ?_⟩
    rw [mem_rolesOfAny]
    constructor
    · rintro ⟨m, hm, h⟩
      exact List.mem_singleton.mp hm ▸ h
    · exact fun h => ⟨p, List.mem_singleton_self p, h⟩
  | user =>
    obtain ⟨ps, hps, hmem⟩ := candidates_of_user hk (hnamed p.name p.named)
    rw [hps]
    refine ⟨_, rfl, fun n => ?_⟩
    rw [mem_rolesOfAny]
    constructor
    · rintro ⟨m, hm, h⟩
      rcases (hmem m).mp hm with rfl | ⟨hgroup, hname⟩
      · exact .inl h
      · exact .inr ⟨m, hgroup, hname, h⟩
    · rintro (h | ⟨m, hgroup, hname, h⟩)
      · exact ⟨p, (hmem p).mpr (.inl rfl), h⟩
      · exact ⟨m, (hmem m).mpr (.inr ⟨hgroup, hname⟩), h⟩

theorem authorizes_of_named (hnamed : setup.Named) (p : Principal) (path : Path) (a : Action)
    (s : RoleStore) : ∃ b, authorizes setup p path a s = .ok b ∧ (b = true ↔
      ∃ n, s.relations.ActsIn setup.identity.groupsOf p n ∧
        ∃ q a', s.relations.holds n q a' ∧ q.covers path = true ∧ (a' = a ∨ a' = .all)) := by
  obtain ⟨names, hnames, hmem⟩ := rolesFor_of_named hnamed p s
  refine ⟨s.permits names path a, by rw [authorizes, hnames]; rfl, ?_⟩
  rw [permits_iff]
  constructor
  · rintro ⟨n, hn, q, hcovers, hheld | hheld⟩
    · exact ⟨n, (hmem n).mp hn, q, a, hheld, hcovers, .inl rfl⟩
    · exact ⟨n, (hmem n).mp hn, q, .all, hheld, hcovers, .inr rfl⟩
  · rintro ⟨n, hn, q, a', hheld, hcovers, rfl | rfl⟩
    · exact ⟨n, (hmem n).mpr hn, q, hcovers, .inl hheld⟩
    · exact ⟨n, (hmem n).mpr hn, q, hcovers, .inr hheld⟩

theorem mem_privileges (hnamed : setup.Named) {ps : List Privilege}
    (h : privileges setup p s = .ok ps) (v : Privilege) : v ∈ ps ↔ v.principal = p ∧
      ∃ n, s.relations.ActsIn setup.identity.groupsOf p n ∧
        ∃ q, setup.resolver.entityOf? q = .ok v.entity ∧ s.relations.holds n q v.action := by
  obtain ⟨names, hnames, hmem⟩ := rolesFor_of_named hnamed p s
  rw [mem_privileges_of_rolesFor hnames h]
  simp only [hmem]
  rfl

/-- A listing fails because a group has no name or because a path leads back to no entity. -/
theorem isRefusal_of_privileges (h : privileges setup p s = .error f) : f.IsRefusal := by
  rcases bind_eq_error_iff.mp h with h | ⟨names, -, h⟩
  · exact .of_lift h
  rcases bind_eq_error_iff.mp h with h | ⟨each, -, h⟩
  · obtain ⟨-, ⟨n, r⟩, -, -, -, h⟩ := mapM_eq_error_iff.mp h
    rcases bind_eq_error_iff.mp h with h | ⟨each, -, h⟩
    · obtain ⟨-, ⟨q, held⟩, -, -, -, h⟩ := mapM_eq_error_iff.mp h
      rcases bind_eq_error_iff.mp h with h | ⟨e, -, h⟩
      · exact Resolver.isRefusal_of_entityOf? h
      · cases h
    · cases h
  · cases h

theorem Call.tells_of_answer (hnamed : setup.Named) {answer : c.Answer}
    (h : c.answer setup s = .ok answer) : c.Tells setup s.relations answer := by
  cases c with
  | authorize p path a =>
    obtain ⟨b, hb, hiff⟩ := authorizes_of_named hnamed p path a s
    rw [Call.answer, hb] at h
    obtain rfl := Except.ok.inj h
    exact ⟨b, rfl, hiff⟩
  | listRoles p =>
    obtain ⟨names, hnames, hmem⟩ := rolesFor_of_named hnamed p s
    rw [Call.answer, hnames] at h
    obtain rfl := Except.ok.inj h
    exact hmem
  | listAllRoles =>
    obtain rfl := Except.ok.inj h
    exact fun n => Table.mem_keys_iff
  | listPrivileges p => exact mem_privileges hnamed h
  | createRole | dropRole | attach | detach | grant | revoke | revokeAllOn => trivial

theorem Call.fault_of_answer (hnamed : setup.Named) (h : c.answer setup s = .error f) :
    c.Refused s.relations f ∨ (∃ p, c = .listPrivileges p) ∧ f.IsRefusal := by
  cases c with
  | createRole | dropRole | attach | detach | grant | revoke =>
    exact .inl (Call.apply_refused_iff.mp (map_eq_error_iff.mp h))
  | authorize p path a =>
    obtain ⟨b, hb, -⟩ := authorizes_of_named hnamed p path a s
    rw [Call.answer, hb] at h
    cases h
  | listRoles p =>
    obtain ⟨names, hnames, -⟩ := rolesFor_of_named hnamed p s
    rw [Call.answer, hnames] at h
    cases h
  | listAllRoles | revokeAllOn => cases h
  | listPrivileges p => exact .inr ⟨⟨p, rfl⟩, isRefusal_of_privileges h⟩

/-! ### Calls one after the other -/

/-- Carries calls out one after the other, whatever they answer. -/
def serveAll (setup : Setup) : List Call → Logged RoleStore → Logged RoleStore
  | [], x => x
  | c :: rest, x => serveAll setup rest (serve setup c x).2

theorem serveAll_spec (setup : Setup) (calls : List Call) (x : Logged RoleStore) :
    (serveAll setup calls x).state = calls.foldl (fun s c => c.after s) x.state ∧
      (serveAll setup calls x).log.context = x.log.context := by
  induction calls generalizing x with
  | nil => exact ⟨rfl, rfl⟩
  | cons c rest ih =>
    have hstep := settles_serve setup c x
    obtain ⟨hstate, hcontext⟩ := ih (serve setup c x).2
    rw [hstep.state] at hstate
    exact ⟨hstate, hcontext.trans hstep.context⟩

/-- A refused call changes nothing at all and reports nothing. -/
theorem serve_of_refused {x : Logged RoleStore} (h : c.Refused x.state.relations f) :
    serve setup c x = (.error f, x) := by
  have hrun : ∀ (g : RoleStore → Except Fault RoleStore) (e : Event), g x.state = .error f →
      (update g >>= fun _ => report e : Service Unit) x = (.error f, x) := by
    intro g e hg
    rw [run_bind, run_update, hg]
  have happly := Call.apply_refused_iff.mpr h
  cases c with
  | createRole | dropRole | attach | detach | grant | revoke => exact hrun _ _ happly
  | authorize | listPrivileges | listRoles | listAllRoles | revokeAllOn => cases happly

theorem Call.Refused.role {R : Relations} (h : c.Refused R f) :
    ∃ role, f = .roleAlreadyExists role ∨ f = .roleNotFound role := by
  cases c with
  | createRole role => exact ⟨role, .inl h.2⟩
  | dropRole role | attach role | detach role => exact ⟨role, .inr h.2⟩
  | grant path role | revoke path role => exact ⟨role, .inr h.2⟩
  | authorize | listPrivileges | listRoles | listAllRoles | revokeAllOn => exact h.elim

theorem relations_after (h : ∀ f, ¬ c.Refused s.relations f) :
    (c.after s).relations = c.acts s.relations := by
  rw [Call.after]
  cases happly : c.apply s with
  | ok t => exact Call.relations_of_apply happly
  | error f => exact absurd (Call.apply_refused_iff.mp happly) (h f)

/-- The backend, and one that keeps members and grants in two tables, against the relations, after
whatever has been called: a call is refused exactly if its role is there or is not there, and then
nothing happens; any other call changes the relations as it is meant to and tells what is in them. The
two tables have the same names and never miss one, and give the same answers. -/
theorem serve_refines_relations (setup : Setup) (hnamed : setup.Named) (log : Log)
    (hquiet : log.context.Quiet) (calls : List Call) (c : Call) :
    let x := serveAll setup calls ⟨.empty, log⟩
    let t := TwoTables.applyAll calls .empty
    (∀ f, c.Refused x.state.relations f → serve setup c x = (.error f, x)) ∧
    (∀ f, (serve setup c x).1 = .error f →
      c.Refused x.state.relations f ∨ (∃ p, c = .listPrivileges p) ∧ f.IsRefusal) ∧
    ((∀ f, ¬ c.Refused x.state.relations f) →
      (serve setup c x).2.state.relations = c.acts x.state.relations) ∧
    (∀ answer, (serve setup c x).1 = .ok answer → c.Tells setup x.state.relations answer) ∧
    t = x.state.split ∧ t.members.keys = t.grants.keys ∧
    TwoTables.answer setup c t = (serve setup c x).1 ∧
    ∀ key, TwoTables.answer setup c t ≠ .error (.missingKey key) := by
  intro x t
  obtain ⟨hstate, hcontext⟩ := serveAll_spec setup calls ⟨.empty, log⟩
  have hsettles := settles_serve setup c x
  have hanswer : (serve setup c x).1 = c.answer setup x.state :=
    hsettles.quiet fun e _ => hcontext ▸ hquiet e
  have hsplit : t = x.state.split := (TwoTables.applyAll_split calls .empty).trans (by rw [hstate])
  have hsame : TwoTables.answer setup c t = (serve setup c x).1 := by
    rw [hanswer, hsplit, TwoTables.answer_split]
  have hfault : ∀ f, (serve setup c x).1 = .error f →
      c.Refused x.state.relations f ∨ (∃ p, c = .listPrivileges p) ∧ f.IsRefusal :=
    fun f h => Call.fault_of_answer hnamed (hanswer.symm.trans h)
  refine ⟨fun f => serve_of_refused, hfault, fun h => ?_, fun answer h => ?_, hsplit, ?_, hsame,
    fun key h => ?_⟩
  · rw [hsettles.state]
    exact relations_after h
  · exact Call.tells_of_answer hnamed (hanswer.symm.trans h)
  · rw [hsplit, RoleStore.split, Table.keys_mapValues, Table.keys_mapValues]
  · rcases hfault _ (hsame.symm.trans h) with href | ⟨-, href⟩
    · obtain ⟨role, hrole | hrole⟩ := href.role
      · cases hrole
      · cases hrole
    · rcases href with ⟨word, href⟩ | ⟨reason, href⟩
      · cases href
      · cases href

namespace Sample

def ada : Principal := ⟨.user, "ada", by decide⟩

def root : Path := ⟨[⟨"instance", "cdap"⟩]⟩

def space : Path := ⟨[⟨"instance", "cdap"⟩, ⟨"namespace", "research"⟩]⟩

def service : Setup := ⟨.userNamed, ⟨none⟩⟩

/-- A role of ada's group that may do everything, and a call that is refused. -/
def calls : List Call :=
  [.createRole "team", .attach "team" ⟨.group, "ada", by decide⟩, .grant root "team" [.all],
    .createRole "team"]

def reached : Logged RoleStore := serveAll service calls ⟨.empty, ⟨.empty, []⟩⟩

theorem named : service.Named := Setup.named_userNamed _

theorem team_decides : service.Named ∧ Context.empty.Quiet ∧
    serve service (.createRole "team") reached = (.error (.roleAlreadyExists "team"), reached) ∧
    (∃ n, reached.state.relations.ActsIn service.identity.groupsOf ada n ∧
      ∃ q a, reached.state.relations.holds n q a ∧ q.covers space = true ∧ (a = .read ∨ a = .all)) ∧
    (serve service (.dropRole "team") reached).2.state.relations =
      (Call.dropRole "team").acts reached.state.relations := by
  have hall := serve_refines_relations service named ⟨.empty, []⟩ Context.quiet_empty calls
  have hteam : reached.state.Has "team" := contains_iff_has.mp (by decide)
  refine ⟨named, Context.quiet_empty, ?_, ?_, ?_⟩
  · exact (hall (.createRole "team")).1 _ ⟨hteam, rfl⟩
  · have hyes : (serve service (.authorize ada space .read) reached).1 = .ok (some true) := rfl
    obtain ⟨b, hb, hiff⟩ := (hall (.authorize ada space .read)).2.2.2.1 _ hyes
    exact hiff.mp (Option.some.inj hb).symm
  · exact (hall (.dropRole "team")).2.2.1 fun f hf => hf.1 hteam

end Sample

end Backend

end Warrant
