import Warrant.Proofs.Sites

/-!
# Roles in two tables

The members of roles and what roles hold can be kept apart, in two tables by name. Most operations then
look for the name in the first table and go on with the second one, and miss it there
(`Fault.missingKey`) if it is in the first table only. From empty tables on nothing is ever missed:
whatever is done, the two tables are the halves of one role store (`RoleStore.split`), they change as it
does (`TwoTables.apply_split`), and they answer as it does (`TwoTables.answer_split`).
-/

namespace Warrant

namespace Table

variable {κ ν μ : Type} [DecidableEq κ] (f : ν → μ) (t : Table κ ν)

theorem contains_mapValues (k : κ) : (t.mapValues f).contains k = t.contains k := by
  rw [contains, contains, keys_mapValues]

theorem mapValues_erase (k : κ) : (t.erase k).mapValues f = (t.mapValues f).erase k := by
  apply ext
  simp [erase, filter, mapValues, List.filter_map, Function.comp_def]

theorem mapValues_put (k : κ) (v : ν) : (t.put k v).mapValues f = (t.mapValues f).put k (f v) := by
  apply ext
  rw [put, put, contains_mapValues]
  split
  · simp only [mapValues, List.map_map]
    refine List.map_congr_left fun e _ => ?_
    simp only [Function.comp_apply]
    split <;> rfl
  · have herase := congrArg entries (mapValues_erase f t k)
    simp only [putLast, mapValues, List.map_append] at herase ⊢
    rw [herase]
    rfl

variable {t}

/-- Putting a value where it is already changes nothing. -/
theorem put_self {k : κ} {v : ν} (h : t.get? k = some v) : t.put k v = t := by
  have hk : t.contains k = true := by simpa [contains] using mem_keys_iff.mpr ⟨v, h⟩
  apply ext
  rw [put, if_pos hk]
  refine (List.map_congr_left fun e he => ?_).trans (List.map_id _)
  obtain ⟨j, w⟩ := e
  split
  · rename_i hj
    obtain rfl : j = k := hj
    have hw := get?_eq_some_iff.mpr he
    rw [h] at hw
    rw [Option.some.inj hw]
    rfl
  · rfl

end Table

/-- The members of the roles, and the actions granted to them on each path. -/
structure TwoTables where
  members : Table String (List Principal)
  grants : Table String (Table Path (List Action))

/-- The two halves of a store. -/
def RoleStore.split (s : RoleStore) : TwoTables :=
  ⟨s.roles.mapValues Role.members, s.roles.mapValues Role.grants⟩

namespace TwoTables

open Backend

def empty : TwoTables := ⟨.empty, .empty⟩

/-- The value at a name, which is missed if it is not there. -/
def fetch {ν : Type} (t : Table String ν) (name : String) : Except Fault ν :=
  match t.get? name with
  | some v => .ok v
  | none => .error (.missingKey name)

/-- Refuses a name that is not among the members. -/
def require (role : String) (t : TwoTables) : Except Fault Unit :=
  if t.members.contains role then .ok () else .error (.roleNotFound role)

def changeMembers (role : String) (f : List Principal → List Principal) (t : TwoTables) :
    Except Fault TwoTables := do
  t.require role
  let members ← fetch t.members role
  return { t with members := t.members.put role (f members) }

def changeGrants (role : String) (f : Table Path (List Action) → Table Path (List Action))
    (t : TwoTables) : Except Fault TwoTables := do
  t.require role
  let grants ← fetch t.grants role
  return { t with grants := t.grants.put role (f grants) }

/-- The grants of a role without the actions on the path. -/
def without (path : Path) (actions : List Action) (grants : Table Path (List Action)) :
    Table Path (List Action) :=
  match grants.get? path with
  | none => grants
  | some held =>
    match held.filter fun a => decide (a ∉ actions) with
    | [] => grants.erase path
    | rest => grants.put path rest

/-- What a call makes of the tables. -/
def apply : Call → TwoTables → Except Fault TwoTables
  | .createRole role, t =>
    if t.members.contains role then .error (.roleAlreadyExists role)
    else .ok ⟨t.members.put role [], t.grants.put role .empty⟩
  | .dropRole role, t => do
    t.require role
    let _ ← fetch t.members role
    let _ ← fetch t.grants role
    return ⟨t.members.erase role, t.grants.erase role⟩
  | .attach role p, t => t.changeMembers role fun ms => if p ∈ ms then ms else ms ++ [p]
  | .detach role p, t => t.changeMembers role fun ms => ms.filter fun q => decide (q ≠ p)
  | .grant path role actions, t => t.changeGrants role fun grants =>
    grants.put path (Action.distinct ((grants.get? path).getD [] ++ actions))
  | .revoke path role actions, t => t.changeGrants role (without path actions)
  | .revokeAllOn path, t => .ok { t with grants := t.grants.mapValues fun grants => grants.erase path }
  | _, t => .ok t

/-- Applies calls one after the other; those that are refused change nothing. -/
def applyAll : List Call → TwoTables → TwoTables
  | [], t => t
  | c :: rest, t => applyAll rest (match apply c t with | .ok u => u | .error _ => t)

def rolesFor (setup : Setup) (p : Principal) (t : TwoTables) : Except Fault (List String) := do
  match p.kind with
  | .role => return if t.members.contains p.name then [p.name] else []
  | _ =>
    let ps ← candidates setup p
    return (t.members.entries.filter fun (_, ms) => ms.any fun m => decide (m ∈ ps)).map Prod.fst

/-- Goes through the roles of the principal until one of them permits the action. -/
def authorizes (setup : Setup) (p : Principal) (path : Path) (a : Action) (t : TwoTables) :
    Except Fault Bool := do
  (← rolesFor setup p t).anyM fun role => do
    let grants ← fetch t.grants role
    return grants.entries.any fun (q, held) =>
      q.covers path && (decide (a ∈ held) || decide (Action.all ∈ held))

def privileges (setup : Setup) (p : Principal) (t : TwoTables) : Except Fault (List Privilege) := do
  let each ← (← rolesFor setup p t).mapM fun role => do
    let grants ← fetch t.grants role
    let each ← grants.entries.mapM fun (path, held) => do
      let e ← setup.resolver.entityOf? path
      return held.map fun a => (⟨p, e, a⟩ : Privilege)
    return each.flatten
  return each.flatten.eraseDups

/-- What a call answers. -/
def answer (setup : Setup) : (c : Call) → TwoTables → Except Fault c.Answer
  | .authorize p path a, t => (authorizes setup p path a t).map some
  | .listPrivileges p, t => privileges setup p t
  | .listRoles p, t => rolesFor setup p t
  | .listAllRoles, t => .ok t.members.keys
  | .createRole role, t => (apply (.createRole role) t).map fun _ => ()
  | .dropRole role, t => (apply (.dropRole role) t).map fun _ => ()
  | .attach role p, t => (apply (.attach role p) t).map fun _ => ()
  | .detach role p, t => (apply (.detach role p) t).map fun _ => ()
  | .grant path role actions, t => (apply (.grant path role actions) t).map fun _ => ()
  | .revoke path role actions, t => (apply (.revoke path role actions) t).map fun _ => ()
  | .revokeAllOn path, t => (apply (.revokeAllOn path) t).map fun _ => ()

/-! ### The halves of a store -/

variable {s : RoleStore} {role : String}

theorem fetch_mapValues {ν μ : Type} {f : ν → μ} {t : Table String ν} {v : ν}
    (h : t.get? role = some v) : fetch (t.mapValues f) role = .ok (f v) := by
  rw [fetch, Table.get?_mapValues, h]
  rfl

theorem require_split (role : String) (s : RoleStore) :
    s.split.require role = (s.find role).map fun _ => () := by
  rw [require, RoleStore.find, RoleStore.split, Table.contains_mapValues]
  cases hr : s.roles.get? role with
  | some r =>
    have hkey : role ∈ s.roles.keys := Table.mem_keys_iff.mpr ⟨r, hr⟩
    rw [if_pos (by simpa [Table.contains] using hkey)]
    rfl
  | none =>
    have hkey : role ∉ s.roles.keys := Table.get?_eq_none_iff.mp hr
    rw [if_neg (by simpa [Table.contains] using hkey)]
    rfl

/-- What is found in the store is found in both halves. -/
theorem split_cases (role : String) (s : RoleStore) :
    (∃ r, s.roles.get? role = some r ∧ s.find role = .ok r ∧ s.split.require role = .ok () ∧
      fetch s.split.members role = .ok r.members ∧ fetch s.split.grants role = .ok r.grants) ∨
    s.find role = .error (.roleNotFound role) ∧
      s.split.require role = .error (.roleNotFound role) := by
  rw [require_split]
  cases hr : s.roles.get? role with
  | some r =>
    have hfind : s.find role = .ok r := by rw [RoleStore.find, hr]
    refine .inl ⟨r, rfl, hfind, by rw [hfind]; rfl, ?_, ?_⟩
    · exact fetch_mapValues hr
    · exact fetch_mapValues hr
  | none =>
    have hfind : s.find role = .error (.roleNotFound role) := by rw [RoleStore.find, hr]
    exact .inr ⟨hfind, by rw [hfind]; rfl⟩

theorem changeMembers_split {f : List Principal → List Principal} {g : Role → Role}
    (hmembers : ∀ r, (g r).members = f r.members) (hgrants : ∀ r, (g r).grants = r.grants) :
    s.split.changeMembers role f = (s.change role g).map RoleStore.split := by
  rw [changeMembers, RoleStore.change]
  rcases split_cases role s with ⟨r, hr, hfind, hrequire, hfetch, -⟩ | ⟨hfind, hrequire⟩
  · rw [hfind, hrequire]
    show (fetch s.split.members role >>= fun ms => _) = _
    rw [hfetch]
    have hsame : (s.roles.mapValues Role.grants).put role r.grants = s.roles.mapValues Role.grants :=
      Table.put_self (by rw [Table.get?_mapValues, hr]; rfl)
    show Except.ok _ = Except.ok _
    simp only [RoleStore.split, Table.mapValues_put, hmembers, hgrants, hsame]
  · rw [hfind, hrequire]
    rfl

theorem changeGrants_split {f : Table Path (List Action) → Table Path (List Action)}
    {g : Role → Role} (hgrants : ∀ r, (g r).grants = f r.grants)
    (hmembers : ∀ r, (g r).members = r.members) :
    s.split.changeGrants role f = (s.change role g).map RoleStore.split := by
  rw [changeGrants, RoleStore.change]
  rcases split_cases role s with ⟨r, hr, hfind, hrequire, -, hfetch⟩ | ⟨hfind, hrequire⟩
  · rw [hfind, hrequire]
    show (fetch s.split.grants role >>= fun grants => _) = _
    rw [hfetch]
    have hsame : (s.roles.mapValues Role.members).put role r.members = s.roles.mapValues Role.members :=
      Table.put_self (by rw [Table.get?_mapValues, hr]; rfl)
    show Except.ok _ = Except.ok _
    simp only [RoleStore.split, Table.mapValues_put, hmembers, hgrants, hsame]
  · rw [hfind, hrequire]
    rfl

theorem grants_revoke (path : Path) (actions : List Action) (r : Role) :
    (r.revoke path actions).grants = without path actions r.grants := by
  cases hheld : r.grants.get? path with
  | none => simp only [Role.revoke, without, hheld]
  | some held =>
    simp only [Role.revoke, without, hheld]
    cases held.filter fun a => decide (a ∉ actions) <;> rfl

/-- Both tables keep the names of the store, whatever is done. -/
theorem apply_split (c : Call) (s : RoleStore) :
    apply c s.split = (c.apply s).map RoleStore.split := by
  cases c with
  | createRole role =>
    show (if s.split.members.contains role then _ else _) = (s.create role).map RoleStore.split
    rw [RoleStore.create, RoleStore.split, Table.contains_mapValues]
    split
    · rfl
    · show Except.ok _ = Except.ok _
      simp only [RoleStore.split, Table.mapValues_put]
      rfl
  | dropRole role =>
    show (do
      s.split.require role
      let _ ← fetch s.split.members role
      let _ ← fetch s.split.grants role
      return ⟨s.split.members.erase role, s.split.grants.erase role⟩ : Except Fault TwoTables) =
        (s.drop role).map RoleStore.split
    rw [RoleStore.drop]
    rcases split_cases role s with ⟨r, -, hfind, hrequire, hmembers, hgrants⟩ | ⟨hfind, hrequire⟩
    · rw [hfind, hrequire, hmembers, hgrants]
      show Except.ok _ = Except.ok _
      simp only [RoleStore.split, Table.mapValues_erase]
    · rw [hfind, hrequire]
      rfl
  | attach role p =>
    exact changeMembers_split (g := Role.attach p) (fun r => rfl) fun r => rfl
  | detach role p =>
    exact changeMembers_split (g := Role.detach p) (fun r => rfl) fun r => rfl
  | grant path role actions =>
    exact changeGrants_split (g := Role.grant path actions) (fun r => rfl) fun r => rfl
  | revoke path role actions =>
    exact changeGrants_split (g := Role.revoke path actions) (grants_revoke path actions)
      fun r => Role.members_revoke
  | revokeAllOn path =>
    show Except.ok _ = Except.ok _
    simp [RoleStore.split, RoleStore.clear, Table.mapValues, Role.clear, Function.comp_def]
  | authorize | listPrivileges | listRoles | listAllRoles => rfl

theorem applyAll_split (calls : List Call) (s : RoleStore) :
    applyAll calls s.split = (calls.foldl (fun s c => c.after s) s).split := by
  induction calls generalizing s with
  | nil => rfl
  | cons c rest ih =>
    rw [applyAll, List.foldl_cons, ← ih, apply_split, Call.after]
    cases c.apply s <;> rfl

/-! ### Answers -/

theorem rolesFor_split (setup : Setup) (p : Principal) (s : RoleStore) :
    rolesFor setup p s.split = (Backend.rolesFor setup p s).mapError .malformed := by
  rw [rolesFor, Backend.rolesFor]
  cases p.kind with
  | role =>
    show Except.ok _ = Except.ok _
    rw [RoleStore.split, Table.contains_mapValues]
  | user | group =>
    show (liftM (candidates setup p) >>= fun ps => _ : Except Fault _) = _
    cases candidates setup p with
    | error reason => rfl
    | ok ps =>
      show Except.ok _ = Except.ok _
      simp [RoleStore.split, RoleStore.rolesOfAny, Table.mapValues, List.filter_map,
        Function.comp_def]

/-- The roles that a principal acts in are some of those in the store, in their order. -/
theorem listed_of_rolesFor {setup : Setup} {p : Principal} {s : RoleStore} {names : List String}
    (h : Backend.rolesFor setup p s = .ok names) :
    ∃ q : String × Role → Bool, names = (s.roles.entries.filter q).map Prod.fst := by
  rw [Backend.rolesFor] at h
  cases hk : p.kind with
  | role =>
    rw [hk] at h
    obtain rfl := Except.ok.inj h
    refine ⟨fun e => decide (e.1 = p.name), ?_⟩
    have hone : (s.roles.entries.filter fun e => decide (e.1 = p.name)).map Prod.fst =
        s.roles.keys.filter fun n => decide (n = p.name) := by
      rw [Table.keys, List.filter_map]
      rfl
    have hnodup : s.roles.keys.Nodup := s.roles.nodup
    rw [hone, List.filter_eq, hnodup.count, Table.contains]
    by_cases hp : p.name ∈ s.roles.keys
    · rw [if_pos (decide_eq_true hp), if_pos hp]
      rfl
    · rw [if_neg (by simpa using hp), if_neg hp]
      rfl
  | user | group =>
    rw [hk] at h
    cases hps : candidates setup p with
    | error reason => rw [hps] at h; cases h
    | ok ps =>
      rw [hps] at h
      obtain rfl := Except.ok.inj h
      exact ⟨_, rfl⟩

theorem fetch_of_mem {e : String × Role} {s : RoleStore} (h : e ∈ s.roles.entries) :
    fetch s.split.grants e.1 = .ok e.2.grants :=
  fetch_mapValues (Table.get?_eq_some_iff.mpr h)

theorem filter_listed (s : RoleStore) (q : String × Role → Bool) :
    (s.roles.entries.filter fun (name, _) =>
      decide (name ∈ (s.roles.entries.filter q).map Prod.fst)) = s.roles.entries.filter q := by
  refine List.filter_congr fun e he => ?_
  rw [Bool.eq_iff_iff, decide_eq_true_eq, List.mem_map]
  constructor
  · rintro ⟨e', he', hname⟩
    obtain ⟨hmem, hq⟩ := List.mem_filter.mp he'
    -- a name occurs once
    have hvalue := Table.get?_eq_some_iff.mpr hmem
    rw [hname, Table.get?_eq_some_iff.mpr he] at hvalue
    obtain rfl : e' = e := Prod.ext hname (Option.some.inj hvalue).symm
    exact hq
  · intro hq
    exact ⟨e, List.mem_filter.mpr ⟨he, hq⟩, rfl⟩

theorem authorizes_split (setup : Setup) (p : Principal) (path : Path) (a : Action)
    (s : RoleStore) : authorizes setup p path a s.split =
      (Backend.authorizes setup p path a s).mapError .malformed := by
  rw [authorizes, Backend.authorizes, rolesFor_split]
  cases hnames : Backend.rolesFor setup p s with
  | error reason => rfl
  | ok names =>
    obtain ⟨q, rfl⟩ := listed_of_rolesFor hnames
    show List.anyM _ _ = Except.ok (s.permits _ path a)
    rw [RoleStore.permits, ← List.any_filter, filter_listed]
    have hsub : ∀ e ∈ s.roles.entries.filter q, e ∈ s.roles.entries :=
      fun e he => (List.mem_filter.mp he).1
    generalize s.roles.entries.filter q = rest at hsub
    induction rest with
    | nil => rfl
    | cons e rest ih =>
      rw [List.map_cons, List.anyM_cons, fetch_of_mem (hsub e (List.mem_cons_self ..)),
        List.any_cons]
      show (if e.2.permits path a then pure true else _) = _
      -- the search ends at the first role that permits the action
      cases e.2.permits path a with
      | true => rfl
      | false => exact ih fun e he => hsub e (List.mem_cons_of_mem _ he)

theorem privileges_split (setup : Setup) (p : Principal) (s : RoleStore) :
    privileges setup p s.split = Backend.privileges setup p s := by
  rw [privileges, Backend.privileges, rolesFor_split]
  cases hnames : Backend.rolesFor setup p s with
  | error reason => rfl
  | ok names =>
    obtain ⟨q, rfl⟩ := listed_of_rolesFor hnames
    show (List.mapM _ _ >>= _ : Except Fault _) = (List.mapM _ _ >>= _)
    refine congrArg (fun listed => listed >>= fun each : List (List Privilege) =>
      (pure each.flatten.eraseDups : Except Fault _)) ?_
    rw [filter_listed]
    have hsub : ∀ e ∈ s.roles.entries.filter q, e ∈ s.roles.entries :=
      fun e he => (List.mem_filter.mp he).1
    generalize s.roles.entries.filter q = rest at hsub
    induction rest with
    | nil => rfl
    | cons e rest ih =>
      have hrest := ih fun e he => hsub e (List.mem_cons_of_mem _ he)
      rw [List.map_cons, List.mapM_cons, List.mapM_cons, hrest,
        fetch_of_mem (hsub e (List.mem_cons_self ..))]
      rfl

/-- What is answered from the two tables is what the store answers. -/
theorem answer_split (setup : Setup) (c : Call) (s : RoleStore) :
    answer setup c s.split = c.answer setup s := by
  have hmap : ∀ result : Except Fault RoleStore,
      (result.map RoleStore.split).map (fun _ => ()) = result.map fun _ => () := by
    intro result
    cases result <;> rfl
  cases c with
  | authorize p path a => exact congrArg (Except.map some) (authorizes_split setup p path a s)
  | listPrivileges p => exact privileges_split setup p s
  | listRoles p => exact rolesFor_split setup p s
  | listAllRoles =>
    show Except.ok _ = Except.ok _
    rw [RoleStore.split, Table.keys_mapValues]
    rfl
  | createRole | dropRole | attach | detach | grant | revoke | revokeAllOn =>
    rw [answer, apply_split]
    exact hmap _

end TwoTables

end Warrant
