import Mathlib
import Warrant.Proofs.Relations

/-!
# Entries for no action

A role may keep a path without an action on it (`RoleStore.Vacant`). Nobody is let in by such an entry,
but it is counted when the path is cleared. It comes about in one way only, when nothing is granted to a
role that holds nothing on the path, and goes with the next call that gives the role something there or
takes the entry or the role away (`vacant_after`). So what was called tells which entries are vacant
(`vacancies_exact`).
-/

namespace Warrant

namespace RoleStore

variable {s t : RoleStore} {name role : String} {path : Path}

/-- The role of the name keeps the path, but no action on it. -/
def Vacant (s : RoleStore) (name : String) (path : Path) : Prop :=
  ∃ r, s.roles.get? name = some r ∧ r.Vacant path

/-- The role of the name is there and holds nothing on the path. -/
def Bare (s : RoleStore) (name : String) (path : Path) : Prop :=
  s.Has name ∧ ∀ a, ¬ s.Holds name path a

theorem bare_iff : s.Bare name path ↔ ∃ r, s.roles.get? name = some r ∧ r.heldOn path = [] := by
  constructor
  · rintro ⟨⟨r, hr⟩, hnone⟩
    exact ⟨r, hr, List.eq_nil_iff_forall_not_mem.mpr fun a ha => hnone a ⟨r, hr, ha⟩⟩
  · rintro ⟨r, hr, hnil⟩
    refine ⟨⟨r, hr⟩, ?_⟩
    rintro a ⟨r', hr', ha⟩
    obtain rfl := Option.some.inj (hr.symm.trans hr')
    rw [hnil] at ha
    cases ha

theorem not_vacant_empty : ¬ Vacant .empty name path := by
  rintro ⟨r, hr, -⟩
  cases hr

theorem vacant_create (h : s.create role = .ok t) : t.Vacant name path ↔ s.Vacant name path := by
  obtain ⟨hnone, hget⟩ := get?_create h
  by_cases hn : name = role
  · subst hn
    simp [Vacant, hget, hnone, Role.Vacant, Role.empty]
  · simp [Vacant, hget, hn]

theorem vacant_drop (h : s.drop role = .ok t) :
    t.Vacant name path ↔ s.Vacant name path ∧ role ≠ name := by
  have hget := get?_drop h
  by_cases hn : name = role
  · simp [Vacant, hget, hn]
  · simp [Vacant, hget, hn, Ne.symm hn]

theorem vacant_change {f : Role → Role} (h : s.change role f = .ok t) :
    t.Vacant name path ↔ (name ≠ role ∧ s.Vacant name path) ∨
      (name = role ∧ ∃ r, s.roles.get? role = some r ∧ (f r).Vacant path) := by
  obtain ⟨r, hr, hget⟩ := get?_change h
  by_cases hn : name = role
  · simp [Vacant, hget, hn, hr]
  · simp [Vacant, hget, hn]

/-- What does nothing to the grants leaves the vacant entries alone. -/
theorem vacant_change_of_grants {f : Role → Role} (h : s.change role f = .ok t)
    (hf : ∀ r, (f r).grants = r.grants) : t.Vacant name path ↔ s.Vacant name path := by
  obtain ⟨r, hr, hget⟩ := get?_change h
  by_cases hn : name = role
  · simp [Vacant, hget, hn, hr, Role.Vacant, hf]
  · simp [Vacant, hget, hn]

theorem vacant_clear (q : Path) (s : RoleStore) :
    (s.clear q).Vacant name path ↔ s.Vacant name path ∧ q ≠ path := by
  rw [Vacant, Vacant, get?_clear]
  cases s.roles.get? name with
  | none => simp
  | some r => simp [Role.vacant_clear, ne_comm]

/-! ### Entries -/

/-- The names of the roles that have an entry for exactly the path. -/
def enteredOn (path : Path) (s : RoleStore) : List String :=
  (s.roles.entries.filter fun e => e.2.grants.contains path).map Prod.fst

theorem nodup_enteredOn (path : Path) (s : RoleStore) : (s.enteredOn path).Nodup :=
  s.roles.nodup.sublist (List.filter_sublist.map _)

theorem length_enteredOn (path : Path) (s : RoleStore) :
    (s.enteredOn path).length = s.affected path := by
  rw [affected, Table.values, List.countP_map, List.countP_eq_length_filter, enteredOn, List.length_map]
  rfl

theorem not_vacant_of_holds {a : Action} (h : s.Holds name path a) : ¬ s.Vacant name path := by
  obtain ⟨r, hr, ha⟩ := h
  rintro ⟨r', hr', hvacant⟩
  obtain rfl := Option.some.inj (hr.symm.trans hr')
  rw [hvacant.heldOn] at ha
  cases ha

/-- A role that has an entry for the path holds something on it or keeps it vacant. -/
theorem mem_enteredOn_iff :
    name ∈ s.enteredOn path ↔ (∃ a, s.Holds name path a) ∨ s.Vacant name path := by
  have hentry : name ∈ s.enteredOn path ↔
      ∃ r held, s.roles.get? name = some r ∧ r.grants.get? path = some held := by
    simp [enteredOn, Table.contains, Table.mem_keys_iff, Table.get?_eq_some_iff]
  rw [hentry]
  constructor
  · rintro ⟨r, held, hr, hheld⟩
    cases held with
    | nil => exact .inr ⟨r, hr, hheld⟩
    | cons a held => exact .inl ⟨a, r, hr, Role.mem_heldOn_iff.mpr ⟨_, hheld, List.mem_cons_self⟩⟩
  · rintro (⟨a, r, hr, ha⟩ | ⟨r, hr, hvacant⟩)
    · obtain ⟨held, hheld, -⟩ := Role.mem_heldOn_iff.mp ha
      exact ⟨r, held, hr, hheld⟩
    · exact ⟨r, [], hr, hvacant⟩

theorem finite_vacant (path : Path) (s : RoleStore) : {n | s.Vacant n path}.Finite :=
  (s.enteredOn path).finite_toSet.subset fun _ hn => mem_enteredOn_iff.mpr (.inr hn)

theorem finite_holders (path : Path) (s : RoleStore) : {n | ∃ a, s.Holds n path a}.Finite :=
  (s.enteredOn path).finite_toSet.subset fun _ hn => mem_enteredOn_iff.mpr (.inl hn)

/-- What is counted on the path are the roles that hold something on it, and the vacant entries. -/
theorem affected_eq (path : Path) (s : RoleStore) :
    s.affected path = {n | ∃ a, s.Holds n path a}.ncard + {n | s.Vacant n path}.ncard := by
  have hunion : {n | ∃ a, s.Holds n path a} ∪ {n | s.Vacant n path} =
      ↑(s.enteredOn path).toFinset := by
    ext n
    rw [List.coe_toFinset, Set.mem_ofPred_eq, mem_enteredOn_iff]
    rfl
  have hdisjoint : Disjoint {n | ∃ a, s.Holds n path a} {n | s.Vacant n path} :=
    Set.disjoint_left.mpr fun n hn => not_vacant_of_holds hn.choose_spec
  calc s.affected path
      = (s.enteredOn path).toFinset.card := by
        rw [List.toFinset_card_of_nodup (nodup_enteredOn path s), length_enteredOn]
    _ = ({n | ∃ a, s.Holds n path a} ∪ {n | s.Vacant n path}).ncard := by
        rw [hunion, Set.ncard_coe_finset]
    _ = _ := Set.ncard_union_eq hdisjoint (finite_holders path s) (finite_vacant path s)

/-- The holders are counted alone just where nothing is vacant. -/
theorem affected_eq_holders_iff (path : Path) (s : RoleStore) :
    s.affected path = {n | ∃ a, s.Holds n path a}.ncard ↔ ∀ n, ¬ s.Vacant n path := by
  rw [affected_eq, Nat.add_eq_left, Set.ncard_eq_zero (finite_vacant path s),
    Set.eq_empty_iff_forall_notMem]
  rfl

end RoleStore

namespace Backend

open RoleStore Audit Audit.Logging

variable {setup : Setup} {c : Call} {s : RoleStore} {name : String} {path : Path}

/-- The call gives the role something on the path, or takes away its entry for the path or the role. -/
def Call.EndsVacancy (c : Call) (name : String) (path : Path) : Prop :=
  match c with
  | .dropRole role => role = name
  | .grant q role actions => role = name ∧ q = path ∧ actions ≠ []
  | .revoke q role _ => role = name ∧ q = path
  | .revokeAllOn q => q = path
  | _ => False

/-- What is refused neither opens nor ends a vacancy: there is no role of its name. -/
theorem Call.Refused.not_vacant {f : Fault} (h : c.Refused s.relations f) (name : String)
    (path : Path) :
    ¬ (c = .grant path name [] ∧ s.Bare name path) ∧
      (c.EndsVacancy name path → ¬ s.Vacant name path) := by
  cases c with
  | createRole | attach | detach => exact ⟨fun hc => (by cases hc.1), False.elim⟩
  | dropRole role =>
    refine ⟨fun hc => (by cases hc.1), ?_⟩
    rintro rfl ⟨r, hr, -⟩
    exact h.1 ⟨r, hr⟩
  | grant q role actions =>
    refine ⟨?_, ?_⟩
    · rintro ⟨hc, hbare⟩
      cases hc
      exact h.1 hbare.1
    · rintro ⟨rfl, -⟩ ⟨r, hr, -⟩
      exact h.1 ⟨r, hr⟩
  | revoke q role actions =>
    refine ⟨fun hc => (by cases hc.1), ?_⟩
    rintro ⟨rfl, -⟩ ⟨r, hr, -⟩
    exact h.1 ⟨r, hr⟩
  | authorize | listPrivileges | listRoles | listAllRoles | revokeAllOn => exact h.elim

/-- A call leaves an entry vacant if it grants nothing where nothing is held, or if the entry was vacant
before and the call does not end that. -/
theorem vacant_after : (c.after s).Vacant name path ↔
    (c = .grant path name [] ∧ s.Bare name path) ∨
      (s.Vacant name path ∧ ¬ c.EndsVacancy name path) := by
  rw [Call.after]
  cases happly : c.apply s with
  | error f =>
    obtain ⟨hnot, hends⟩ := (Call.apply_refused_iff.mp happly).not_vacant name path
    show s.Vacant name path ↔ _
    refine ⟨fun hv => .inr ⟨hv, fun he => hends he hv⟩, ?_⟩
    rintro (hnew | ⟨hv, -⟩)
    · exact absurd hnew hnot
    · exact hv
  | ok t =>
    show t.Vacant name path ↔ _
    cases c with
    | createRole role => simp [vacant_create happly, Call.EndsVacancy]
    | dropRole role => simp [vacant_drop happly, Call.EndsVacancy]
    | attach role p =>
      simp [vacant_change_of_grants happly fun r => rfl, Call.EndsVacancy]
    | detach role p =>
      simp [vacant_change_of_grants happly fun r => rfl, Call.EndsVacancy]
    | grant q role actions =>
      obtain ⟨r, hr, -⟩ := get?_change happly
      rw [vacant_change happly]
      by_cases hn : name = role
      · subst hn
        have hheld : r.Vacant path → r.heldOn path = [] := Role.Vacant.heldOn
        simp only [hr, bare_iff, Vacant, Call.EndsVacancy, Role.vacant_grant, Call.grant.injEq,
          Option.some.injEq, exists_eq_left', true_and, ne_eq, not_true_eq_false, false_and, false_or]
        grind
      · simp [Call.EndsVacancy, hn, Ne.symm hn]
    | revoke q role actions =>
      obtain ⟨r, hr, -⟩ := get?_change happly
      rw [vacant_change happly]
      by_cases hn : name = role
      · simp [Call.EndsVacancy, hn, hr, Role.vacant_revoke, Vacant, ne_comm]
      · simp [Call.EndsVacancy, hn, Ne.symm hn]
    | revokeAllOn q =>
      obtain rfl := Except.ok.inj happly
      simp [Call.EndsVacancy, vacant_clear]
    | authorize | listPrivileges | listRoles | listAllRoles =>
      obtain rfl := Except.ok.inj happly
      simp [Call.EndsVacancy]

/-- The roles that calls of a backend without roles leave. -/
def rolesAfter (calls : List Call) : RoleStore := calls.foldl (fun s c => c.after s) .empty

theorem rolesAfter_concat (calls : List Call) (c : Call) :
    rolesAfter (calls ++ [c]) = c.after (rolesAfter calls) := List.foldl_concat ..

/-- An entry is vacant if nothing has been granted on it where nothing was held, and no later call has
ended that. -/
theorem vacant_rolesAfter (calls : List Call) : (rolesAfter calls).Vacant name path ↔
    ∃ before later, calls = before ++ .grant path name [] :: later ∧
      (rolesAfter before).Bare name path ∧ ∀ c ∈ later, ¬ c.EndsVacancy name path := by
  induction calls using List.reverseRecOn with
  | nil => simp [rolesAfter, not_vacant_empty]
  | append_singleton calls c ih =>
    rw [rolesAfter_concat, vacant_after, ih]
    constructor
    · rintro (⟨rfl, hbare⟩ | ⟨⟨before, later, rfl, hbare, hlater⟩, hc⟩)
      · exact ⟨calls, [], rfl, hbare, nofun⟩
      · refine ⟨before, later ++ [c], by simp, hbare, fun d hd => ?_⟩
        rcases List.mem_append.mp hd with hd | hd
        · exact hlater d hd
        · rwa [List.mem_singleton.mp hd]
    · rintro ⟨before, later, hcalls, hbare, hlater⟩
      -- the call that opened the vacancy is the last one, or an earlier one
      rcases List.eq_nil_or_concat later with rfl | ⟨rest, d, rfl⟩
      · obtain ⟨rfl, hc⟩ := List.append_inj' hcalls rfl
        exact .inl ⟨(List.cons.inj hc).1, hbare⟩
      · have hlast : calls ++ [c] = (before ++ .grant path name [] :: rest) ++ [d] := by
          simpa using hcalls
        obtain ⟨rfl, hc⟩ := List.append_inj' hlast rfl
        obtain rfl : c = d := (List.cons.inj hc).1
        exact .inr ⟨⟨before, rest, rfl, hbare, fun e he => hlater e (by simp [he])⟩,
          hlater c (by simp)⟩

/-- After any calls of a backend without roles, a role keeps a path without an action exactly if it was
granted nothing there while it held nothing, and no call since has given it something there or taken
the entry or the role away. Clearing the path reports the roles that hold something on it together with
those that keep it vacant, and so the right number exactly if no role keeps it vacant. -/
theorem vacancies_exact (setup : Setup) (log : Log) (calls : List Call) (path : Path) :
    let reached := fun calls => (serveAll setup calls ⟨.empty, log⟩).state
    let x := serveAll setup calls ⟨.empty, log⟩
    let holders := {name | ∃ a, x.state.Holds name path a}
    let vacant := {name | x.state.Vacant name path}
    (∀ name, name ∈ vacant ↔ ∃ before later, calls = before ++ .grant path name [] :: later ∧
      (reached before).Bare name path ∧ ∀ c ∈ later, ¬ c.EndsVacancy name path) ∧
    ∃ n : Nat, (serve setup (.revokeAllOn path) x).2.log =
        (x.log.record (.resourceCleared path.text n)).2 ∧
      n = holders.ncard + vacant.ncard ∧ (n = holders.ncard ↔ vacant = ∅) := by
  intro reached x holders vacant
  refine ⟨fun name => ?_, x.state.affected path, rfl, affected_eq path x.state, ?_⟩
  · have hreached : reached = rolesAfter :=
      funext fun calls => (serveAll_spec setup calls ⟨.empty, log⟩).1
    show (reached calls).Vacant name path ↔ _
    rw [hreached]
    exact vacant_rolesAfter calls
  · rw [Set.eq_empty_iff_forall_notMem]
    exact affected_eq_holders_iff path x.state

namespace Sample

/-- One role is granted something on the instance, another one nothing. -/
def uneven : List Call :=
  [.createRole "team", .createRole "crew", .grant root "team" [.read], .grant root "crew" []]

theorem crew_counted :
    let x := serveAll service uneven ⟨.empty, ⟨.empty, []⟩⟩
    x.state.Vacant "crew" root ∧
    ∃ n : Nat, (serve service (.revokeAllOn root) x).2.log =
        (x.log.record (.resourceCleared root.text n)).2 ∧
      n ≠ {name | ∃ a, x.state.Holds name root a}.ncard := by
  intro x
  obtain ⟨hvacant, n, hlog, -, hright⟩ := vacancies_exact service ⟨.empty, []⟩ uneven root
  have hcrew : x.state.Vacant "crew" root :=
    (hvacant "crew").mpr ⟨uneven.take 3, [], rfl, bare_iff.mpr ⟨_, rfl, rfl⟩, nofun⟩
  exact ⟨hcrew, n, hlog, fun hn => Set.eq_empty_iff_forall_notMem.mp (hright.mp hn) _ hcrew⟩

/-- The role is kept on the instance though it holds nothing, and is counted. -/
theorem counted_for_nothing :
    let x := serveAll service [.createRole "team", .grant root "team" []] ⟨.empty, ⟨.empty, []⟩⟩
    x.state.Vacant "team" root ∧ (∀ name a, ¬ x.state.Holds name root a) ∧
    (serve service (.revokeAllOn root) x).2.log.events =
      x.log.events ++ [.resourceCleared root.text 1] := by
  refine ⟨⟨_, rfl, rfl⟩, ?_, rfl⟩
  rintro name a ⟨r, hr, ha⟩
  have hentry : (name, r) ∈ [("team", (⟨[], .ofList [(root, [])]⟩ : Role))] :=
    Table.get?_eq_some_iff.mp hr
  obtain ⟨-, rfl⟩ := Prod.mk.inj (List.mem_singleton.mp hentry)
  have hnone : a ∈ ([] : List Action) := ha
  cases hnone

end Sample

end Backend

end Warrant
