import Warrant.Proofs.Decisions

/-!
# How roles change

A change of the roles either adds to what they hold and to their members (`RoleStore.Gains`), or takes
away from both (`RoleStore.Loses`). What the engine takes away from shadow roles it does in a manner
of its own (`RoleStore.Sheds`): a shadow role that is left with nothing may go with its members.
-/

namespace Warrant

namespace Role

/-- The role keeps the path, but no action on it. -/
def Vacant (r : Role) (path : Path) : Prop := r.grants.get? path = some []

/-- No path is kept without actions. -/
def Filled (r : Role) : Prop := ∀ q held, r.grants.get? q = some held → held ≠ []

variable {r : Role} {path q : Path} {actions : List Action}

theorem filled_iff : r.Filled ↔ ∀ q, ¬ r.Vacant q :=
  ⟨fun h q hq => h q [] hq rfl, fun h q _ hq hnil => h q (hq.trans (congrArg some hnil))⟩

theorem Vacant.heldOn (h : r.Vacant path) : r.heldOn path = [] := by rw [Role.heldOn, h]; rfl

/-- A path becomes vacant when nothing is granted on it where nothing is held. -/
theorem vacant_grant : (r.grant path actions).Vacant q ↔
    (q = path ∧ r.heldOn path = [] ∧ actions = []) ∨ (q ≠ path ∧ r.Vacant q) := by
  rw [Vacant, grant]
  dsimp only
  rw [Table.get?_put]
  by_cases hq : q = path
  · simp [hq, Action.distinct_eq_nil]
  · simp [hq, Vacant]

theorem vacant_clear : (r.clear path).Vacant q ↔ r.Vacant q ∧ q ≠ path := by
  rw [Vacant, clear]
  dsimp only
  rw [Table.get?_erase]
  by_cases hq : q = path
  · simp [hq]
  · simp [hq, Vacant]

/-- A revocation leaves its path with actions, or does not keep it. -/
theorem vacant_revoke : (r.revoke path actions).Vacant q ↔ r.Vacant q ∧ q ≠ path := by
  rw [revoke]
  split
  · rename_i hnone
    refine ⟨fun h => ⟨h, ?_⟩, And.left⟩
    rintro rfl
    rw [Vacant, hnone] at h
    cases h
  · split
    · exact vacant_clear
    · rename_i hne
      rw [Vacant]
      dsimp only
      rw [Table.get?_put]
      by_cases hq : q = path
      · simpa [hq] using hne
      · simp [hq, Vacant]

theorem Filled.grant (h : r.Filled) (hne : actions ≠ []) : (r.grant path actions).Filled := by
  rw [filled_iff] at h ⊢
  intro q hq
  rcases vacant_grant.mp hq with ⟨-, -, hnil⟩ | ⟨-, hq⟩
  · exact hne hnil
  · exact h q hq

theorem Filled.clear (h : r.Filled) : (r.clear path).Filled :=
  filled_iff.mpr fun q hq => filled_iff.mp h q (vacant_clear.mp hq).1

theorem Filled.revoke (h : r.Filled) : (r.revoke path actions).Filled :=
  filled_iff.mpr fun q hq => filled_iff.mp h q (vacant_revoke.mp hq).1

end Role

namespace RoleStore

variable {s t u : RoleStore} {name : String} {path : Path} {p : Principal} {actions : List Action}

/-- There is a role of the name. -/
def Has (s : RoleStore) (name : String) : Prop := ∃ r, s.roles.get? name = some r

/-- No role keeps a path without actions. -/
def Filled (s : RoleStore) : Prop := ∀ n r, s.roles.get? n = some r → r.Filled

theorem filled_empty : Filled .empty := by
  intro n r hr
  cases hr

/-- The second store adds what is given to the roles, to what they hold and to their members. -/
structure Gains (born : String → Prop) (held : String → Path → Action → Prop)
    (joined : String → Principal → Prop) (s t : RoleStore) : Prop where
  roles : ∀ n, t.Has n ↔ s.Has n ∨ born n
  holds : ∀ n q a, t.Holds n q a ↔ s.Holds n q a ∨ held n q a
  members : ∀ n m, t.HasMember n m ↔ s.HasMember n m ∨ joined n m
  filled : s.Filled → t.Filled

/-- The second store takes what is given from what the roles hold and from their members. -/
structure Loses (lost : String → Path → Action → Prop) (left : String → Principal → Prop)
    (s t : RoleStore) : Prop where
  roles : ∀ n, t.Has n → s.Has n
  holds : ∀ n q a, t.Holds n q a ↔ s.Holds n q a ∧ ¬ lost n q a
  members : ∀ n m, t.HasMember n m ↔ s.HasMember n m ∧ ¬ left n m
  filled : s.Filled → t.Filled

/-- The second store takes what is given from what the roles hold, and nothing from the members of a
role that still holds something or that is no shadow role. -/
structure Sheds (lost : String → Path → Action → Prop) (s t : RoleStore) : Prop where
  roles : ∀ n, t.Has n → s.Has n
  holds : ∀ n q a, t.Holds n q a ↔ s.Holds n q a ∧ ¬ lost n q a
  sub : ∀ n m, t.HasMember n m → s.HasMember n m
  kept : ∀ n m, s.HasMember n m →
    (ShadowRole.isReserved n = false ∨ ∃ q a, t.Holds n q a) → t.HasMember n m
  filled : s.Filled → t.Filled

theorem Gains.trans {born born' : String → Prop} {held held' : String → Path → Action → Prop}
    {joined joined' : String → Principal → Prop} (h : Gains born held joined s t)
    (h' : Gains born' held' joined' t u) : Gains (fun n => born n ∨ born' n)
      (fun n q a => held n q a ∨ held' n q a) (fun n m => joined n m ∨ joined' n m) s u := by
  refine ⟨fun n => ?_, fun n q a => ?_, fun n m => ?_, fun hs => h'.filled (h.filled hs)⟩
  · rw [h'.roles, h.roles, or_assoc]
  · rw [h'.holds, h.holds, or_assoc]
  · rw [h'.members, h.members, or_assoc]

theorem Gains.congr {born born' : String → Prop} {held held' : String → Path → Action → Prop}
    {joined joined' : String → Principal → Prop} (h : Gains born held joined s t)
    (hborn : ∀ n, born n ↔ born' n) (hheld : ∀ n q a, held n q a ↔ held' n q a)
    (hjoined : ∀ n m, joined n m ↔ joined' n m) : Gains born' held' joined' s t :=
  ⟨fun n => by rw [h.roles, hborn], fun n q a => by rw [h.holds, hheld],
    fun n m => by rw [h.members, hjoined], h.filled⟩

theorem Gains.nothing (s : RoleStore) :
    Gains (fun _ => False) (fun _ _ _ => False) (fun _ _ => False) s s :=
  ⟨fun _ => (or_false _).symm.to_iff, fun _ _ _ => (or_false _).symm.to_iff,
    fun _ _ => (or_false _).symm.to_iff, id⟩

theorem Gains.of_has (h : s.Has name) :
    Gains (fun n => n = name) (fun _ _ _ => False) (fun _ _ => False) s s :=
  ⟨fun _ => ⟨.inl, fun hn => hn.elim id fun hn => hn ▸ h⟩, fun _ _ _ => (or_false _).symm.to_iff,
    fun _ _ => (or_false _).symm.to_iff, id⟩

theorem Sheds.nothing (s : RoleStore) : Sheds (fun _ _ _ => False) s s :=
  ⟨fun _ => id, fun _ _ _ => by rw [not_false_eq_true, and_true], fun _ _ => id, fun _ _ h _ => h, id⟩

theorem Sheds.trans {lost lost' : String → Path → Action → Prop} (h : Sheds lost s t)
    (h' : Sheds lost' t u) : Sheds (fun n q a => lost n q a ∨ lost' n q a) s u := by
  refine ⟨fun n hn => h.roles n (h'.roles n hn), fun n q a => ?_,
    fun n m hm => h.sub n m (h'.sub n m hm), fun n m hm hn => ?_, fun hs => h'.filled (h.filled hs)⟩
  · rw [h'.holds, h.holds, not_or, and_assoc]
  · refine h'.kept n m (h.kept n m hm (hn.imp id ?_)) hn
    rintro ⟨q, a, hh⟩
    exact ⟨q, a, ((h'.holds n q a).mp hh).1⟩

theorem Sheds.congr {lost lost' : String → Path → Action → Prop} (h : Sheds lost s t)
    (hlost : ∀ n q a, s.Holds n q a → (lost n q a ↔ lost' n q a)) : Sheds lost' s t := by
  refine ⟨h.roles, fun n q a => ?_, h.sub, h.kept, h.filled⟩
  rw [h.holds]
  exact and_congr_right fun hh => not_congr (hlost n q a hh)

theorem Loses.sheds {lost : String → Path → Action → Prop}
    (h : Loses lost (fun _ _ => False) s t) : Sheds lost s t :=
  ⟨h.roles, h.holds, fun n m hm => ((h.members n m).mp hm).1,
    fun n m hm _ => (h.members n m).mpr ⟨hm, id⟩, h.filled⟩

/-! ### What each change does -/

section change

variable {f : Role → Role}

theorem holds_change (h : s.change name f = .ok t) {n : String} {q : Path} {a : Action} :
    t.Holds n q a ↔ (n ≠ name ∧ s.Holds n q a) ∨
      (n = name ∧ ∃ r, s.roles.get? name = some r ∧ a ∈ (f r).heldOn q) := by
  obtain ⟨r, hr, hget⟩ := get?_change h
  by_cases hn : n = name
  · simp [Holds, hget, hn, hr]
  · simp [Holds, hget, hn]

theorem members_change (h : s.change name f = .ok t) {n : String} {m : Principal} :
    t.HasMember n m ↔ (n ≠ name ∧ s.HasMember n m) ∨
      (n = name ∧ ∃ r, s.roles.get? name = some r ∧ m ∈ (f r).members) := by
  obtain ⟨r, hr, hget⟩ := get?_change h
  by_cases hn : n = name
  · simp [HasMember, hget, hn, hr]
  · simp [HasMember, hget, hn]

theorem filled_change (h : s.change name f = .ok t) (hf : ∀ r : Role, r.Filled → (f r).Filled)
    (hs : s.Filled) : t.Filled := by
  obtain ⟨r, hr, hget⟩ := get?_change h
  intro n r' hr'
  rw [hget] at hr'
  split at hr'
  · cases hr'
    exact hf r (hs name r hr)
  · exact hs n r' hr'

theorem has_change (h : s.change name f = .ok t) (n : String) : t.Has n ↔ s.Has n := by
  obtain ⟨r, hr, hget⟩ := get?_change h
  by_cases hn : n = name
  · simp [Has, hget, hn, hr]
  · simp [Has, hget, hn]

theorem Has.change (h : s.Has name) (f : Role → Role) : ∃ t, s.change name f = .ok t := by
  obtain ⟨r, hr⟩ := h
  exact ⟨_, by rw [RoleStore.change, find_eq_ok_iff.mpr hr]; rfl⟩

theorem Gains.of_change {held : Path → Action → Prop} {joined : Principal → Prop}
    (h : s.change name f = .ok t)
    (hheld : ∀ (r : Role) q a, a ∈ (f r).heldOn q ↔ a ∈ r.heldOn q ∨ held q a)
    (hjoined : ∀ (r : Role) m, m ∈ (f r).members ↔ m ∈ r.members ∨ joined m)
    (hf : ∀ r : Role, r.Filled → (f r).Filled) :
    Gains (fun _ => False) (fun n q a => n = name ∧ held q a) (fun n m => n = name ∧ joined m) s t := by
  obtain ⟨r, hr, -⟩ := get?_change h
  refine ⟨fun n => by rw [has_change h, or_false], fun n q a => ?_, fun n m => ?_,
    filled_change h hf⟩
  · rw [holds_change h]
    by_cases hn : n = name
    · subst hn
      simp [Holds, hr, hheld]
    · simp [hn]
  · rw [members_change h]
    by_cases hn : n = name
    · subst hn
      simp [HasMember, hr, hjoined]
    · simp [hn]

theorem Loses.of_change {lost : Path → Action → Prop} {left : Principal → Prop}
    (h : s.change name f = .ok t)
    (hlost : ∀ (r : Role) q a, a ∈ (f r).heldOn q ↔ a ∈ r.heldOn q ∧ ¬ lost q a)
    (hleft : ∀ (r : Role) m, m ∈ (f r).members ↔ m ∈ r.members ∧ ¬ left m)
    (hf : ∀ r : Role, r.Filled → (f r).Filled) :
    Loses (fun n q a => n = name ∧ lost q a) (fun n m => n = name ∧ left m) s t := by
  obtain ⟨r, hr, -⟩ := get?_change h
  refine ⟨fun n => (has_change h n).mp, fun n q a => ?_, fun n m => ?_, filled_change h hf⟩
  · rw [holds_change h]
    by_cases hn : n = name
    · subst hn
      simp [Holds, hr, hlost]
    · simp [hn]
  · rw [members_change h]
    by_cases hn : n = name
    · subst hn
      simp [HasMember, hr, hleft]
    · simp [hn]

end change

theorem gains_create (h : s.create name = .ok t) :
    Gains (fun n => n = name) (fun _ _ _ => False) (fun _ _ => False) s t := by
  obtain ⟨hnone, hget⟩ := get?_create h
  refine ⟨fun n => ?_, fun n q a => ?_, fun n m => ?_, fun hs n r hr => ?_⟩
  · by_cases hn : n = name
    · simp [Has, hget, hn]
    · simp [Has, hget, hn]
  · by_cases hn : n = name
    · simp [Holds, hget, hn, hnone]
    · simp [Holds, hget, hn]
  · by_cases hn : n = name
    · simp [HasMember, hget, hn, hnone, Role.empty]
    · simp [HasMember, hget, hn]
  · rw [hget] at hr
    split at hr
    · cases hr
      intro q held hq
      cases hq
    · exact hs n r hr

theorem gains_attach (h : s.change name (Role.attach p) = .ok t) :
    Gains (fun _ => False) (fun _ _ _ => False) (fun n m => n = name ∧ m = p) s t := by
  have hgains : Gains (fun _ => False) (fun n _ _ => n = name ∧ False)
      (fun n m => n = name ∧ m = p) s t :=
    Gains.of_change h (fun r q a => by rw [Role.heldOn_attach, or_false])
      (fun r m => Role.mem_attach) fun r hr => hr
  exact hgains.congr (fun n => .rfl) (fun n q a => by rw [and_false]) fun n m => .rfl

theorem gains_grant (h : s.change name (Role.grant path actions) = .ok t) (hne : actions ≠ []) :
    Gains (fun _ => False) (fun n q a => n = name ∧ q = path ∧ a ∈ actions) (fun _ _ => False) s t := by
  have hgains : Gains (fun _ => False) (fun n q a => n = name ∧ q = path ∧ a ∈ actions)
      (fun n _ => n = name ∧ False) s t :=
    Gains.of_change h (fun r q a => Role.mem_heldOn_grant)
      (fun r m => by rw [Role.members_grant, or_false])
      fun r hr => hr.grant hne
  exact hgains.congr (fun n => .rfl) (fun n q a => .rfl) fun n m => by rw [and_false]

theorem loses_detach (h : s.change name (Role.detach p) = .ok t) :
    Loses (fun _ _ _ => False) (fun n m => n = name ∧ m = p) s t := by
  have hloses : Loses (fun n _ _ => n = name ∧ False) (fun n m => n = name ∧ m = p) s t :=
    Loses.of_change h (fun r q a => by rw [Role.heldOn_detach, not_false_eq_true, and_true])
      (fun r m => Role.mem_detach) fun r hr => hr
  exact ⟨hloses.roles, fun n q a => by rw [hloses.holds, and_false], hloses.members, hloses.filled⟩

theorem loses_revoke (h : s.change name (Role.revoke path actions) = .ok t) :
    Loses (fun n q a => n = name ∧ q = path ∧ a ∈ actions) (fun _ _ => False) s t := by
  have hloses : Loses (fun n q a => n = name ∧ q = path ∧ a ∈ actions)
      (fun n _ => n = name ∧ False) s t :=
    Loses.of_change h (fun r q a => Role.mem_heldOn_revoke)
      (fun r m => by rw [Role.members_revoke, not_false_eq_true, and_true]) fun r hr => hr.revoke
  exact ⟨hloses.roles, hloses.holds, fun n m => by rw [hloses.members, and_false], hloses.filled⟩

theorem has_drop (h : s.drop name = .ok t) (n : String) : t.Has n ↔ s.Has n ∧ n ≠ name := by
  have hget := get?_drop h
  by_cases hn : n = name <;> simp [Has, hget, hn]

theorem loses_drop (h : s.drop name = .ok t) :
    Loses (fun n _ _ => n = name) (fun n _ => n = name) s t := by
  have hget := get?_drop h
  refine ⟨fun n hn => ((has_drop h n).mp hn).1, fun n q a => ?_, fun n m => ?_, fun hs n r hr => ?_⟩
  · by_cases hn : n = name <;> simp [Holds, hget, hn]
  · by_cases hn : n = name <;> simp [HasMember, hget, hn]
  · rw [hget] at hr
    split at hr
    · cases hr
    · exact hs n r hr

theorem has_clear (path : Path) (s : RoleStore) (n : String) : (s.clear path).Has n ↔ s.Has n := by
  rw [Has, Has, get?_clear]
  cases s.roles.get? n <;> simp

theorem loses_clear (path : Path) (s : RoleStore) :
    Loses (fun _ q _ => q = path) (fun _ _ => False) s (s.clear path) := by
  refine ⟨fun n hn => (has_clear path s n).mp hn, fun n q a => ?_, fun n m => ?_,
    fun hs n r hr => ?_⟩
  · rw [Holds, Holds, get?_clear]
    cases s.roles.get? n with
    | none => simp
    | some r => simp [Role.mem_heldOn_clear]
  · rw [HasMember, HasMember, get?_clear]
    cases s.roles.get? n with
    | none => simp
    | some r => simp
  · rw [get?_clear, Option.map_eq_some_iff] at hr
    obtain ⟨r, hr, rfl⟩ := hr
    exact (hs n r hr).clear

/-- The store without the role, which may be gone already. -/
def erase (name : String) (s : RoleStore) : RoleStore := ⟨s.roles.erase name⟩

theorem drop_eq (h : s.drop name = .ok t) : t = s.erase name := by
  rw [drop] at h
  cases hf : s.find name with
  | error f => rw [hf] at h; cases h
  | ok r => rw [hf] at h; exact (Except.ok.inj h).symm

theorem not_has_erase (name : String) (s : RoleStore) : ¬ (s.erase name).Has name := by
  rintro ⟨r, hr⟩
  rw [erase, Table.get?_erase, if_pos rfl] at hr
  cases hr

/-- Erasing a shadow role that holds nothing. -/
theorem sheds_erase (hn : ShadowRole.isReserved name = true) (hidle : ∀ q a, ¬ s.Holds name q a) :
    Sheds (fun _ _ _ => False) s (s.erase name) := by
  have hget : ∀ n, (s.erase name).roles.get? n = if n = name then none else s.roles.get? n :=
    fun n => Table.get?_erase ..
  have hother : ∀ {n}, n ≠ name → (s.erase name).roles.get? n = s.roles.get? n := fun hn => by
    rw [hget, if_neg hn]
  have hstays : ∀ {n r}, (s.erase name).roles.get? n = some r → s.roles.get? n = some r := by
    intro n r hr
    rw [hget] at hr
    split at hr
    · cases hr
    · exact hr
  have hholds : ∀ {n q a}, s.Holds n q a → (s.erase name).Holds n q a := by
    rintro n q a ⟨r, hr, ha⟩
    refine ⟨r, ?_, ha⟩
    rw [hother (fun hn => hidle q a (hn ▸ ⟨r, hr, ha⟩)), hr]
  refine ⟨?_, fun n q a => ?_, ?_, ?_, fun hs n r hr => hs n r (hstays hr)⟩
  · rintro n ⟨r, hr⟩
    exact ⟨r, hstays hr⟩
  · refine ⟨?_, fun h => hholds h.1⟩
    rintro ⟨r, hr, ha⟩
    exact ⟨⟨r, hstays hr, ha⟩, id⟩
  · rintro n m ⟨r, hr, hm⟩
    exact ⟨r, hstays hr, hm⟩
  · rintro n m ⟨r, hr, hm⟩ hkept
    refine ⟨r, (hother ?_).trans hr, hm⟩
    rintro rfl
    rcases hkept with hfree | ⟨q, a, hh⟩
    · rw [hn] at hfree
      cases hfree
    · exact not_has_erase n s (hh.elim fun r hr => ⟨r, hr.1⟩)

theorem find_error {f : Fault} (h : s.find name = .error f) :
    f = .roleNotFound name ∧ s.roles.get? name = none := by
  rw [find] at h
  cases hr : s.roles.get? name with
  | some r => rw [hr] at h; cases h
  | none => rw [hr] at h; exact ⟨(Except.error.inj h).symm, rfl⟩

theorem change_error {f : Role → Role} {e : Fault} (h : s.change name f = .error e) :
    e = .roleNotFound name ∧ s.roles.get? name = none := by
  rw [change] at h
  cases hf : s.find name with
  | ok r => rw [hf] at h; cases h
  | error e' =>
    rw [hf] at h
    cases h
    exact find_error hf

theorem drop_error {e : Fault} (h : s.drop name = .error e) :
    e = .roleNotFound name ∧ s.roles.get? name = none := by
  rw [drop] at h
  cases hf : s.find name with
  | ok r => rw [hf] at h; cases h
  | error e' =>
    rw [hf] at h
    cases h
    exact find_error hf

/-! ### Without the shadow roles of an entity -/

/-- The store without those of the roles that the entity owns. -/
def disown (r : Resolver) (e : Entity) (names : List String) (s : RoleStore) : RoleStore :=
  ⟨s.roles.filter fun entry => decide (¬ (entry.1 ∈ names ∧ ShadowRole.owner? r entry.1 = some e))⟩

theorem disown_nil (r : Resolver) (e : Entity) (s : RoleStore) : s.disown r e [] = s := by
  refine congrArg RoleStore.mk (Table.ext (List.filter_eq_self.mpr fun entry _ => ?_))
  exact decide_eq_true fun h => List.not_mem_nil h.1

theorem disown_cons (r : Resolver) (e : Entity) (role : String) (rest : List String)
    (s : RoleStore) : s.disown r e (role :: rest) =
      (if ShadowRole.owner? r role = some e then s.erase role else s).disown r e rest := by
  split
  · rename_i howned
    refine congrArg RoleStore.mk (Table.ext ?_)
    show _ = List.filter _ (List.filter _ s.roles.entries)
    rw [List.filter_filter]
    refine List.filter_congr fun entry _ => ?_
    rw [← Bool.decide_and]
    refine decide_eq_decide.mpr ?_
    by_cases hrole : entry.1 = role
    · simp [hrole, howned]
    · simp [hrole]
  · rename_i hforeign
    refine congrArg RoleStore.mk (Table.ext (List.filter_congr fun entry _ => ?_))
    refine decide_eq_decide.mpr (not_congr ?_)
    by_cases hrole : entry.1 = role
    · simp [hrole, hforeign]
    · simp [hrole]

/-- The store when an entity is gone: nothing is held on its path, and there are no shadow roles of
it. -/
def without (r : Resolver) (e : Entity) (s : RoleStore) : RoleStore :=
  ⟨(s.clear e.path).roles.filter fun entry => decide (ShadowRole.owner? r entry.1 ≠ some e)⟩

theorem get?_without (r : Resolver) (e : Entity) (s : RoleStore) (n : String) :
    (s.without r e).roles.get? n =
      if ShadowRole.owner? r n = some e then none else (s.roles.get? n).map (Role.clear e.path) := by
  rw [without, Table.get?_filter, get?_clear]
  split
  · rename_i howner
    cases (s.roles.get? n).map (Role.clear e.path) <;> simp [howner]
  · rename_i howner
    cases (s.roles.get? n).map (Role.clear e.path) <;> simp [howner]

end RoleStore

end Warrant
