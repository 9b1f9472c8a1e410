import Warrant.Proofs.Effects
import Warrant.Proofs.Threads

/-!
# What a grant knows of the shadow role

A grant to a user or group makes the groups that stand for the principal members of the shadow role of
the pair, one call after the other, and others may drop the role between any two of them. They cannot
create it nor change its members, which takes the lock of the pair (`leads_keeping`). So the members
that the role has when the actions are granted are known from what the grant itself has met: a role
that is gone before the first group is attached is created again and gets all of them, but one that is
gone later is created again without the groups that have been attached (`attains_grant`).
-/

namespace Warrant

namespace Text

theorem nodup_eraseDups : ∀ texts : List String, texts.eraseDups.Nodup
  | [] => List.nodup_nil
  | t :: rest => by
    rw [List.eraseDups_cons, List.nodup_cons, List.mem_eraseDups]
    exact ⟨by simp, nodup_eraseDups _⟩
termination_by texts => texts.length
decreasing_by exact Nat.lt_succ_of_le (List.length_filter_le _ _)

theorem nodup_sortedDistinct (texts : List String) : (sortedDistinct texts).Nodup :=
  (List.mergeSort_perm _ _).nodup_iff.mpr (nodup_eraseDups texts)

end Text

namespace RoleStore

variable {s t : RoleStore} {name role : String} {p : Principal}

/-- The members of the role of the name, if it is there. -/
def members? (s : RoleStore) (name : String) : Option (List Principal) :=
  (s.roles.get? name).map Role.members

theorem hasMember_iff : s.HasMember name p ↔ ∃ l, s.members? name = some l ∧ p ∈ l := by
  rw [HasMember, members?]
  cases s.roles.get? name <;> simp

theorem members?_of_create (h : s.create role = .ok t) :
    s.members? role = none ∧ t.members? role = some [] := by
  obtain ⟨hnone, hget⟩ := get?_create h
  rw [members?, members?, hnone, hget, if_pos rfl]
  exact ⟨rfl, rfl⟩

theorem members?_of_attach (h : s.change role (Role.attach p) = .ok t) :
    ∃ l l', s.members? role = some l ∧ t.members? role = some l' ∧ ∀ m, m ∈ l' ↔ m ∈ l ∨ m = p := by
  obtain ⟨r, hr, hget⟩ := get?_change h
  rw [members?, members?, hr, hget, if_pos rfl]
  exact ⟨_, _, rfl, rfl, fun m => Role.mem_attach⟩

end RoleStore

namespace Engine

open Procedure RoleStore

/-- The request creates the role or changes its members. -/
def Tends (role : String) : Request Call → Prop
  | .call (.policy (.createRole r)) => r = role
  | .call (.policy (.attach r _)) | .call (.policy (.detach r _)) => r = role
  | _ => False

/-- Other calls can only drop the role. -/
theorem members?_of_apply {c : Backend.Call} {s t : RoleStore} {role : String}
    (hc : ¬ Tends role (.call (.policy c))) (h : c.apply s = .ok t) :
    t.members? role = none ∨ t.members? role = s.members? role := by
  have hchange : ∀ {r : String} {f : Role → Role}, s.change r f = .ok t →
      (r = role → ∀ x, (f x).members = x.members) → t.members? role = s.members? role := by
    intro r f hf hkeeps
    obtain ⟨x, hx, hget⟩ := get?_change hf
    rw [members?, members?, hget]
    split
    · rename_i hr
      subst hr
      rw [hx, Option.map_some, hkeeps rfl, Option.map_some]
    · rfl
  cases c with
  | createRole r =>
    rw [members?, members?, (get?_create h).2, if_neg (Ne.symm hc)]
    exact .inr rfl
  | dropRole r =>
    rw [members?, members?, get?_drop h]
    split
    · exact .inl rfl
    · exact .inr rfl
  | attach r p => exact .inr (hchange h fun hr => absurd hr hc)
  | detach r p => exact .inr (hchange h fun hr => absurd hr hc)
  | grant path r actions => exact .inr (hchange h fun _ _ => Role.members_grant)
  | revoke path r actions => exact .inr (hchange h fun _ _ => Role.members_revoke)
  | revokeAllOn path =>
    obtain rfl : s.clear path = t := Except.ok.inj h
    rw [members?, members?, get?_clear]
    cases s.roles.get? role <;> exact .inr rfl
  | authorize | listPrivileges | listRoles | listAllRoles =>
    obtain rfl : s = t := Except.ok.inj h
    exact .inr rfl

/-- Only the roles differ. -/
def Site.Akin (s t : Site) : Prop := t = { s with store := t.store }

namespace Site.Akin

variable {s t u : Site}

theorem trans (h : s.Akin t) (h' : t.Akin u) : s.Akin u := by
  rw [Akin, h', h]

theorem readOnly (h : s.Akin t) : t.readOnly = s.readOnly := by rw [h]

end Site.Akin

/-- What becomes of a site while nobody creates the role nor changes its members: the role is as it
was, or it is gone. -/
structure Site.Leaves (role : String) (s t : Site) : Prop where
  akin : s.Akin t
  members : t.store.members? role = none ∨ t.store.members? role = s.store.members? role

namespace Site.Leaves

variable {role : String} {s t u : Site} {l : List Principal}

theorem refl (role : String) (s : Site) : s.Leaves role s := ⟨rfl, .inr rfl⟩

theorem trans (h : s.Leaves role t) (h' : t.Leaves role u) : s.Leaves role u := by
  refine ⟨h.akin.trans h'.akin, ?_⟩
  rcases h'.members with hnone | hsame
  · exact .inl hnone
  · rw [hsame]
    exact h.members

theorem after {c : Call} (hc : ¬ Tends role (.call c)) (s : Site) : s.Leaves role (s.after c) := by
  refine ⟨after_services s c, ?_⟩
  rcases after_store_eq s c with hsame | ⟨d, rfl, happly⟩
  · exact .inr (congrArg (members? · role) hsame)
  · exact members?_of_apply hc happly

/-- Whoever finds the role finds it as it was. -/
theorem found (h : s.Leaves role t) (ht : t.store.members? role = some l) :
    s.store.members? role = some l := by
  rcases h.members with hnone | hsame
  · rw [hnone] at ht
    cases ht
  · exact hsame ▸ ht

end Site.Leaves

/-! ### Who tends a shadow role -/

section

variable {E : Engine} {role : String} {pair : Pair} {held : Option Pair} {α : Type} {p : Task α}

/-- The rules for locks, where only those tend the role who have the lock of the pair. -/
def keeping (role : String) (pair : Pair) : Rules (Request Call) Request.Reply (Option Pair) where
  may q held := (locks fun _ => True).may q held ∧ (Tends role q → held = some pair)
  gives := (locks fun _ => True).gives

theorem keeping_gives {q : Request Call} (hq : Lockless q) {reply : q.Reply} {held' : Option Pair} :
    (keeping role pair).gives q held reply held' ↔ held' = held := by
  have hlocks : (locks fun _ => True).gives q held reply held' ↔ held' = held := locks_gives hq
  exact hlocks

theorem returns_keeping (hp : p.Asks fun q => Lockless q ∧ (Tends role q → held = some pair)) :
    p.Returns (keeping role pair) held := by
  refine Asks.leads_still (R := keeping role pair) (fun q hq => ?_) hp
  exact ⟨⟨hq.1.may held, hq.2⟩, fun _ _ => (keeping_gives hq.1).mp⟩

theorem Plain.not_tends {q : Request Call} (h : Plain q) : ¬ Tends role q := by
  unfold Tends
  split
  · exact h.elim
  · exact h.elim
  · exact h.elim
  · exact id

/-- No operation tends the shadow role of a pair without the lock of the pair. -/
theorem leads_keeping (hname : ShadowRole.name? E.resolver pair.entity pair.principal = .ok role)
    (o : Operation) : (E.perform o).Returns (keeping role pair) none := by
  by_cases ho : o.pair? = some pair
  · rcases perform_of_pair ho with ⟨x, h⟩ | ⟨path, actions, body, failed, succeeded, -, h, -, hbody⟩
    · rw [h]
      exact (rfl : none = none)
    · have hreport : ∀ event, (Procedure.report event : Task Unit).Returns (keeping role pair) none :=
        fun _ => returns_keeping (Asks.report ⟨trivial, False.elim⟩)
      have hinvalidate : (Cache.invalidateSubtree pair.entity : Task Nat).Returns (keeping role pair)
          none :=
        returns_keeping (asks_invalidateSubtree ⟨trivial, False.elim⟩ fun _ => ⟨trivial, False.elim⟩)
      rw [h]
      refine returns_sweeping hinvalidate hreport (Leads.locked ⟨⟨trivial, rfl⟩, False.elim⟩ ?_)
      rintro _ rfl
      -- under the lock everything is allowed
      have hheld : body.Returns (keeping role pair) (some pair) :=
        returns_keeping ((lockless_of_work hbody).mono fun q hq => ⟨hq, fun _ => rfl⟩)
      refine Dialogue.Leads.mono hheld ?_
      rintro x _ rfl
      exact ⟨⟨rfl, False.elim⟩, fun _ hfree => hfree⟩
  · have hother : ∀ r, (ShadowRole.isReserved r = true → o.Owns E r) → r ≠ role := by
      rintro r howns rfl
      obtain ⟨⟨e, p⟩, ho', hname'⟩ := howns (ShadowRole.isReserved_of_name? hname)
      obtain ⟨rfl, rfl⟩ := ShadowRole.name?_injective hname' hname
      exact ho ho'
    have hasks : (E.perform o).Asks fun q => ¬ Tends role q := by
      refine asks_perform_in_full E (fun _ => Plain.not_tends) hother
        (fun r _ h => hother r fun hr => (h hr).1) ?_ (fun _ _ _ _ _ _ => id) (fun _ _ _ _ => id)
        fun _ _ => ⟨id, id⟩
      rintro r _ hr rfl
      rw [ShadowRole.isReserved_of_name? hname] at hr
      cases hr
    have htidy : Tidy (fun _ => True) (E.perform o) := tidy_perform E fun _ _ => trivial
    exact Dialogue.Leads.of_asks (S := keeping role pair)
      (fun q _ hq hmay => ⟨hmay, fun htends => absurd htends hq⟩) (fun _ _ _ _ => id) htidy hasks

theorem leads_errand_keeping
    (hname : ShadowRole.name? E.resolver pair.entity pair.principal = .ok role) (x : Errand) :
    (x.task E).Returns (keeping role pair) none := by
  cases x with
  | perform o => exact leads_keeping hname o
  | listRoles | listAllRoles | listPrivileges =>
    refine returns_keeping (Errand.asks_plain (fun q hq => ?_) nofun)
    exact ⟨hq.lockless, fun htends => absurd htends hq.not_tends⟩

end

/-! ### What a grant knows of the members -/

/-- Each of the groups of the names is among the members. -/
def Covers (names : List String) (members : List Principal) : Prop :=
  ∀ name ∈ names, ∃ g ∈ members, g.kind = .group ∧ g.name = name

namespace Covers

variable {names : List String} {l l' : List Principal} {g : Principal}

theorem append_iff : Covers (names ++ [g.name]) l ↔
    Covers names l ∧ ∃ h ∈ l, h.kind = .group ∧ h.name = g.name := by
  simp only [Covers, List.mem_append, List.mem_singleton, or_imp, forall_and, forall_eq]

/-- When a group of another name joins, the others are there if they have been before. -/
theorem joined_iff (hk : g.kind = .group) (hnew : g.name ∉ names)
    (hmem : ∀ m, m ∈ l' ↔ m ∈ l ∨ m = g) : Covers (names ++ [g.name]) l' ↔ Covers names l := by
  rw [append_iff, and_iff_left ⟨g, (hmem g).mpr (.inr rfl), hk, rfl⟩]
  constructor
  · intro h name hname
    obtain ⟨m, hm, hmk, rfl⟩ := h name hname
    rcases (hmem m).mp hm with hm | rfl
    · exact ⟨m, hm, hmk, rfl⟩
    · exact absurd hname hnew
  · intro h name hname
    obtain ⟨m, hm, hmk, hmn⟩ := h name hname
    exact ⟨m, (hmem m).mpr (.inl hm), hmk, hmn⟩

theorem alone_iff (hk : g.kind = .group) (hnew : g.name ∉ names) (hmem : ∀ m, m ∈ l' ↔ m = g) :
    Covers (names ++ [g.name]) l' ↔ names = [] := by
  rw [append_iff, and_iff_left ⟨g, (hmem g).mpr rfl, hk, rfl⟩]
  constructor
  · intro h
    refine List.eq_nil_iff_forall_not_mem.mpr fun name hname => ?_
    obtain ⟨m, hm, -, rfl⟩ := h name hname
    rw [(hmem m).mp hm] at hname
    exact hnew hname
  · rintro rfl
    exact nofun

end Covers

/-- The group is not the first of those that are attached. -/
def isLater (groups : List String) (g : Principal) : Bool :=
  (Text.sortedDistinct groups).head? != some g.name

theorem isLater_eq_false_iff {groups done rest : List String} {g : Principal}
    (hsorted : Text.sortedDistinct groups = done ++ g.name :: rest) (hnew : g.name ∉ done) :
    isLater groups g = false ↔ done = [] := by
  rw [isLater, hsorted]
  cases done with
  | nil => simp
  | cons name done => simp [Ne.symm (List.ne_of_not_mem_cons hnew)]

/-- The request is to attach a later group to the role, and the role is gone. -/
def misses (role : String) (groups : List String) (s : RoleStore) : Request Call → Bool
  | .call (.policy (.attach r g)) => r == role && isLater groups g && (s.members? role).isNone
  | _ => false

/-- How far a grant has come. While it has the lock it knows the site as its last call has left it, and
whether it has missed the role; in the end it has granted the actions. -/
inductive Progress
  | outside (missed : Bool)
  | inside (last : Site) (missed : Bool)
  | granted

namespace Progress

def missed : Progress → Bool
  | outside missed | inside _ missed => missed
  | granted => false

/-- What a call at the site makes of it. -/
def answered (role : String) (groups : List String) (now : Site) (missed : Bool) :
    (c : Call) → Except Fault c.Answer → Progress
  | .policy (.grant ..), .ok _ => granted
  | c, _ => inside (now.after c) (missed || misses role groups now.store (.call c))

/-- The grant is done with a call that grants the actions, or it goes on from the site as the call
leaves it. -/
theorem answered_cases (role : String) (groups : List String) (now : Site) (missed : Bool) (c : Call)
    (reply : Except Fault c.Answer) :
    (answered role groups now missed c reply = granted ∧
      (∃ path r actions, c = .policy (.grant path r actions)) ∧ ∃ a, reply = .ok a) ∨
    answered role groups now missed c reply =
      inside (now.after c) (missed || misses role groups now.store (.call c)) := by
  cases c with
  | groupsOf user => exact .inr rfl
  | policy c =>
    cases c with
    | grant path r actions =>
      cases reply with
      | ok a => exact .inl ⟨rfl, ⟨path, r, actions, rfl⟩, a, rfl⟩
      | error f => exact .inr rfl
    | _ => exact .inr rfl

end Progress

/-- The rules for a grant by the call. It asks for nothing remote without the lock, and when it grants
the actions it knows which members the role has, if it is still there. -/
def granting (origin : Site) (pair : Pair) (role : String) (groups : List String) (grant : Backend.Call) :
    Rules (Request Call) Request.Reply Progress where
  may
    | .call c, stage => ∃ last missed, stage = .inside last missed ∧
      ∀ path r actions, c = .policy (.grant path r actions) → .grant path r actions = grant ∧
        ∀ l, last.store.members? role = some l → (Covers groups l ↔ missed = false)
    | .chore (.acquire q), stage => q = pair ∧ stage = .outside false
    | .chore _, _ => True
  gives
    | .call c, .inside last missed, reply, stage' => ∃ now, last.Leaves role now ∧
      (reply = now.answer c ∨ ∃ field, reply = .error (.fieldClash field)) ∧
        stage' = .answered role groups now missed c reply
    | .chore (.acquire _), .outside missed, _, stage' =>
      ∃ s, s = { origin with store := s.store } ∧ stage' = .inside s missed
    | .chore (.release _), .inside _ missed, _, stage' => stage' = .outside missed
    | _, stage, _, stage' => stage' = stage

section

variable {E : Engine} {origin last : Site} {pair : Pair} {role : String} {groups : List String}
  {grant : Backend.Call} {missed : Bool} {stage : Progress} {g : Principal}

/-- A call that is carried out makes of the roles what it says. -/
theorem apply_of_answer {s : Site} {c : Backend.Call} {a : c.Answer} (hs : s.readOnly = false)
    (h : s.answer (.policy c) = .ok a) : c.apply s.store = .ok (s.after (.policy c)).store := by
  have hopen : ¬ s.readOnly = true := by rw [hs]; exact Bool.false_ne_true
  rw [Site.answer, if_neg hopen] at h
  rw [Site.after, if_neg hopen]
  rcases answer_cases c s.backend s.store with ⟨-, -, happly⟩ | ⟨f, hf, -⟩
  · exact happly
  · rw [hf] at h
    cases h

theorem after_of_refused {s : Site} {c : Backend.Call} {f : Fault} (hs : s.readOnly = false)
    (h : s.answer (.policy c) = .error f) :
    c.answer s.backend s.store = .error f ∧ s.after (.policy c) = s := by
  have hopen : ¬ s.readOnly = true := by rw [hs]; exact Bool.false_ne_true
  rw [Site.answer, if_neg hopen] at h
  rw [Site.after, if_neg hopen]
  rcases answer_cases c s.backend s.store with ⟨a, ha, -⟩ | ⟨-, -, hafter⟩
  · rw [ha] at h
    cases h
  · exact ⟨h, by rw [hafter]⟩

/-- Creating the role makes no group a member. -/
theorem leads_ensureRole (hlast : origin.Akin last) : (ensureRole role).Leads
    (granting origin pair role groups grant) (fun _ stage => ∃ now, stage = .inside now missed ∧
      origin.Akin now ∧ (last.store.members? role = none →
        ∀ l, now.store.members? role = some l → l = [])) (.inside last missed) := by
  refine Dialogue.Asks.leads_within (P := fun q => q = .call (.policy (.createRole role)) ∨
    ∃ event, q = .chore (.report event)) ?_ (asks_ensureRole (fun event => .inr ⟨event, rfl⟩) (.inl rfl))
    ⟨last, rfl, hlast, fun hnone l hl => ?_⟩
  · rintro _ _ (rfl | ⟨event, rfl⟩) ⟨now, rfl, hnow, hempty⟩
    · refine ⟨⟨now, missed, rfl, nofun⟩, ?_⟩
      rintro reply _ ⟨then', hleaves, -, rfl⟩
      refine ⟨then'.after _, congrArg (Progress.inside _) (Bool.or_false missed), ?_, ?_⟩
      · exact (hnow.trans hleaves.akin).trans (Site.after_services _ _)
      · intro hnone l hl
        rcases Site.after_store_eq then' (.policy (.createRole role)) with hsame | ⟨_, ⟨⟩, happly⟩
        · rw [hsame] at hl
          exact hempty hnone l (hleaves.found hl)
        · rw [(members?_of_create happly).2] at hl
          exact (Option.some.inj hl).symm
    · exact ⟨trivial, fun _ _ hstage => hstage ▸ ⟨now, rfl, hnow, hempty⟩⟩
  · rw [hnone] at hl
    cases hl

/-- One attempt to attach a group: it joins the members that the role has had, or the role is gone. -/
theorem leads_attach (hopen : origin.readOnly = false) (hlast : origin.Akin last) (g : Principal) :
    (policy (.attach role g)).Leads (granting origin pair role groups grant) (fun x stage =>
      (x = .ok () → ∃ l l' now, last.store.members? role = some l ∧ stage = .inside now missed ∧
        origin.Akin now ∧ now.store.members? role = some l' ∧ ∀ m, m ∈ l' ↔ m ∈ l ∨ m = g) ∧
      ∀ name, x = .error (.roleNotFound name) → ∃ now, stage = .inside now (missed || isLater groups g) ∧
        origin.Akin now ∧ now.store.members? role = none) (.inside last missed) := by
  refine ⟨⟨last, missed, rfl, nofun⟩, ?_⟩
  rintro reply _ ⟨now, hleaves, hreply, rfl⟩
  have hnow : origin.Akin now := hlast.trans hleaves.akin
  have hafter : origin.Akin (now.after (.policy (.attach role g))) :=
    hnow.trans (Site.after_services _ _)
  have hreadOnly : now.readOnly = false := hnow.readOnly.trans hopen
  constructor
  · rintro rfl
    have hanswer : now.answer (.policy (.attach role g)) = .ok () := by
      rcases hreply with hreply | ⟨field, hreply⟩
      · exact hreply.symm
      · cases hreply
    obtain ⟨l, l', hl, hl', hmem⟩ := members?_of_attach (apply_of_answer hreadOnly hanswer)
    refine ⟨l, l', _, hleaves.found hl, congrArg (Progress.inside _) ?_, hafter, hl', hmem⟩
    rw [misses, hl]
    simp
  · rintro name rfl
    have hanswer : now.answer (.policy (.attach role g)) = .error (.roleNotFound name) := by
      rcases hreply with hreply | ⟨field, hreply⟩
      · exact hreply.symm
      · cases hreply
    obtain ⟨hrefused, hsame⟩ := after_of_refused hreadOnly hanswer
    have hnone : now.store.members? role = none := by
      rw [Backend.Call.answer] at hrefused
      cases hchange : now.store.change role (Role.attach g) with
      | ok t =>
        rw [hchange] at hrefused
        cases hrefused
      | error f => rw [members?, (change_error hchange).2, Option.map_none]
    refine ⟨now, ?_, hnow, hnone⟩
    show Progress.inside (now.after _) _ = _
    rw [hsame, misses, hnone, isLater]
    simp

/-- A group joins the members, or it is the only member of a role that has been created again. -/
theorem attains_attachGroup (hopen : origin.readOnly = false) (hlast : origin.Akin last)
    (g : Principal) : Attains (granting origin pair role groups grant) (fun _ stage =>
      ∃ l' now missed', stage = .inside now missed' ∧ origin.Akin now ∧
        now.store.members? role = some l' ∧
        ((missed' = missed ∧ ∃ l, last.store.members? role = some l ∧ ∀ m, m ∈ l' ↔ m ∈ l ∨ m = g) ∨
          (missed' = (missed || isLater groups g) ∧ ∀ m, m ∈ l' ↔ m = g)))
      (attachGroup role g) (.inside last missed) := by
  refine Leads.outcome_bind (leads_attach hopen hlast g) fun x stage ⟨hjoined, hgone⟩ => ?_
  cases x with
  | ok u =>
    obtain ⟨l, l', now, hl, rfl, hnow, hl', hmem⟩ := hjoined rfl
    exact fun _ _ => ⟨l', now, missed, rfl, hnow, hl', .inl ⟨rfl, l, hl, hmem⟩⟩
  | error f =>
    cases f with
    | roleNotFound name =>
      obtain ⟨now, rfl, hnow, hnone⟩ := hgone name rfl
      -- nobody is a member of the role that is created now
      refine Attains.handling (Leads.bind (leads_ensureRole hnow) ?_ fun _ _ _ => nofun)
      rintro _ _ ⟨again, rfl, hagain, hempty⟩
      refine Dialogue.Leads.mono (leads_attach hopen hagain g) fun x stage ⟨hjoined, _⟩ u hx => ?_
      obtain ⟨l, l', then', hl, rfl, hthen, hl', hmem⟩ := hjoined hx
      rw [hempty hnone l hl] at hmem
      exact ⟨l', then', _, rfl, hthen, hl', .inr ⟨rfl, fun m => by rw [hmem]; simp⟩⟩
    | _ => exact Attains.error _

/-- What is known when the groups of the names have been attached: unless the role has been missed they
are its members. -/
structure Attached (origin : Site) (role : String) (names : List String) (last : Site) (missed : Bool) :
    Prop where
  akin : origin.Akin last
  first : names = [] → missed = false
  members : ∀ l, last.store.members? role = some l → (Covers names l ↔ missed = false)

theorem Attached.step {now : Site} {missed' : Bool} {done rest : List String} {l' : List Principal}
    (h : Attached origin role done last missed)
    (hsorted : Text.sortedDistinct groups = done ++ g.name :: rest) (hk : g.kind = .group)
    (hnow : origin.Akin now) (hl' : now.store.members? role = some l')
    (hstep : (missed' = missed ∧ ∃ l, last.store.members? role = some l ∧ ∀ m, m ∈ l' ↔ m ∈ l ∨ m = g) ∨
      (missed' = (missed || isLater groups g) ∧ ∀ m, m ∈ l' ↔ m = g)) :
    Attached origin role (done ++ [g.name]) now missed' := by
  have hnew : g.name ∉ done := by
    have hnodup := Text.nodup_sortedDistinct groups
    rw [hsorted] at hnodup
    exact fun hdone => (List.nodup_append.mp hnodup).2.2 _ hdone _ List.mem_cons_self rfl
  refine ⟨hnow, fun hnil => absurd hnil (List.append_ne_nil_of_right_ne_nil _ nofun), fun l hl => ?_⟩
  obtain rfl := Option.some.inj (hl'.symm.trans hl)
  rcases hstep with ⟨rfl, l, hl, hmem⟩ | ⟨rfl, hmem⟩
  · rw [Covers.joined_iff hk hnew hmem]
    exact h.members l hl
  · rw [Covers.alone_iff hk hnew hmem, Bool.or_eq_false_iff, isLater_eq_false_iff hsorted hnew]
    exact ⟨fun hnil => ⟨h.first hnil, hnil⟩, And.right⟩

theorem attains_attachGroups (hopen : origin.readOnly = false) {done rest : List String}
    (hsorted : Text.sortedDistinct groups = done ++ rest) (h : Attached origin role done last missed) :
    Attains (granting origin pair role groups grant) (fun _ stage => ∃ now missed',
      stage = .inside now missed' ∧ Attached origin role (done ++ rest) now missed')
      (attachGroups role rest) (.inside last missed) := by
  induction rest generalizing done last missed with
  | nil => exact Attains.pure ⟨last, missed, rfl, by rwa [List.append_nil]⟩
  | cons name rest ih =>
    refine Attains.bind_conclude fun g hgroup => ?_
    obtain ⟨hk, rfl⟩ := Principal.of_make? (Fault.lift_eq_ok_iff.mp hgroup)
    refine (attains_attachGroup hopen h.akin g).bind ?_
    rintro _ _ ⟨l', now, missed', rfl, hnow, hl', hstep⟩
    have hcons : done ++ g.name :: rest = (done ++ [g.name]) ++ rest := by simp
    rw [hcons]
    exact ih (hsorted.trans hcons) (h.step hsorted hk hnow hl' hstep)

theorem attains_standIns (E : Engine) (p : Principal) (hlast : origin.Akin last) :
    Attains (granting origin pair role groups grant) (fun names stage => names = E.standInsAt origin p ∧
      ∃ now, stage = .inside now missed ∧ origin.Akin now) (E.standIns p) (.inside last missed) := by
  have hlookup : ∀ user, Attains (granting origin pair role groups grant) (fun names stage =>
      names = E.groupsAt origin user ∧ ∃ now, stage = .inside now missed ∧ origin.Akin now)
      (E.groupsOf user) (.inside last missed) := by
    intro user
    rw [groupsOf, groupsAt]
    split
    · refine Attains.bind (Q := fun names stage =>
        names = (origin.identity.map fun i => i.groupsOf user).getD [] ∧
          ∃ now, stage = .inside now missed ∧ origin.Akin now) ⟨⟨last, missed, rfl, fun _ _ _ h => (by cases h)⟩, ?_⟩ ?_
      · rintro _ _ ⟨now, hleaves, hreply, rfl⟩ names rfl
        have hnow := hlast.trans hleaves.akin
        rcases hreply with hreply | ⟨field, hreply⟩
        · refine ⟨?_, now, congrArg (Progress.inside _) (Bool.or_false missed), hnow⟩
          rw [Except.ok.inj hreply, hnow]
        · cases hreply
      · rintro _ stage ⟨rfl, hstage⟩
        exact Attains.pure ⟨rfl, hstage⟩
    · exact Attains.pure ⟨rfl, last, rfl, hlast⟩
  rw [standIns, standInsAt]
  split
  · exact hlookup p.name
  · exact Attains.pure ⟨rfl, last, rfl, hlast⟩

theorem attains_grantThrough {e : Entity} {p : Principal} {path : Path} {actions : List Action}
    (hopen : origin.readOnly = false) (hname : ShadowRole.name? E.resolver e p = .ok role)
    (hlast : origin.Akin last) :
    Attains (granting origin pair role (E.standInsAt origin p) (.grant path role actions))
      (fun _ stage => stage = .granted) (E.grantThrough e path p actions) (.inside last false) := by
  rw [grantThrough, hname]
  refine Attains.bind_conclude fun _ h => ?_
  obtain rfl := Except.ok.inj h
  refine Leads.bind (leads_ensureRole hlast) ?_ fun _ _ _ => nofun
  rintro _ _ ⟨now, rfl, hnow, -⟩
  refine (attains_standIns E p hnow).bind ?_
  rintro _ _ ⟨rfl, now, rfl, hnow⟩
  have hnone : Attached origin role [] now false := ⟨hnow, fun _ => rfl, fun l _ => iff_of_true nofun rfl⟩
  refine (attains_attachGroups hopen (List.nil_append _).symm hnone).bind ?_
  rintro _ _ ⟨now, missed, rfl, hattached⟩
  refine Attains.bind (Q := fun _ stage => stage = .granted) ⟨⟨now, missed, rfl, ?_⟩, ?_⟩ fun _ _ h =>
    .pure h
  · rintro _ _ _ ⟨⟩
    refine ⟨rfl, fun l hl => ?_⟩
    rw [← hattached.members l hl]
    simp only [Covers, List.nil_append, Text.mem_sortedDistinct]
  · rintro _ _ ⟨now, -, -, rfl⟩ _ rfl
    rfl

theorem leads_report_granting (event : Audit.Event) (stage : Progress) :
    (Procedure.report event : Task Unit).Leads (granting origin pair role groups grant)
      (fun _ stage' => stage' = stage) stage := ⟨trivial, fun _ _ h => h⟩

theorem leads_invalidate_granting (e : Entity) (stage : Progress) :
    (Cache.invalidateSubtree e : Task Nat).Leads (granting origin pair role groups grant)
      (fun _ stage' => stage' = stage) stage := by
  refine ⟨trivial, fun n _ h => ?_⟩
  rw [show _ = stage from h]
  exact Leads.bind (leads_report_granting _ stage) (fun _ _ h => h) fun _ _ h => h

/-- A grant that succeeds has granted the actions when it has known the members. -/
theorem attains_grant {e : Entity} {p : Principal} {path : Path} {actions : List Action}
    (hopen : origin.readOnly = false) (hk : p.kind ≠ .role) (hne : actions ≠ [])
    (hp : E.resolver.resolve e = .ok path) :
    Attains (granting origin ⟨e, p⟩ (ShadowRole.nameOn path p) (E.standInsAt origin p)
        (.grant path (ShadowRole.nameOn path p) (Action.distinct actions)))
      (fun _ stage => stage = .granted) (E.grant e p actions) (.outside false) := by
  rw [grant_of_resolve (fun h => hne (isEmpty_distinct.mp h)) hp, grantOn, if_neg hk]
  refine Leads.bind (leads_invalidate_granting e _) ?_ fun _ _ _ _ h => (by cases h)
  rintro _ _ rfl
  refine Attains.bind (Q := fun _ stage => stage = .granted) (Attains.onFault ?_ fun f stage => ?_) ?_
  · refine Leads.locked ⟨rfl, rfl⟩ ?_
    rintro _ ⟨s, hs, rfl⟩
    have hname := ShadowRole.name?_of_resolve hp hk
    refine Dialogue.Leads.mono (attains_grantThrough hopen hname hs) fun x stage h => ⟨trivial, ?_⟩
    rintro stage' hgives a ha
    obtain rfl := h a ha
    exact hgives
  · exact Dialogue.Leads.mono (leads_report_granting _ stage) fun _ _ _ => trivial
  · rintro role _ rfl
    refine Leads.bind (leads_invalidate_granting e _) ?_ fun _ _ _ _ h => (by cases h)
    rintro _ _ rfl
    exact Dialogue.Leads.mono (leads_report_granting _ _) fun _ _ h _ _ => h

end

end Engine

end Warrant
