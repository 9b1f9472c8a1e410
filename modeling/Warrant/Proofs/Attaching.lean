import Warrant.Proofs.Sessions
import Warrant.Proofs.Tending

/-!
# Whether a grant attaches every group

Whatever operations run side by side with it, a grant that succeeds leaves the shadow role with every
group that stands for the principal exactly if the role has been there whenever a group after the first
one was attached (`grant_attaches_iff`). A role that is dropped in between loses the groups that have
been attached, although the grant succeeds.
-/

namespace Warrant.Engine

open Procedure RoleStore

variable {τ : Type} {E : Engine} {origin : Site} {pair : Pair} {role : String} {groups : List String}
  {grant : Backend.Call} {n : Nat}

deriving instance DecidableEq for Request

/-- What the thread asks for next, unless it has ended. -/
def asked? : Thread → Option (Request Call)
  | .ask q _ => some q
  | .done _ => none

namespace Pool

/-- What the thread of the number asks for next. -/
def asks? (P : Pool τ) (n : Nat) : Option (Request Call) := P.threads[n]?.bind asked?

theorem asks?_of_thread {P : Pool τ} {q : Request Call} {next : q.Reply → Thread}
    (h : P.threads[n]? = some (.ask q next)) : P.asks? n = some q := by rw [asks?, h]; rfl

/-- With the move the thread of the number tries to attach a later group to the role, which is gone. -/
def misses (n : Nat) (role : String) (groups : List String) (P : Pool τ) : Move τ → Bool
  | .go i _ => i == n && (P.asks? n).any (Engine.misses role groups P.world.remote.store)
  | _ => false

/-- Along the schedule the thread of the number finds the role whenever it attaches a later group. -/
def finds [Add τ] [LE τ] [DecidableLE τ] (E : Engine) (n : Nat) (role : String) (groups : List String) :
    List (Move τ) → Pool τ → Bool
  | [], _ => true
  | m :: rest, P => !P.misses n role groups m && finds E n role groups rest (step E m P)

theorem misses_of_no_call {P : Pool τ} {i : Nat}
    (h : ¬ ∃ c next, P.threads[i]? = some (.ask (.call c) next)) (fate : Fate) :
    P.misses n role groups (.go i fate) = false := by
  rw [misses, Bool.and_eq_false_imp]
  intro hi
  obtain rfl := beq_iff_eq.mp hi
  rw [asks?]
  cases hthread : P.threads[i]? with
  | none => rfl
  | some d =>
    cases d with
    | done x => rfl
    | ask q next =>
      cases q with
      | call c => exact absurd ⟨c, next, hthread⟩ h
      | chore q => rfl

/-- The thread of the number grants the actions with its next step, and whether the role has every group
then is known. -/
def Grants [Add τ] [LE τ] [DecidableLE τ] (role : String) (groups : List String)
    (grant : Backend.Call) (n : Nat) (missed : Bool) (P : Pool τ) : Prop :=
  P.asks? n = some (.call (.policy grant)) ∧
    grant.apply P.world.remote.store = .ok (P.go n .carriedOut).world.remote.store ∧
    ∀ l, P.world.remote.store.members? role = some l → (Covers groups l ↔ missed = false)

/-- Right after that step the role is there with the actions, and who its members are is known. -/
theorem Grants.after [Add τ] [LE τ] [DecidableLE τ] {path : Path} {actions : List Action}
    {missed : Bool} {P : Pool τ} (h : Grants role groups (.grant path role actions) n missed P) :
    (P.go n .carriedOut).world.remote.store.Has role ∧
      (∀ a ∈ actions, (P.go n .carriedOut).world.remote.store.Holds role path a) ∧
      ((∀ name ∈ groups, ∃ g : Principal, g.kind = .group ∧ g.name = name ∧
        (P.go n .carriedOut).world.remote.store.HasMember role g) ↔ missed = false) := by
  obtain ⟨-, happly, hmembers⟩ := h
  generalize (P.go n .carriedOut).world.remote.store = s at happly ⊢
  obtain ⟨r, hr, hget⟩ := get?_change happly
  have hrole : s.roles.get? role = some (r.grant path actions) := by rw [hget, if_pos rfl]
  refine ⟨⟨_, hrole⟩, fun a ha => ⟨_, hrole, ?_⟩, ?_⟩
  · exact Role.mem_heldOn_grant.mpr (.inr ⟨rfl, ha⟩)
  · have hmember : ∀ g, s.HasMember role g ↔ g ∈ r.members := by
      intro g
      rw [HasMember, hrole]
      refine ⟨?_, fun hg => ⟨_, rfl, hg⟩⟩
      rintro ⟨_, ⟨⟩, hg⟩
      exact hg
    rw [← hmembers r.members (by rw [members?, hr, Option.map_some])]
    refine forall₂_congr fun name _ => exists_congr fun g => ?_
    rw [hmember, ← and_assoc]
    exact and_comm

/-- The thread is a grant that has come as far as the stage says. -/
def Ongoing (origin : Site) (pair : Pair) (role : String) (groups : List String) (grant : Backend.Call)
    (d : Thread) (stage : Progress) : Prop :=
  Dialogue.Leads (granting origin pair role groups grant)
    (fun x stage => ∀ u, x = .ok u → stage = .granted) d stage

/-- The thread of the number is a grant that has come as far as the stage says; while it has the lock
nobody else tends the role. -/
structure Tended (origin : Site) (pair : Pair) (role : String) (groups : List String)
    (grant : Backend.Call) (n : Nat) (held : Nat → Option Pair) (stage : Progress) (P : Pool τ) :
    Prop where
  akin : origin.Akin P.world.remote
  locks : Held (fun _ _ => True) held P
  threads : Led (fun _ => keeping role pair) (fun _ _ held => held = none) held P.threads
  granting : ∃ d, P.threads[n]? = some d ∧ Ongoing origin pair role groups grant d stage
  now : ∀ last missed, stage = .inside last missed →
    held n = some pair ∧ last.Leaves role P.world.remote

namespace Tended

variable {held : Nat → Option Pair} {stage : Progress} {P : Pool τ} {i : Nat}

theorem leads (h : Tended origin pair role groups grant n held stage P) {d : Thread}
    (hd : P.threads[n]? = some d) : Ongoing origin pair role groups grant d stage := by
  obtain ⟨d', hd', hlead⟩ := h.granting
  obtain rfl := Option.some.inj (hd.symm.trans hd')
  exact hlead

theorem granting_set (h : Tended origin pair role groups grant n held stage P) (hi : i ≠ n)
    (d' : Thread) : ∃ d, (P.threads.set i d')[n]? = some d ∧
      Ongoing origin pair role groups grant d stage := by
  rw [List.getElem?_set_ne hi]
  exact h.granting

theorem granting_next (h : Tended origin pair role groups grant n held stage P) {q : Request Call}
    {next : q.Reply → Thread} (hthread : P.threads[n]? = some (.ask q next)) {reply : q.Reply}
    {stage' : Progress}
    (hgives : (Engine.granting origin pair role groups grant).gives q stage reply stage') :
    ∃ d, (P.threads.set n (next reply))[n]? = some d ∧
      Ongoing origin pair role groups grant d stage' := by
  rw [List.getElem?_set_self (List.getElem?_eq_some_iff.mp hthread).1]
  exact ⟨_, rfl, (h.leads hthread).2 reply stage' hgives⟩

/-- Nothing but locks is answered with another stage. -/
theorem threads_answered (h : Tended origin pair role groups grant n held stage P) {q : Request Call}
    {next : q.Reply → Thread} (hthread : P.threads[i]? = some (.ask q next)) (hq : Lockless q)
    (reply : q.Reply) : Led (fun _ => keeping role pair) (fun _ _ held => held = none) held
      (P.threads.set i (next reply)) := h.threads.stay hthread ((keeping_gives hq).mpr rfl)

theorem take (h : Tended origin pair role groups grant n held stage P) {q : Pair}
    {next : Unit → Thread} (hthread : P.threads[i]? = some (.ask (.chore (.acquire q)) next))
    (hfree : q ∉ P.locked) : ∃ stage', Tended origin pair role groups grant n (moved held i (some q))
      stage' ⟨P.world, P.threads.set i (next ()), q :: P.locked⟩ ∧
        (stage' = .granted ↔ stage = .granted) ∧ stage'.missed = stage.missed := by
  have hlocks := h.locks.take hthread hfree
  have hgives : (keeping role pair).gives (.chore (.acquire q)) (held i) () (some q) := rfl
  have hthreads := h.threads.set hthread hgives
  by_cases hi : i = n
  · subst hi
    obtain ⟨rfl, rfl⟩ : q = pair ∧ stage = .outside false := (h.leads hthread).1
    refine ⟨.inside P.world.remote false, ⟨h.akin, hlocks, hthreads, ?_, ?_⟩,
      iff_of_false nofun nofun, rfl⟩
    · exact h.granting_next hthread ⟨P.world.remote, h.akin, rfl⟩
    · rintro _ _ ⟨⟩
      exact ⟨moved_self .., .refl role P.world.remote⟩
  · refine ⟨stage, ⟨h.akin, hlocks, hthreads, h.granting_set hi _, ?_⟩, .rfl, rfl⟩
    rw [moved_other (Ne.symm hi)]
    exact h.now

theorem give (h : Tended origin pair role groups grant n held stage P) {q : Pair}
    {next : Unit → Thread} (hthread : P.threads[i]? = some (.ask (.chore (.release q)) next)) :
    ∃ stage', Tended origin pair role groups grant n (moved held i none) stage'
      ⟨P.world, P.threads.set i (next ()), P.locked.erase q⟩ ∧
        (stage' = .granted ↔ stage = .granted) ∧ stage'.missed = stage.missed := by
  have hlocks := h.locks.give hthread
  have hgives : (keeping role pair).gives (.chore (.release q)) (held i) () none := rfl
  have hthreads := h.threads.set hthread hgives
  by_cases hi : i = n
  · subst hi
    cases stage with
    | inside last missed =>
      refine ⟨.outside missed, ⟨h.akin, hlocks, hthreads, ?_, nofun⟩, iff_of_false nofun nofun, rfl⟩
      exact h.granting_next hthread rfl
    | outside missed =>
      exact ⟨_, ⟨h.akin, hlocks, hthreads, h.granting_next hthread rfl, nofun⟩, .rfl, rfl⟩
    | granted => exact ⟨_, ⟨h.akin, hlocks, hthreads, h.granting_next hthread rfl, nofun⟩, .rfl, rfl⟩
  · refine ⟨stage, ⟨h.akin, hlocks, hthreads, h.granting_set hi _, ?_⟩, .rfl, rfl⟩
    rw [moved_other (Ne.symm hi)]
    exact h.now

/-- When it grants the actions it knows the members of the role, if it is there. -/
theorem knows (h : Tended origin pair role groups grant n held stage P) {path : Path} {r : String}
    {actions : List Action} {next : Except Fault Unit → Thread}
    (hthread : P.threads[n]? = some (.ask (.call (.policy (.grant path r actions))) next)) :
    .grant path r actions = grant ∧
      ∀ l, P.world.remote.store.members? role = some l → (Covers groups l ↔ stage.missed = false) := by
  obtain ⟨last, missed, rfl, hknows⟩ := (h.leads hthread).1
  obtain ⟨hgrant, hmembers⟩ := hknows path r actions rfl
  exact ⟨hgrant, fun l hl => hmembers l ((h.now last missed rfl).2.found hl)⟩

variable [Add τ] [LE τ] [DecidableLE τ]

theorem still (h : Tended origin pair role groups grant n held stage P) {q : Chore}
    {next : q.Reply → Thread} (hthread : P.threads[i]? = some (.ask (.chore q) next))
    (hq : Lockless (.chore q)) :
    Tended origin pair role groups grant n held stage ⟨(World.chore q P.world).2,
      P.threads.set i (next (World.chore q P.world).1), P.locked⟩ := by
  have hremote : (World.chore q P.world).2.remote = P.world.remote :=
    (World.chore_beside q P.world).remote
  have hthreads := h.threads_answered hthread hq (World.chore q P.world).1
  refine ⟨hremote ▸ h.akin, h.locks.answered hthread hq _ _, hthreads, ?_, hremote ▸ h.now⟩
  by_cases hi : i = n
  · subst hi
    refine h.granting_next hthread ?_
    cases q with
    | acquire | release => exact hq.elim
    | report | find | keep | forget => rfl
  · exact h.granting_set hi _

/-- While the grant has the lock, the call of another thread can only drop the role. -/
theorem call_other (h : Tended origin pair role groups grant n held stage P) {c : Call}
    {next : Request.Reply (.call c) → Thread} (hthread : P.threads[i]? = some (.ask (.call c) next))
    (hi : i ≠ n) (fate : Fate) : Tended origin pair role groups grant n held stage (P.go i fate) := by
  have hthreads := h.threads_answered hthread trivial (fate.meet c P.world).1
  have hlocks := h.locks.answered hthread trivial (fate.meet c P.world).1 (fate.meet c P.world).2
  have hgranting := h.granting_set hi (next (fate.meet c P.world).1)
  rw [Pool.go_call fate hthread]
  rcases (fate.meet_world c P.world).1 with hremote | hremote
  · exact ⟨hremote ▸ h.akin, hlocks, hthreads, hgranting, hremote ▸ h.now⟩
  · refine ⟨?_, hlocks, hthreads, hgranting, ?_⟩
    · rw [hremote]
      exact h.akin.trans (Site.after_services _ c)
    · intro last missed hstage
      obtain ⟨hn, hleaves⟩ := h.now last missed hstage
      have hother : ¬ Tends role (.call c) := fun htends =>
        hi (h.locks.holders.once i n pair ((h.threads.may hthread).2 htends) hn)
      rw [hremote]
      exact ⟨hn, hleaves.trans (.after hother _)⟩

/-- The grant goes on from the site as its own call leaves it. -/
theorem call_own (h : Tended origin pair role groups grant n held stage P) {c : Call}
    {next : Request.Reply (.call c) → Thread} (hthread : P.threads[n]? = some (.ask (.call c) next)) :
    Tended origin pair role groups grant n held
      (.answered role groups P.world.remote stage.missed c (P.world.call c).1)
      ⟨(P.world.call c).2, P.threads.set n (next (P.world.call c).1), P.locked⟩ := by
  obtain ⟨log, -, hcall⟩ := P.world.call_world c
  have hremote : (P.world.call c).2.remote = P.world.remote.after c := by rw [hcall]
  have hthreads := h.threads_answered hthread trivial (P.world.call c).1
  obtain ⟨last, missed, rfl, -⟩ := (h.leads hthread).1
  obtain ⟨hn, hleaves⟩ := h.now last missed rfl
  refine ⟨?_, h.locks.answered hthread trivial _ _, hthreads, ?_, ?_⟩
  · rw [hremote]
    exact h.akin.trans (Site.after_services _ c)
  · exact h.granting_next hthread ⟨P.world.remote, hleaves, P.world.call_clash c, rfl⟩
  · intro last' missed' hstage
    rcases Progress.answered_cases role groups P.world.remote missed c (P.world.call c).1 with
      ⟨hgranted, -⟩ | hinside
    · cases hgranted.symm.trans hstage
    · obtain ⟨rfl, -⟩ := Progress.inside.inj (hinside.symm.trans hstage)
      rw [hremote]
      exact ⟨hn, .refl role _⟩

/-- With a step of any thread the grant is done, or it has missed the role if it had before or does so
now. -/
theorem go (h : Tended origin pair role groups grant n held stage P) (hopen : origin.readOnly = false)
    (i : Nat) {fate : Fate} (hown : i = n → fate = .carriedOut) :
    ∃ held' stage', Tended origin pair role groups grant n held' stage' (P.go i fate) ∧
      ((i = n ∧ stage ≠ .granted ∧ stage' = .granted ∧ P.misses n role groups (.go i fate) = false ∧
          Grants role groups grant n stage.missed P) ∨
        ((stage' = .granted ↔ stage = .granted) ∧
          stage'.missed = (stage.missed || P.misses n role groups (.go i fate)))) := by
  -- only calls reach the site, and what they do depends on whose they are
  by_cases hcalls : ∃ c next, P.threads[i]? = some (.ask (.call c) next)
  · obtain ⟨c, next, hthread⟩ := hcalls
    by_cases hi : i = n
    · subst hi
      obtain rfl := hown rfl
      have hgo : P.go i .carriedOut = ⟨(P.world.call c).2, P.threads.set i (next (P.world.call c).1),
          P.locked⟩ := Pool.go_call .carriedOut hthread
      have hmisses : P.misses i role groups (.go i .carriedOut) =
          Engine.misses role groups P.world.remote.store (.call c) := by
        rw [misses, asks?_of_thread hthread, beq_self_eq_true, Bool.true_and, Option.any_some]
      have hstage : stage ≠ .granted := by
        rintro rfl
        obtain ⟨last, missed, hinside, -⟩ := (h.leads hthread).1
        cases hinside
      refine ⟨held, _, hgo ▸ h.call_own hthread, ?_⟩
      rcases Progress.answered_cases role groups P.world.remote stage.missed c (P.world.call c).1 with
        ⟨hgranted, ⟨path, r, actions, rfl⟩, a, ha⟩ | hinside
      · obtain ⟨rfl, hmembers⟩ := h.knows hthread
        refine .inl ⟨rfl, hstage, hgranted, hmisses, asks?_of_thread hthread, ?_, hmembers⟩
        obtain ⟨log, -, hcall⟩ := P.world.call_world (.policy (.grant path r actions))
        rw [hgo, hcall]
        exact apply_of_answer (h.akin.readOnly.trans hopen) (World.call_sound ha)
      · rw [hinside, hmisses]
        exact .inr ⟨iff_of_false nofun hstage, rfl⟩
    · refine ⟨held, stage, h.call_other hthread hi fate, .inr ⟨.rfl, ?_⟩⟩
      rw [misses, beq_false_of_ne hi, Bool.false_and, Bool.or_false]
  · rw [misses_of_no_call hcalls, Bool.or_false, Pool.go_of_no_call hcalls]
    have hgoes := P.goes i
    generalize P.go i .carriedOut = P', P.taker? (.go i .carriedOut) = who at hgoes ⊢
    cases hgoes with
    | stays => exact ⟨held, stage, h, .inr ⟨.rfl, rfl⟩⟩
    | takes hthread hfree =>
      obtain ⟨stage', htended, hdone⟩ := h.take hthread hfree
      exact ⟨_, stage', htended, .inr hdone⟩
    | gives hthread =>
      obtain ⟨stage', htended, hdone⟩ := h.give hthread
      exact ⟨_, stage', htended, .inr hdone⟩
    | @answered q next hthread hq =>
      cases q with
      | call c => exact absurd ⟨c, next, hthread⟩ hcalls
      | chore q => exact ⟨held, stage, h.still hthread hq, .inr ⟨.rfl, rfl⟩⟩

theorem wait (h : Tended origin pair role groups grant n held stage P) (d : τ) :
    Tended origin pair role groups grant n held stage (Pool.step E (.wait d) P) :=
  ⟨h.akin, ⟨h.locks.threads, h.locks.mine, h.locks.holders⟩, h.threads, h.granting, h.now⟩

theorem start (h : Tended origin pair role groups grant n held stage P)
    (hname : ShadowRole.name? E.resolver pair.entity pair.principal = .ok role) (x : Errand) :
    Tended origin pair role groups grant n held stage (Pool.step E (.start x) P) := by
  refine ⟨h.akin, h.locks.start (tidy_errand E fun _ _ _ _ => trivial), h.threads.start ?_, ?_, h.now⟩
  · rw [h.locks.held_length]
    exact leads_errand_keeping hname x
  · obtain ⟨d, hd, hlead⟩ := h.granting
    exact ⟨d, (List.getElem?_append_left (List.getElem?_eq_some_iff.mp hd).1).trans hd, hlead⟩

/-- A grant that is done attaches no group any more. -/
theorem finds_of_granted (h : Tended origin pair role groups grant n held .granted P)
    (hopen : origin.readOnly = false)
    (hname : ShadowRole.name? E.resolver pair.entity pair.principal = .ok role)
    {schedule : List (Move τ)} (hown : ∀ fate, .go n fate ∈ schedule → fate = .carriedOut) :
    finds E n role groups schedule P = true := by
  induction schedule generalizing held P with
  | nil => rfl
  | cons m rest ih =>
    have hrest : ∀ fate, .go n fate ∈ rest → fate = .carriedOut := fun fate hmem =>
      hown fate (List.mem_cons_of_mem m hmem)
    cases m with
    | start x => exact ih (h.start hname x) hrest
    | wait d => exact ih (h.wait d) hrest
    | go i fate =>
      have hfate : i = n → fate = .carriedOut := fun hi => hown fate (hi ▸ List.mem_cons_self)
      obtain ⟨held', stage', htended, ⟨-, hstage, -⟩ | ⟨hstage, hmissed⟩⟩ := h.go hopen i hfate
      · exact absurd rfl hstage
      · obtain rfl := hstage.mpr rfl
        have hfinds : P.misses n role groups (.go i fate) = false := hmissed.symm
        rw [finds, hfinds]
        exact ih htended hrest

/-- A grant that ends well is done at some step, and what it has missed is known. -/
theorem run (h : Tended origin pair role groups grant n held stage P) (hopen : origin.readOnly = false)
    (hname : ShadowRole.name? E.resolver pair.entity pair.principal = .ok role)
    (hstage : stage ≠ .granted) {schedule : List (Move τ)}
    (hown : ∀ fate, .go n fate ∈ schedule → fate = .carriedOut)
    (hok : (Pool.run E schedule P).result? n = some (.ok ())) :
    ∃ before after, schedule = before ++ .go n .carriedOut :: after ∧
      Grants role groups grant n (stage.missed || !finds E n role groups schedule P)
        (Pool.run E before P) := by
  induction schedule generalizing held stage P with
  | nil => exact absurd (h.leads (result?_eq_some_iff.mp hok) () rfl) hstage
  | cons m rest ih =>
    have hrest : ∀ fate, .go n fate ∈ rest → fate = .carriedOut := fun fate hmem =>
      hown fate (List.mem_cons_of_mem m hmem)
    cases m with
    | start x =>
      obtain ⟨before, after, rfl, hgrants⟩ := ih (h.start hname x) hstage hrest hok
      exact ⟨.start x :: before, after, rfl, hgrants⟩
    | wait d =>
      obtain ⟨before, after, rfl, hgrants⟩ := ih (h.wait d) hstage hrest hok
      exact ⟨.wait d :: before, after, rfl, hgrants⟩
    | go i fate =>
      have hfate : i = n → fate = .carriedOut := fun hi => hown fate (hi ▸ List.mem_cons_self)
      obtain ⟨held', stage', htended, hcase⟩ := h.go hopen i hfate
      rcases hcase with ⟨rfl, -, rfl, hmisses, hgrants⟩ | ⟨hstage', hmissed⟩
      · obtain rfl := hfate rfl
        have hlater : finds E i role groups rest (Pool.step E (.go i .carriedOut) P) = true :=
          htended.finds_of_granted hopen hname hrest
        refine ⟨[], rest, rfl, ?_⟩
        rwa [finds, hmisses, hlater, Bool.not_false, Bool.and_self, Bool.not_true, Bool.or_false]
      · obtain ⟨before, after, rfl, hgrants⟩ := ih htended (mt hstage'.mp hstage) hrest hok
        refine ⟨.go i fate :: before, after, rfl, ?_⟩
        rwa [hmissed, Bool.or_assoc, ← Bool.not_not (P.misses ..), ← Bool.not_and] at hgrants

end Tended

end Pool

variable [Add τ] [LE τ] [DecidableLE τ]

/-- Whatever runs side by side with it, whenever that begins and ends and whatever becomes of its calls,
a grant to a user or group that succeeds has granted the actions at some step. Right after it the shadow
role of the pair is there and holds the actions, and it has every group that stands for the principal
among its members exactly if the role has been there whenever the grant has attached another group than
the first. -/
theorem grant_attaches_iff {w : World Site τ} (hopen : w.remote.readOnly = false)
    {ops : List Operation} {e : Entity} {p : Principal} {actions : List Action} {path : Path}
    (ho : ops[n]? = some (.grant e p actions)) (hk : p.kind ≠ .role) (hne : actions ≠ [])
    (hp : E.resolver.resolve e = .ok path) {schedule : List (Move τ)}
    (hown : ∀ fate, .go n fate ∈ schedule → fate = .carriedOut)
    (hok : (Pool.run E schedule (.gather E w ops)).result? n = some (.ok ())) :
    let role := ShadowRole.nameOn path p
    let groups := E.standInsAt w.remote p
    ∃ before after, schedule = before ++ .go n .carriedOut :: after ∧
      let P := Pool.run E before (.gather E w ops)
      let s := (P.go n .carriedOut).world.remote.store
      P.asks? n = some (.call (.policy (.grant path role (Action.distinct actions)))) ∧
      s.Has role ∧ (∀ a ∈ actions, s.Holds role path a) ∧
      ((∀ name ∈ groups, ∃ g : Principal, g.kind = .group ∧ g.name = name ∧ s.HasMember role g) ↔
        Pool.finds E n role groups schedule (.gather E w ops) = true) := by
  intro role groups
  have hname := ShadowRole.name?_of_resolve hp hk
  have htended : Pool.Tended w.remote ⟨e, p⟩ role groups (.grant path role (Action.distinct actions)) n
      (fun _ => none) (.outside false) (Pool.gather E w ops) := by
    refine ⟨rfl, Pool.held_gather E w fun _ _ _ _ _ => trivial,
      Pool.led_gather fun i o _ => leads_keeping hname o,
      ⟨ExceptT.run (E.perform (.grant e p actions)), ?_, attains_grant hopen hk hne hp⟩, fun _ _ h => (by cases h)⟩
    rw [Pool.gather, List.getElem?_map, ho, Option.map_some]
  obtain ⟨before, after, hschedule, hgrants⟩ := htended.run hopen hname (fun h => (by cases h)) hown hok
  obtain ⟨hhas, hholds, hmembers⟩ := hgrants.after
  refine ⟨before, after, hschedule, hgrants.1, hhas, ?_, ?_⟩
  · exact fun a ha => hholds a (Action.mem_distinct.mpr ha)
  · rw [hmembers, Progress.missed, Bool.false_or, Bool.not_eq_false']

namespace Sample

/-- The principal is granted to read on the root, and everything on the root is revoked. -/
def crossed (p : Principal) : Pool Nat :=
  .gather team (.new ⟨10, 5⟩ 0 .empty office) [.grant root p [.read], .revokeAll root]

/-- The grant takes some steps, then everything is revoked, and then the grant goes on. -/
def interrupted (before after : Nat) : List (Move Nat) :=
  .replicate before (.go 0 .carriedOut) ++ .replicate 9 (.go 1 .carriedOut) ++
    .replicate after (.go 0 .carriedOut)

theorem carriedOut_of_mem_interrupted {before after : Nat} (fate : Fate)
    (h : .go 0 fate ∈ interrupted before after) : fate = .carriedOut := by
  simp only [interrupted, List.mem_append, List.mem_replicate] at h
  rcases h with (⟨-, h⟩ | ⟨-, h⟩) | ⟨-, h⟩
  · exact (Move.go.inj h).2
  · exact absurd (Move.go.inj h).1 (by decide)
  · exact (Move.go.inj h).2

/-- Everything is revoked between the creation of Ben's role and the first attempt to attach the staff
to it. The role is created again and gets them. -/
theorem attached_in_time :
    (Pool.run team (interrupted 6 9) (crossed ben)).result? 0 = some (.ok ()) ∧
    (Pool.run team (interrupted 6 0) (crossed ben)).world.remote.store.roles = .empty ∧
    ∃ before after, interrupted 6 9 = before ++ .go 0 .carriedOut :: after ∧
      let P := Pool.run team before (crossed ben)
      P.asks? 0 =
        some (.call (.policy (.grant root.path (ShadowRole.nameOn root.path ben) [.read]))) ∧
      ∃ g : Principal, g.kind = .group ∧ g.name = "staff" ∧
        (P.go 0 .carriedOut).world.remote.store.HasMember (ShadowRole.nameOn root.path ben) g := by
  have hok : (Pool.run team (interrupted 6 9) (crossed ben)).result? 0 = some (.ok ()) := by
    decide +kernel
  obtain ⟨before, after, hschedule, hasks, -, -, hattached⟩ :=
    grant_attaches_iff (n := 0) (E := team) (w := .new ⟨10, 5⟩ 0 .empty office) rfl rfl (by decide)
      (by decide) rfl carriedOut_of_mem_interrupted hok
  have hfinds : Pool.finds team 0 (ShadowRole.nameOn root.path ben) (team.standInsAt office ben)
      (interrupted 6 9) (crossed ben) = true := by decide +kernel
  exact ⟨hok, by decide +kernel, before, after, hschedule, hasks, hattached.mpr hfinds "staff" (by decide)⟩

/-- Everything is revoked after the editors have been attached to Ada's role and before the staff. The
role is created again and gets the staff only, and the grant succeeds. -/
theorem editors_lost :
    (Pool.run team (interrupted 7 9) (crossed ada)).result? 0 = some (.ok ()) ∧
    ∃ before after, interrupted 7 9 = before ++ .go 0 .carriedOut :: after ∧
      let P := Pool.run team before (crossed ada)
      let s := (P.go 0 .carriedOut).world.remote.store
      P.asks? 0 =
        some (.call (.policy (.grant root.path (ShadowRole.nameOn root.path ada) [.read]))) ∧
      s.members? (ShadowRole.nameOn root.path ada) = some [staff] ∧
      ¬ ∀ name ∈ team.standInsAt office ada, ∃ g : Principal, g.kind = .group ∧ g.name = name ∧
        s.HasMember (ShadowRole.nameOn root.path ada) g := by
  -- the kernel does not evaluate the sorting of two names
  have hsort : Text.sortedDistinct = fun names =>
      if names = ["editors", "staff"] then ["editors", "staff"] else Text.sortedDistinct names := by
    funext names
    split
    · rename_i hnames
      subst hnames
      exact List.mergeSort_of_pairwise (by decide)
    · rfl
  have hrun : (Pool.run team (interrupted 7 9) (crossed ada)).result? 0 = some (.ok ()) ∧
      (Pool.run team (interrupted 7 4) (crossed ada)).asks? 0 =
        some (.call (.policy (.grant root.path (ShadowRole.nameOn root.path ada) [.read]))) ∧
      ((Pool.run team (interrupted 7 4) (crossed ada)).go 0 .carriedOut).world.remote.store.members?
        (ShadowRole.nameOn root.path ada) = some [staff] := by
    simp only [crossed, Pool.gather, List.map_cons, List.map_nil, perform, grant, grantOn, grantThrough]
    rw [hsort]
    decide +kernel
  obtain ⟨hok, hasks, hmembers⟩ := hrun
  refine ⟨hok, interrupted 7 4, .replicate 4 (.go 0 .carriedOut), rfl, hasks, hmembers, fun hall => ?_⟩
  obtain ⟨g, -, hname, hmember⟩ := hall "editors" (by decide +kernel)
  obtain ⟨l, hl, hg⟩ := hasMember_iff.mp hmember
  obtain rfl := Option.some.inj (hmembers.symm.trans hl)
  rw [List.mem_singleton.mp hg] at hname
  exact absurd hname (by decide)

end Sample

end Warrant.Engine
