import Warrant.Proofs.Crews
import Warrant.Proofs.Turns

/-!
# Work on one pair, one after the other

Grants and revocations on one pair take turns. What they have done so far is what those have done one
after the other that have had their turn, and if somebody has the lock, what its work has done since
(`Orderly`). So whatever the order of their steps, operations that run side by side on one pair do what
they do one after the other, in the order in which they took the lock (`Crew.serializable`).
-/

namespace Warrant.Engine

open Procedure RoleStore Site

/-! ### Whose turn it is -/

/-- The numbered steps lead from the one state to the other, one after the other. -/
def Chain {σ : Type} (Done : Nat → σ → σ → Prop) : List Nat → σ → σ → Prop
  | [], s, t => t = s
  | i :: rest, s, t => ∃ u, Done i s u ∧ Chain Done rest u t

theorem Chain.snoc {σ : Type} {Done : Nat → σ → σ → Prop} {order : List Nat} {i : Nat} {s t u : σ}
    (h : Chain Done order s t) (hi : Done i t u) : Chain Done (order ++ [i]) s u := by
  induction order generalizing s with
  | nil =>
    obtain rfl : t = s := h
    exact ⟨u, hi, rfl⟩
  | cons j rest ih =>
    obtain ⟨v, hj, hrest⟩ := h
    exact ⟨v, hj, ih hrest⟩

/-- The operation of the number works on the pair and does from the one site to the other what it does
where it is alone. -/
def Worked (τ : Type) [Add τ] [LE τ] [DecidableLE τ] (E : Engine) (context : Audit.Context)
    (pair : Pair) (ops : List Operation) (i : Nat) (s t : Site) : Prop :=
  ∃ o, ops[i]? = some o ∧ o.WorksOn pair ∧ Does τ E context o s t

def Stage.Outside (stage : Stage) : Prop := ∀ s t, stage ≠ .inside s t

theorem Stage.outside_early : Stage.early.Outside := fun _ _ h => by cases h

theorem Stage.outside_late : Stage.late.Outside := fun _ _ h => by cases h

/-- How the operation of the number ends: if it works on the pair it has done so and succeeds. -/
def Finished (pair : Pair) (ops : List Operation) (i : Nat) (x : Except Fault Unit) (stage : Stage) :
    Prop := stage.Outside ∧ ∀ o, ops[i]? = some o → o.WorksOn pair → x = .ok () ∧ stage = .late

variable {τ : Type} [Add τ] [LE τ] [DecidableLE τ] {E : Engine} {context : Audit.Context}
  {pair : Pair} {path : Path} {ops : List Operation} {o : Operation} {origin s : Site}
  {stage : Nat → Stage} {order : List Nat} {P : Pool τ}

theorem Chain.ready (h : Chain (Worked τ E context pair ops) order origin s) (hs : origin.Ready E) :
    s.Ready E := by
  induction order generalizing origin with
  | nil =>
    obtain rfl : s = origin := h
    exact hs
  | cons i rest ih =>
    obtain ⟨t, ⟨o, -, ho, hdoes⟩, hrest⟩ := h
    exact ih hrest (hs.of_effect ho hdoes.effect)

/-- The lock of the pair is free and the site is as those have left it who had it, or someone has it
and has found the site so. -/
inductive Orderly (Done : Nat → Site → Site → Prop) (pair : Pair) (origin : Site) (stage : Nat → Stage)
    (now : Site) : List Pair → List Nat → Prop
  | free {order : List Nat} : (∀ i, (stage i).Outside) → Chain Done order origin now →
    Orderly Done pair origin stage now [] order
  | taken {done : List Nat} {i : Nat} {first : Site} : stage i = .inside first now →
    (∀ j, j ≠ i → (stage j).Outside) → Chain Done done origin first →
    Orderly Done pair origin stage now [pair] (done ++ [i])

/-- The operations on the pair have had their turns in the order, and all keep to the rules. -/
structure Serial (E : Engine) (context : Audit.Context) (pair : Pair) (ops : List Operation)
    (origin : Site) (stage : Nat → Stage) (order : List Nat) (P : Pool τ) : Prop where
  bound : P.world.log.context = context
  ready : origin.Ready E
  threads : Led (fun i => turns context pair (Site.Ready E) (Worked τ E context pair ops i))
    (Finished pair ops) stage P.threads
  begun : ∀ i, i ∈ order ↔ stage i ≠ .early
  nodup : order.Nodup
  orderly : Orderly (Worked τ E context pair ops) pair origin stage P.world.remote P.locked order

namespace Serial

variable {n : Nat}

/-- Whoever is at work has the lock, and has made of the site what it is. -/
theorem at_work (h : Serial E context pair ops origin stage order P) {first now : Site}
    (hn : stage n = .inside first now) : P.world.remote = now ∧ P.locked = [pair] ∧
      ∃ done, order = done ++ [n] ∧ (∀ j, j ≠ n → (stage j).Outside) ∧
        Chain (Worked τ E context pair ops) done origin first := by
  have horderly := h.orderly
  generalize hlocked : P.locked = locked at horderly
  cases horderly with
  | free houtside hchain => exact absurd hn (houtside n first now)
  | @taken done i found hi hothers hchain =>
    by_cases hin : n = i
    · subst hin
      rw [hn] at hi
      cases hi
      exact ⟨rfl, rfl, done, rfl, hothers, hchain⟩
    · exact absurd hn (hothers n hin first now)

theorem begun_moved (h : Serial E context pair ops origin stage order P) {r : Stage}
    (hn : stage n ≠ .early) (hr : r ≠ .early) (i : Nat) : i ∈ order ↔ moved stage n r i ≠ .early := by
  rw [h.begun]
  by_cases hi : i = n
  · rw [hi, moved_self]
    exact iff_of_true hn hr
  · rw [moved_other hi]

theorem take (h : Serial E context pair ops origin stage order P) {q : Pair} {next : Unit → Thread}
    (hthread : P.threads[n]? = some (.ask (.chore (.acquire q)) next)) (hfree : q ∉ P.locked) :
    Serial E context pair ops origin (moved stage n (.inside P.world.remote P.world.remote))
      (order ++ [n]) ⟨P.world, P.threads.set n (next ()), q :: P.locked⟩ := by
  obtain ⟨rfl, hearly⟩ : q = pair ∧ stage n = .early := h.threads.may hthread
  have horderly := h.orderly
  generalize P.locked = locked at horderly hfree
  cases horderly with
  | taken =>
    -- while somebody else is at it the lock is not free
    exact absurd (List.mem_singleton.mpr rfl) hfree
  | free houtside hchain =>
    have hremote : P.world.remote.Ready E := hchain.ready h.ready
    refine ⟨h.bound, h.ready, h.threads.set hthread ⟨_, hremote, rfl⟩, fun i => ?_, ?_, ?_⟩
    · rw [List.mem_append, List.mem_singleton, h.begun]
      by_cases hi : i = n
      · rw [hi, moved_self]
        exact iff_of_true (.inr rfl) nofun
      · rw [moved_other hi, or_iff_left hi]
    · refine List.nodup_append.mpr ⟨h.nodup, List.nodup_cons.mpr ⟨nofun, .nil⟩, ?_⟩
      rintro i hi _ hn rfl
      exact (h.begun i).mp hi (List.mem_singleton.mp hn ▸ hearly)
    · exact .taken (moved_self ..) (fun j hj => by rw [moved_other hj]; exact houtside j) hchain

theorem give (h : Serial E context pair ops origin stage order P) {q : Pair} {next : Unit → Thread}
    (hthread : P.threads[n]? = some (.ask (.chore (.release q)) next)) :
    Serial E context pair ops origin (moved stage n .late) order
      ⟨P.world, P.threads.set n (next ()), P.locked.erase q⟩ := by
  obtain ⟨rfl, first, now, hn, hworked⟩ :
    q = pair ∧ ∃ s t, stage n = .inside s t ∧ Worked τ E context pair ops n s t := h.threads.may hthread
  obtain ⟨rfl, hlocked, done, rfl, hothers, hchain⟩ := h.at_work hn
  have houtside : ∀ j, (moved stage n .late j).Outside := by
    intro j
    by_cases hj : j = n
    · rw [hj, moved_self]
      exact Stage.outside_late
    · rw [moved_other hj]
      exact hothers j hj
  have hunlocked : P.locked.erase q = [] := by rw [hlocked, List.erase_cons_head]
  have horderly : Orderly (Worked τ E context q ops) q origin (moved stage n .late) P.world.remote
      (P.locked.erase q) (done ++ [n]) := hunlocked ▸ .free houtside (hchain.snoc hworked)
  exact ⟨h.bound, h.ready, h.threads.set hthread rfl, h.begun_moved (hn ▸ nofun) nofun, h.nodup,
    horderly⟩

theorem still (h : Serial E context pair ops origin stage order P) {q : Request Call}
    {next : q.Reply → Thread} {reply : q.Reply} {v : World Site τ}
    (hthread : P.threads[n]? = some (.ask q next)) (hremote : v.remote = P.world.remote)
    (hcontext : v.log.context = P.world.log.context)
    (hgives : (turns context pair (Site.Ready E) (Worked τ E context pair ops n)).gives q (stage n)
      reply (stage n)) :
    Serial E context pair ops origin stage order ⟨v, P.threads.set n (next reply), P.locked⟩ := by
  exact ⟨hcontext.trans h.bound, h.ready, h.threads.stay hthread hgives, h.begun, h.nodup,
    hremote ▸ h.orderly⟩

/-- A call of whoever has the lock is answered as where it is alone; no other call changes the site. -/
theorem call (h : Serial E context pair ops origin stage order P) {c : Call}
    {next : Request.Reply (.call c) → Thread} (hthread : P.threads[n]? = some (.ask (.call c) next)) :
    ∃ stage', Serial E context pair ops origin stage' order
      ⟨(P.world.call c).2, P.threads.set n (next (P.world.call c).1), P.locked⟩ := by
  have hmay := h.threads.may hthread
  obtain ⟨hreply, hremote, hcontext⟩ := call_reply c P.world
  rw [h.bound] at hreply
  cases hn : stage n with
  | inside first now =>
    obtain ⟨rfl, hlocked, done, rfl, hothers, hchain⟩ := h.at_work hn
    refine ⟨moved stage n (.inside first (P.world.remote.after c)), hcontext.trans h.bound, h.ready,
      h.threads.set hthread ?_, h.begun_moved (hn ▸ nofun) nofun, h.nodup, ?_⟩
    · show (turns context pair (Site.Ready E) _).gives _ (stage n) _ _
      rw [hn]
      exact ⟨hreply, rfl⟩
    · show Orderly _ _ _ _ (P.world.call c).2.remote P.locked _
      rw [hremote, hlocked]
      refine .taken (moved_self ..) (fun j hj => ?_) hchain
      rw [moved_other hj]
      exact hothers j hj
  | early | late =>
    -- without the lock only such calls are made as change no site
    have hsame : ∀ s : Site, s.after c = s := by
      refine Or.resolve_left hmay ?_
      rintro ⟨s, t, hs⟩
      rw [hn] at hs
      cases hs
    refine ⟨stage, h.still hthread (hremote.trans (hsame _)) hcontext ?_⟩
    rw [hn]
    rfl

theorem answered (h : Serial E context pair ops origin stage order P) {q : Request Call}
    {next : q.Reply → Thread} (hthread : P.threads[n]? = some (.ask q next)) (hq : Lockless q) :
    ∃ stage', Serial E context pair ops origin stage' order ⟨(World.answer q P.world).2,
      P.threads.set n (next (World.answer q P.world).1), P.locked⟩ := by
  cases q with
  | call c => exact h.call hthread
  | chore q =>
    obtain ⟨hallows, hremote, hcontext⟩ := chore_allows q P.world
    rw [h.bound] at hallows
    refine ⟨stage, h.still hthread hremote hcontext ?_⟩
    cases q with
    | acquire | release => exact hq.elim
    | report | find | keep | forget => exact ⟨hallows, rfl⟩

theorem go (h : Serial E context pair ops origin stage order P) (n : Nat) :
    ∃ stage', Serial E context pair ops origin stage'
      (order ++ (P.taker? (.go n .carriedOut)).toList) (P.go n .carriedOut) := by
  have hgoes := P.goes n
  generalize P.go n .carriedOut = P', P.taker? (.go n .carriedOut) = who at hgoes ⊢
  cases hgoes with
  | stays => exact ⟨stage, (List.append_nil order).symm ▸ h⟩
  | takes hthread hfree => exact ⟨_, h.take hthread hfree⟩
  | gives hthread => exact ⟨_, (List.append_nil order).symm ▸ h.give hthread⟩
  | answered hthread hq => exact (List.append_nil order).symm ▸ h.answered hthread hq

theorem step (h : Serial E context pair ops origin stage order P) {m : Move τ} (hm : m.Smooth) :
    ∃ stage', Serial E context pair ops origin stage' (order ++ (P.taker? m).toList)
      (Pool.step E m P) := by
  cases m with
  | start errand => exact hm.elim
  | wait d =>
    refine ⟨stage, ?_⟩
    show Serial E context pair ops origin stage (order ++ []) _
    rw [List.append_nil]
    exact ⟨h.bound, h.ready, h.threads, h.begun, h.nodup, h.orderly⟩
  | go n fate =>
    cases fate with
    | carriedOut => exact h.go n
    | refused f | cutOff f => exact hm.elim

theorem run (h : Serial E context pair ops origin stage order P) {moves : List (Move τ)}
    (hsmooth : ∀ m ∈ moves, m.Smooth) : ∃ stage', Serial E context pair ops origin stage'
      (order ++ Pool.order E moves P) (Pool.run E moves P) := by
  induction moves generalizing stage order P with
  | nil => exact ⟨stage, (List.append_nil order).symm ▸ h⟩
  | cons m rest ih =>
    obtain ⟨stage', hstep⟩ := h.step (hsmooth m List.mem_cons_self)
    rw [Pool.order, ← List.append_assoc]
    exact ih hstep fun m' hm' => hsmooth m' (List.mem_cons_of_mem m hm')

end Serial

theorem serial_gather {w : World Site τ} (hs : w.remote.Ready E) (hq : w.log.context.Quiet)
    (hp : E.resolver.resolve pair.entity = .ok path)
    (hops : ∀ o ∈ ops, o.WorksOn pair ∨ ¬ o.IsWrite) :
    Serial E w.log.context pair ops w.remote (fun _ => .early) [] (Pool.gather E w ops) where
  bound := rfl
  ready := hs
  threads := Pool.led_gather fun i o ho => by
    rcases hops o (List.mem_of_getElem? ho) with hworks | hlooks
    · refine Dialogue.Leads.mono (leads_in_turn w hq hworks hp fun _ _ h => ⟨o, ho, hworks, h⟩) ?_
      rintro x _ ⟨rfl, rfl⟩
      exact ⟨Stage.outside_late, fun _ _ _ => ⟨rfl, rfl⟩⟩
    · cases o with
      | enforce e p actions =>
        refine Dialogue.Leads.mono (leads_enforce E e p actions) ?_
        rintro x _ rfl
        refine ⟨Stage.outside_early, fun o' ho' hworks => ?_⟩
        obtain rfl := Option.some.inj (ho.symm.trans ho')
        cases hworks.1
      | _ => exact absurd trivial hlooks
  begun _ := ⟨nofun, fun h => absurd rfl h⟩
  nodup := .nil
  orderly := .free (fun _ => Stage.outside_early) rfl

/-! ### One after the other -/

/-- Runs operations one after the other; gives what each has ended in, and the world in the end. -/
def inTurn (E : Engine) : List Operation → World Site τ → List (Except Fault Unit) × World Site τ
  | [], w => ([], w)
  | o :: rest, w =>
    let (x, v) := World.run (E.perform o) w
    let (xs, u) := inTurn E rest v
    (x :: xs, u)

/-- The actions that a pair holds after an operation on it, given those that it has held before. -/
def Operation.leaves (held : Action → Prop) : Operation → Action → Prop
  | .grant _ _ actions => fun a => held a ∨ a ∈ actions
  | .revoke _ _ actions => fun a => held a ∧ a ∉ actions
  | _ => held

namespace Chain

theorem run_inTurn (h : Chain (Worked τ E context pair ops) order origin s) {w : World Site τ}
    (horigin : w.remote = origin) (hw : w.log.context = context) :
    (∀ x ∈ (inTurn E (order.filterMap fun i => ops[i]?) w).1, x = .ok ()) ∧
      (inTurn E (order.filterMap fun i => ops[i]?) w).2.remote = s := by
  induction order generalizing origin w with
  | nil =>
    obtain rfl : s = origin := h
    exact ⟨nofun, horigin⟩
  | cons i rest ih =>
    obtain ⟨t, ⟨o, ho, -, hdoes⟩, hrest⟩ := h
    obtain ⟨hok, hremote⟩ := hdoes.run w horigin hw
    obtain ⟨hoks, hend⟩ := ih hrest hremote ((context_run τ _ w).trans hw)
    rw [List.filterMap_cons_some ho, inTurn]
    refine ⟨fun x hx => ?_, hend⟩
    rcases List.mem_cons.mp hx with rfl | hx
    · exact hok
    · exact hoks x hx

theorem worked {i : Nat} (h : Chain (Worked τ E context pair ops) order origin s) (hi : i ∈ order) :
    ∃ o, ops[i]? = some o ∧ o.WorksOn pair := by
  induction order generalizing origin with
  | nil => cases hi
  | cons j rest ih =>
    obtain ⟨t, ⟨o, ho, hworks, -⟩, hrest⟩ := h
    rcases List.mem_cons.mp hi with rfl | hi
    · exact ⟨o, ho, hworks⟩
    · exact ih hrest hi

end Chain

/-- An operation on a pair that has its effect leaves the pair what it should. -/
theorem Operation.holds_iff {r r' : RoleStore} (hpair : o.pair? = some pair)
    (h : Effect E s o r r') (hp : E.resolver.resolve pair.entity = .ok path) (a : Action) :
    r'.Holds (ShadowRole.nameOn path pair.principal) path a ↔
      o.leaves (r.Holds (ShadowRole.nameOn path pair.principal) path) a := by
  cases o with
  | grant e p actions =>
    rw [Operation.pair?] at hpair
    split at hpair
    · cases hpair
    · rename_i hk
      obtain rfl := Option.some.inj hpair
      rcases h with ⟨rfl, rfl⟩ | ⟨-, path', hp', hgranted⟩
      · simp [Operation.leaves]
      · obtain rfl := Except.ok.inj (hp.symm.trans hp')
        have hholder : holder path p = ShadowRole.nameOn path p := if_neg hk
        rw [hgranted.holds, hholder, Operation.leaves]
        simp
  | revoke e p actions =>
    rw [Operation.pair?] at hpair
    split at hpair
    · cases hpair
    · rename_i hk
      obtain rfl := Option.some.inj hpair
      obtain ⟨path', hp', hrevoked⟩ := h
      obtain rfl := Except.ok.inj (hp.symm.trans hp')
      have hholder : holder path p = ShadowRole.nameOn path p := if_neg hk
      rw [hrevoked.holds, hholder, Operation.leaves]
      simp
  | _ => cases hpair

theorem Chain.holds_iff (h : Chain (Worked τ E context pair ops) order origin s)
    (hp : E.resolver.resolve pair.entity = .ok path) (a : Action) :
    s.store.Holds (ShadowRole.nameOn path pair.principal) path a ↔
      (order.filterMap fun i => ops[i]?).foldl Operation.leaves
        (origin.store.Holds (ShadowRole.nameOn path pair.principal) path) a := by
  induction order generalizing origin with
  | nil =>
    obtain rfl : s = origin := h
    exact .rfl
  | cons i rest ih =>
    obtain ⟨t, ⟨o, ho, hworks, hdoes⟩, hrest⟩ := h
    have hleaves : t.store.Holds (ShadowRole.nameOn path pair.principal) path =
        o.leaves (origin.store.Holds (ShadowRole.nameOn path pair.principal) path) :=
      funext fun a => propext (Operation.holds_iff hworks.1 hdoes.effect.roles hp a)
    rw [List.filterMap_cons_some ho, List.foldl_cons, ← hleaves]
    exact ih hrest

/-- When all have ended, those that work on the pair have had their turns, each once. -/
theorem Serial.ended (h : Serial E context pair ops origin stage order P) {mine : Nat → Pair → Prop}
    {held : Nat → Option Pair} (hheld : P.Held mine held) (hlength : P.threads.length = ops.length)
    (hall : ∀ i < ops.length, ∃ x, P.result? i = some x) :
    Chain (Worked τ E context pair ops) order origin P.world.remote ∧
      ∀ i, i ∈ order ↔ ∃ o, ops[i]? = some o ∧ o.WorksOn pair := by
  -- whoever had the lock would still be under way
  have hunlocked : P.locked = [] := by
    refine List.eq_nil_iff_forall_not_mem.mpr fun q hq => ?_
    obtain ⟨i, hi⟩ := (hheld.holders.mem q).mp hq
    obtain ⟨r, next, hthread⟩ := (hheld.goes_on hi).1
    obtain ⟨x, hx⟩ := hall i (hlength ▸ (List.getElem?_eq_some_iff.mp hthread).1)
    rw [Pool.result?_eq_some_iff.mp hx] at hthread
    cases hthread
  have hchain : Chain (Worked τ E context pair ops) order origin P.world.remote := by
    have horderly := h.orderly
    rw [hunlocked] at horderly
    cases horderly with
    | free houtside hchain => exact hchain
  refine ⟨hchain, fun i => ⟨hchain.worked, ?_⟩⟩
  rintro ⟨o, ho, hworks⟩
  obtain ⟨x, hx⟩ := hall i (List.getElem?_eq_some_iff.mp ho).1
  have hlate := ((h.threads.ended (Pool.result?_eq_some_iff.mp hx)).2 o ho hworks).2
  rw [h.begun, hlate]
  exact nofun

/-- Where every event can be recorded, grants and revocations on one pair of an entity and a user or
group are serializable. From any state that the engine has brought about, in any crew of them and of
enforcements, whatever the order of their steps and whenever a lock goes that nobody refers to: none of
them fails, and the crew can always be brought to its end. In the end the site is as after the same
operations one after the other, in the order in which they took the lock, and the pair holds what the
grants and revocations leave in this order. -/
theorem Crew.serializable {w₀ : World Site τ} (hs : Provided E w₀.remote)
    (hempty : w₀.remote.store = .empty) (hq : w₀.log.context.Quiet)
    (hp : E.resolver.resolve pair.entity = .ok path) (history : List (Engine.Move τ))
    (hops : ∀ o ∈ ops, o.WorksOn pair ∨ ¬ o.IsWrite) (schedule : List (Crew.Move τ)) :
    let w := (Pool.run E history (.idle w₀)).world
    let C := Crew.run schedule (.gather E w ops)
    (∀ i o x, ops[i]? = some o → o.WorksOn pair → C.result? i = some x → x = .ok ()) ∧
    (∃ more, ∀ i < ops.length, ∃ x, (Crew.run more C).result? i = some x) ∧
    ((∀ i < ops.length, ∃ x, C.result? i = some x) →
      C.order.Nodup ∧ (∀ i, i ∈ C.order ↔ ∃ o, ops[i]? = some o ∧ o.WorksOn pair) ∧
      let turns := C.order.filterMap fun i => ops[i]?
      (∀ x ∈ (inTurn E turns w).1, x = .ok ()) ∧ C.world.remote = (inTurn E turns w).2.remote ∧
      ∀ a, C.world.remote.store.Holds (ShadowRole.nameOn path pair.principal) path a ↔
        turns.foldl Operation.leaves
          (w.remote.store.Holds (ShadowRole.nameOn path pair.principal) path) a) := by
  intro w C
  have hready : w.remote.Ready E := ready_reached hs hempty history
  have hquiet : w.log.context.Quiet := (context_reached history (.idle w₀)).symm ▸ hq
  -- the crew stands where a pool does in which the operations take turns
  obtain ⟨moves, hsmooth, hworld, hrests, horder, -⟩ := Crew.refines E w ops schedule
  obtain ⟨stage, hserial⟩ := (serial_gather hready hquiet hp hops).run (E := E) hsmooth
  obtain ⟨held, hheld⟩ := (Pool.held_gather E w fun _ _ _ _ _ => trivial).run (E := E) hsmooth
  have hresult : ∀ i, C.result? i = (Pool.run E moves (.gather E w ops)).result? i :=
    Crew.result?_of_rests hrests
  have hlength : (Pool.run E moves (.gather E w ops)).threads.length = ops.length :=
    (Pool.length_run hsmooth _).trans (List.length_map _)
  refine ⟨fun i o x ho hworks hx => ?_, ?_, fun hall => ?_⟩
  · rw [hresult] at hx
    exact ((hserial.threads.ended (Pool.result?_eq_some_iff.mp hx)).2 o ho hworks).1
  · obtain ⟨_, _, -, hstands, -⟩ := (Crew.stands_gather E w ops).run (E := E) schedule
    obtain ⟨more, hmore⟩ := hstands.finishes E
    refine ⟨more, fun i hi => hmore i ?_⟩
    rw [← hlength, ← hrests, List.length_map] at hi
    exact hi
  · obtain ⟨hchain, hturns⟩ := hserial.ended hheld hlength fun i hi => hresult i ▸ hall i hi
    rw [List.nil_append, ← horder, ← hworld] at hchain
    obtain ⟨hoks, hremote⟩ := hchain.run_inTurn rfl rfl
    refine ⟨?_, fun i => ?_, hoks, hremote.symm, hchain.holds_iff hp⟩
    · rw [horder]
      exact hserial.nodup
    · rw [horder]
      exact hturns i

namespace Sample

/-- Ada has been granted to write in the namespace. -/
def before : List (Move Nat) :=
  .start (.perform (.grant research ada [.write])) :: List.replicate 20 (.go 0 .carriedOut)

/-- This is revoked while she asks to read and is granted to, and then she is granted to execute. -/
def crowd : List Operation :=
  [.revoke research ada [.write], .enforce research ada [.read], .grant research ada [.read],
    .grant research ada [.execute]]

/-- The first three go on in turns; the lock of the pair goes before the last one begins. -/
def rounds : List (Crew.Move Nat) :=
  (List.replicate 25 [.go 0, .go 1, .wait 1, .go 2]).flatten ++
    .reclaim ⟨research, ada⟩ :: List.replicate 25 (.go 3)

def shared : Crew Nat :=
  Crew.run rounds (.gather engine (Pool.run engine before (.idle start)).world crowd)

/-- The revocation, which leaves nothing, does not take away what is granted beside it. -/
theorem shared_in_turn : shared.made = 2 ∧ shared.order = [0, 2, 3] ∧
    (∀ i ∈ [0, 2, 3], shared.result? i = some (.ok ())) ∧
    shared.world.remote = (inTurn engine [.revoke research ada [.write], .grant research ada [.read],
      .grant research ada [.execute]] (Pool.run engine before (.idle start)).world).2.remote ∧
    ∀ a ∈ [Action.read, .execute], shared.world.remote.store.Holds
      (ShadowRole.nameOn research.path ada) research.path a := by
  have hended : ∀ i < crowd.length, ∃ x, shared.result? i = some x := by
    have hsome : ∀ i < crowd.length, (shared.result? i).isSome = true := by decide +kernel
    exact fun i hi => Option.isSome_iff_exists.mp (hsome i hi)
  have horder : shared.order = [0, 2, 3] := by decide +kernel
  have hp : engine.resolver.resolve research = .ok research.path :=
    toOption_eq_some_iff.mp (by decide +kernel)
  have hops : ∀ o ∈ crowd, o.WorksOn ⟨research, ada⟩ ∨ ¬ o.IsWrite := by
    intro o ho
    simp only [crowd, List.mem_cons, List.not_mem_nil, or_false] at ho
    rcases ho with rfl | rfl | rfl | rfl
    · exact .inl ⟨rfl, nofun⟩
    · exact .inr id
    · exact .inl ⟨rfl, by simp⟩
    · exact .inl ⟨rfl, by simp⟩
  have hs : Provided engine start.remote := ⟨rfl, nofun, fun _ path h => ⟨path, h⟩⟩
  have hmade : shared.made = 2 := by decide +kernel
  rw [shared] at hended horder hmade ⊢
  obtain ⟨hok, -, hturns⟩ := Crew.serializable hs rfl Audit.Context.quiet_empty hp before hops rounds
  obtain ⟨-, hmine, -, hremote, hholds⟩ := hturns hended
  refine ⟨hmade, horder, fun i hi => ?_, ?_, fun a ha => ?_⟩
  · rw [← horder] at hi
    obtain ⟨o, ho, hworks⟩ := (hmine i).mp hi
    obtain ⟨x, hx⟩ := hended i (List.getElem?_eq_some_iff.mp ho).1
    rw [hx, hok i o x ho hworks hx]
  · rw [horder] at hremote
    exact hremote
  · rw [hholds, horder]
    simp only [List.mem_cons, List.not_mem_nil, or_false] at ha
    rcases ha with rfl | rfl
    · exact .inl (.inr List.mem_cons_self)
    · exact .inr List.mem_cons_self

end Sample

end Warrant.Engine
