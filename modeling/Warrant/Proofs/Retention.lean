import Mathlib
import Warrant.Proofs.Desks

/-!
# What a cache in use serves and loses

Whatever happens at a desk, the cache accords with the notes of the moves (`Desk.Stands.run`). So a
look-up answered at once is answered by the last load, and nothing that would drop the answer has
happened since (`Desk.hit_is_last_store`); and nothing is lost but by expiry, by dropping and by making
room for a newer decision (`Desk.lost_by_rule`). Desks that differ in expired decisions, in events and in
their older notes only go on alike (`Desk.Alike.run`), and accounts of the cache change nothing
(`Desk.Alike.run_acts`).
-/

namespace Warrant.Cache

variable {τ : Type}

/-! ### What holds at every desk -/

/-- Every store in the past has made room by the rules. -/
def Fair [Add τ] [LinearOrder τ] (limits : Limits τ) : List (Note τ) → Prop
  | [] => True
  | .stored k _ evicted time :: older => Evicts limits time older k evicted ∧ Fair limits older
  | .looked .. :: older | .dropped _ :: older => Fair limits older

theorem Fair.evicts [Add τ] [LinearOrder τ] {limits : Limits τ} {k : Key} {b : Bool}
    {evicted : List Key} {t : τ} {newer older : List (Note τ)}
    (h : Fair limits (newer ++ .stored k b evicted t :: older)) :
    Evicts limits t older k evicted := by
  induction newer with
  | nil => exact h.1
  | cons n newer ih =>
    cases n with
    | stored => exact ih h.2
    | looked | dropped => exact ih h

namespace Desk

variable [AddCommGroup τ] [LinearOrder τ] {d e : Desk τ} {k : Key} {limits : Limits τ}
  {context : Audit.Context}

/-- There is room for a decision, which counts for a while; the cache accords with the notes, by which
room was made as the rules say; and every look-up has ended or waits for its load. -/
structure Stands (limits : Limits τ) (context : Audit.Context) (d : Desk τ) : Prop where
  same_limits : d.world.limits = limits
  same_context : d.world.log.context = context
  room : 0 < limits.maxEntries
  lasting : 0 < limits.lifetime
  accords : Accords limits d.world.clock d.world.cache d.past
  fair : Fair limits d.past
  staged : d.Staged

theorem stands_opened (hroom : 0 < limits.maxEntries) (hlast : 0 < limits.lifetime) (clock : τ)
    (context : Audit.Context) : Stands limits context (opened limits clock context) :=
  ⟨rfl, rfl, hroom, hlast, accords_empty limits clock, trivial, staged_opened limits clock context⟩

namespace Stands

theorem enabled (h : d.Stands limits context) : d.world.limits.enabled = true := by
  rw [h.same_limits]
  exact decide_eq_true h.room

/-- A move that passes no time is judged by the cache and the notes that it leaves. -/
theorem of_act (h : d.Stands limits context) {m : Move τ} {cache : Cache τ} {log : Audit.Log}
    {visits : List (Visit (Except Fault (Option Bool)))} {notes : List (Note τ)}
    (hact : d.act m = ({ d.world with cache, log }, visits)) (hlog : log.context = d.world.log.context)
    (hnotes : d.note { d.world with cache, log } m = notes)
    (haccords : Accords limits d.world.clock cache (notes ++ d.past))
    (hfair : Fair limits (notes ++ d.past)) : (d.step m).Stands limits context := by
  have hstaged := h.staged.step m
  subst hnotes
  rw [step, hact] at hstaged ⊢
  exact ⟨h.same_limits, hlog.trans h.same_context, h.room, h.lasting, haccords, hfair, hstaged⟩

variable [IsOrderedAddMonoid τ]

theorem loaded (h : d.Stands limits context) (n : Nat) (reply : Except Fault Bool) :
    (d.step (.loaded n reply)).Stands limits context := by
  obtain rfl := h.same_limits
  rcases h.staged.awaited_cases n with hidle | ⟨k, hk, hn⟩
  · have hnotes : d.note d.world (.loaded n reply) = [] := by
      cases reply with
      | ok b => rw [note, hidle]
      | error f => rfl
    exact h.of_act (act_idle hidle reply) rfl hnotes h.accords h.fair
  · rw [h.enabled] at hn
    have hact := act_loaded hn reply
    cases reply with
    | error f =>
      rw [show (Except.error f : Except Fault Bool).map some = .error f from rfl, settle_error] at hact
      exact h.of_act hact (d.world.log.context_record _) rfl h.accords h.fair
    | ok b =>
      obtain ⟨r, log, hlog, hrun⟩ := settle_ok k b d.world
      rw [show (Except.ok b : Except Fault Bool).map some = .ok (some b) from rfl, hrun] at hact
      have hlasting := lt_add_of_pos_right d.world.clock h.lasting
      have hlost := h.accords.lost_keep h.room hlasting k b
      obtain ⟨hevicted, haccords⟩ := h.accords.keep h.room hlasting k b
      rw [hevicted, ← hlost] at haccords
      have hevicts := evicts_displaced h.room d.world.clock d.past k
      rw [← hlost] at hevicts
      exact h.of_act hact hlog (note_stored hk _ b) haccords ⟨hevicts, h.fair⟩

theorem step (h : d.Stands limits context) (m : Move τ) : (d.step m).Stands limits context := by
  cases m with
  | get k =>
    obtain ⟨-, log, hlog, hworld⟩ := get_stops d k
    rw [h.enabled, if_pos rfl] at hworld
    have haccords := h.accords.find k
    rw [found_eq_counted] at haccords
    exact h.of_act (Prod.ext hworld rfl) hlog rfl haccords h.fair
  | loaded n reply => exact h.loaded n reply
  | drop scope =>
    obtain ⟨log, hlog, hworld⟩ := removing_eq scope d.world
    exact h.of_act (Prod.ext hworld rfl) hlog rfl (h.accords.forget scope) h.fair
  | snapshot | count => exact h.of_act rfl rfl rfl h.accords.prune h.fair
  | wait t forward =>
    exact ⟨h.same_limits, h.same_context, h.room, h.lasting,
      h.accords.wait (le_add_of_nonneg_right forward), h.fair, h.staged.step _⟩

theorem run (h : d.Stands limits context) (moves : List (Move τ)) :
    (d.run moves).Stands limits context := by
  induction moves generalizing d with
  | nil => exact h
  | cons m moves ih => exact ih (h.step m)

end Stands

/-! ### Notes and moves -/

/-- What overrides a decision is noted, and ends it. -/
theorem ends_of_overrides {m : Move τ} (h : d.Overrides k m) (w : World Unit τ) :
    ∃ x, d.note w m = [x] ∧ x.ends k = true := by
  rcases h with ⟨n, b, rfl, hn⟩ | ⟨scope, rfl, hscope⟩
  · exact ⟨_, note_stored hn w b, by simp [Note.ends]⟩
  · exact ⟨.dropped scope, rfl, Scope.covers_iff.mpr hscope⟩

theorem note_cases (d : Desk τ) (w : World Unit τ) (m : Move τ) :
    d.note w m = [] ∨ ∃ x, d.note w m = [x] := by
  cases m with
  | get | drop => exact .inr ⟨_, rfl⟩
  | snapshot | count | wait => exact .inl rfl
  | loaded n reply =>
    cases reply with
    | error f => exact .inl rfl
    | ok b =>
      rw [note]
      split
      · exact .inr ⟨_, rfl⟩
      · exact .inl rfl

/-- A store is noted of a load that has answered. -/
theorem loaded_of_note {m : Move τ} {w : World Unit τ} {b : Bool} {evicted : List Key} {t : τ}
    (h : d.note w m = [.stored k b evicted t]) :
    t = d.world.clock ∧ ∃ n, m = .loaded n (.ok b) ∧ d.awaited n = some k := by
  cases m with
  | get | drop | snapshot | count | wait => cases h
  | loaded n reply =>
    cases reply with
    | error f => cases h
    | ok c =>
      rw [note] at h
      split at h
      · rename_i j hn
        cases h
        exact ⟨rfl, n, rfl, hn⟩
      · cases h

/-- A store on record that nothing has ended since is that of the last load. -/
theorem lastLoad_of_stored {newer older : List (Note τ)} {b : Bool} {evicted : List Key} {t : τ}
    (hd : d.past = []) (moves : List (Move τ))
    (hpast : (d.run moves).past = newer ++ .stored k b evicted t :: older)
    (hnewer : ∀ x ∈ newer, x.ends k = false) : d.LastLoad moves k b t := by
  induction moves using List.reverseRecOn generalizing newer with
  | nil =>
    rw [show (d.run []).past = [] from hd] at hpast
    cases newer <;> cases hpast
  | append_singleton moves m ih =>
    rw [run_concat] at hpast
    set w := ((d.run moves).act m).1
    replace hpast : (d.run moves).note w m ++ (d.run moves).past =
      newer ++ .stored k b evicted t :: older := hpast
    rcases note_cases (d.run moves) w m with hnone | ⟨x, hx⟩
    · rw [hnone] at hpast
      refine (ih hpast hnewer).concat fun hm => ?_
      obtain ⟨x, hx, -⟩ := ends_of_overrides hm w
      rw [hnone] at hx
      cases hx
    · rw [hx] at hpast
      -- the note is that of the load itself, or a newer one, which ends nothing
      cases newer with
      | nil =>
        obtain ⟨rfl, -⟩ := List.cons.inj hpast
        obtain ⟨rfl, n, rfl, hn⟩ := loaded_of_note hx
        exact lastLoad_loaded hn b
      | cons y newer =>
        obtain ⟨rfl, hrest⟩ := List.cons.inj hpast
        refine (ih hrest fun y hy => hnewer y (.tail _ hy)).concat fun hm => ?_
        obtain ⟨y, hy, hends⟩ := ends_of_overrides hm w
        obtain rfl : x = y := List.singleton_inj.mp (hx.symm.trans hy)
        rw [hnewer x (.head _)] at hends
        cases hends

variable [IsOrderedAddMonoid τ] in
/-- A look-up that is answered without a load is answered as the last load on its key was, less than a
lifetime ago; since then no load on the key has answered and nothing has been dropped that means the
key. -/
theorem hit_is_last_store (hroom : 0 < limits.maxEntries) (hlast : 0 < limits.lifetime) (clock : τ)
    (context : Audit.Context) (moves : List (Move τ)) {r : Option Bool}
    (h : (((opened limits clock context).run moves).get k).1 = .done (.ok r)) :
    ∃ b t, r = some b ∧ (opened limits clock context).LastLoad moves k b t ∧
      ((opened limits clock context).run moves).world.clock < t + limits.lifetime := by
  have hs := (stands_opened hroom hlast clock context).run moves
  have hroom' : 0 < ((opened limits clock context).run moves).world.limits.maxEntries := by
    rwa [hs.same_limits]
  cases hfound : (((opened limits clock context).run moves).world.cache.find
      ((opened limits clock context).run moves).world.clock k).1 with
  | none =>
    rw [get_missing hroom' hfound] at h
    cases hreply : ((opened limits clock context).run moves).world.log.context.reply (.cacheMiss k) <;>
      rw [hreply] at h <;> cases h
  | some b =>
    rw [get_found hroom' hfound] at h
    have hr : r = some b := by
      cases hreply : ((opened limits clock context).run moves).world.log.context.reply (.cacheHit k b) <;>
        rw [hreply] at h <;> cases h
      rfl
    rw [hs.accords.found_eq, served_eq_some_iff] at hfound
    obtain ⟨t, hkept, ht⟩ := hfound
    obtain ⟨newer, evicted, older, hpast, hnewer⟩ := kept_eq_some_iff.mp hkept
    exact ⟨b, t, hr, lastLoad_of_stored rfl moves hpast hnewer, ht⟩

namespace Sample

open Engine.Sample

/-- Ada may read the root, or write to it. -/
def reading : Key := ⟨ada, root, .read⟩

def writing : Key := ⟨ada, root, .write⟩

/-- One decision is kept for sixty ticks. -/
def single : Limits Int := ⟨1, 60⟩

/-- Two look-ups of one key load at the same time; the first one to begin is the last one to end. In
between what was stored is dropped, and in the end what was never stored. -/
def crossing : List (Move Int) :=
  [.get reading, .get reading, .loaded 1 (.ok true), .drop (.entity root), .wait 20 (by decide),
    .get reading, .loaded 0 (.ok false), .drop (.key writing), .wait 59 (by decide)]

theorem last_load_counts :
    (((opened single 0 .empty).run crossing).get reading).1 = .done (.ok (some false)) ∧
    (∃ t, (opened single 0 .empty).LastLoad crossing reading false t ∧
      ((opened single 0 .empty).run crossing).world.clock < t + 60) ∧
    ∀ scope ∈ [.key reading, .entity root, .subtree root, .everything],
      ∃ next, (((opened single 0 .empty).run (crossing ++ [.drop scope])).get reading).1 =
        .ask (.call (.load reading)) next := by
  have hanswer : (((opened single 0 .empty).run crossing).get reading).1 = .done (.ok (some false)) :=
    rfl
  obtain ⟨b, t, hb, hload, ht⟩ :=
    hit_is_last_store (by decide) (by decide) 0 .empty crossing hanswer
  obtain rfl : false = b := Option.some.inj hb
  refine ⟨hanswer, ⟨t, hload, ht⟩, fun scope h => ?_⟩
  fin_cases h <;> exact ⟨_, rfl⟩

end Sample

/-! ### Desks that go on alike -/

/-- What asks for no number of dropped decisions is answered alike where only expired decisions and
events differ. -/
theorem level_runToWait [IsOrderedAddMonoid τ] {β : Type} {w v : World Unit τ} (h : World.Level w v)
    (hlast : 0 < w.limits.lifetime) {x : Visit β} (hx : x.Asks Uncounted) :
    (World.runToWait x v).1 = (World.runToWait x w).1 ∧
      World.Level (World.runToWait x w).2 (World.runToWait x v).2 := by
  induction x generalizing w v with
  | done r => exact ⟨rfl, h⟩
  | ask q next ih =>
    cases q with
    | call c => exact ⟨rfl, h⟩
    | chore q =>
      rw [World.runToWait]
      split
      · exact ⟨rfl, h⟩
      · obtain ⟨hreply, hrest⟩ := h.chore hlast fun scope hq => hx.1 scope (congrArg Request.chore hq)
        have hlast' : 0 < (World.chore q w).2.limits.lifetime := by
          rwa [(World.chore_beside q w).limits]
        show (World.runToWait (next (World.chore q v).1) (World.chore q v).2).1 =
            (World.runToWait (next (World.chore q w).1) (World.chore q w).2).1 ∧
          World.Level (World.runToWait (next (World.chore q w).1) (World.chore q w).2).2
            (World.runToWait (next (World.chore q v).1) (World.chore q v).2).2
        rw [hreply]
        exact ih _ hrest hlast' (hx.2 _)

/-- Two desks with the same look-ups that differ in events, in expired decisions and in what was noted
long ago. -/
structure Alike (older older' : List (Note τ)) (d e : Desk τ) : Prop where
  world : World.Level d.world e.world
  lasting : 0 < d.world.limits.lifetime
  past : ∃ newer, d.past = newer ++ older ∧ e.past = newer ++ older'
  visits : e.visits = d.visits
  staged : d.Staged

namespace Alike

variable {older older' : List (Note τ)}

theorem refl (hlast : 0 < d.world.limits.lifetime) (hstaged : d.Staged) :
    Alike d.past d.past d d :=
  ⟨.refl d.world, hlast, ⟨[], rfl, rfl⟩, rfl, hstaged⟩

/-- An account of the cache makes no difference. -/
theorem survey (h : Alike older older' d e) {m : Move τ} (hm : m.acts = false) :
    Alike older older' (d.step m) e := by
  cases m with
  | snapshot | count => exact ⟨h.world.prune, h.lasting, h.past, h.visits, h.staged⟩
  | _ => cases hm

theorem awaited (h : Alike older older' d e) (n : Nat) : e.awaited n = d.awaited n := by
  rw [Desk.awaited, Desk.awaited, h.visits]

variable [IsOrderedAddMonoid τ]

/-- A move leads to the same look-ups and to worlds that still differ in no more. -/
theorem act (h : Alike older older' d e) (m : Move τ) : (e.act m).2 = (d.act m).2 ∧
    World.Level (d.act m).1 (e.act m).1 ∧ 0 < (d.act m).1.limits.lifetime := by
  cases m with
  | get k =>
    obtain ⟨hvisit, hworld⟩ :=
      level_runToWait h.world h.lasting (asks_consult d.world.limits.enabled k)
    obtain ⟨-, log, -, hget⟩ := get_stops d k
    refine ⟨?_, ?_, ?_⟩
    · show e.visits ++ [(e.get k).1] = d.visits ++ [(d.get k).1]
      rw [h.visits, get, get, h.world.limits, hvisit]
    · show World.Level (d.get k).2 (e.get k).2
      rwa [get, get, h.world.limits]
    · show 0 < (d.get k).2.limits.lifetime
      rw [hget]
      exact h.lasting
  | loaded n reply =>
    rcases h.staged.awaited_cases n with hidle | ⟨k, -, hn⟩
    · rw [act_idle hidle, act_idle ((h.awaited n).trans hidle)]
      exact ⟨h.visits, h.world, h.lasting⟩
    · obtain ⟨hvisit, hworld⟩ := level_runToWait h.world h.lasting
        (asks_settle d.world.limits.enabled k (reply.map some))
      obtain ⟨r, cache, log, hsettle⟩ := settle_ends d.world.limits.enabled k reply d.world
      rw [act_loaded hn, act_loaded (h.visits.symm ▸ hn)]
      refine ⟨?_, hworld, ?_⟩
      · rw [h.visits, hvisit]
      · rw [hsettle]
        exact h.lasting
  | drop scope =>
    obtain ⟨log, hlog, hd⟩ := removing_eq scope d.world
    obtain ⟨log', hlog', he⟩ := removing_eq scope e.world
    have hworld := h.world.forget scope
    rw [Desk.act, Desk.act, hd, he]
    refine ⟨h.visits, ⟨⟨hworld.remote, hworld.limits, hworld.clock, ?_⟩, hworld.cache⟩, h.lasting⟩
    exact hlog'.trans (h.world.context.trans hlog.symm)
  | snapshot | count => exact ⟨h.visits, h.world.prune.symm.prune.symm, h.lasting⟩
  | wait t forward => exact ⟨h.visits, h.world.wait forward, h.lasting⟩

theorem step (h : Alike older older' d e) (m : Move τ) : Alike older older' (d.step m) (e.step m) := by
  obtain ⟨hvisits, hworld, hlast⟩ := h.act m
  obtain ⟨newer, hd, he⟩ := h.past
  have hnote : e.note (e.act m).1 m = d.note (d.act m).1 m := by
    cases m with
    | get k => rw [note, note, h.world.clock, counted_congr h.world.cache]
    | drop | snapshot | count | wait => rfl
    | loaded n reply =>
      cases reply with
      | error f => rfl
      | ok b =>
        obtain ⟨cache, log, visits, hact, -⟩ := h.staged.act_loaded_eq n (.ok b)
        have hcache := hworld.cache
        rw [show (d.act (.loaded n (.ok b))).1.clock = d.world.clock by rw [hact]] at hcache
        rw [note, note, h.awaited n, h.world.clock, lost_congr h.world.cache hcache]
  refine ⟨hworld, hlast, ⟨d.note (d.act m).1 m ++ newer, ?_, ?_⟩, hvisits, h.staged.step m⟩
  · show d.note (d.act m).1 m ++ d.past = _
    rw [hd, List.append_assoc]
  · show e.note (e.act m).1 m ++ e.past = _
    rw [hnote, he, List.append_assoc]

theorem run (h : Alike older older' d e) (moves : List (Move τ)) :
    Alike older older' (d.run moves) (e.run moves) := by
  induction moves generalizing d e with
  | nil => exact h
  | cons m moves ih => exact ih (h.step m)

/-- So do all accounts of the cache. -/
theorem run_acts (h : Alike older older' d e) (moves : List (Move τ)) :
    Alike older older' (d.run moves) (e.run (moves.filter Move.acts)) := by
  induction moves generalizing d e with
  | nil => exact h
  | cons m moves ih =>
    cases hm : m.acts with
    | true =>
      rw [List.filter_cons_of_pos hm]
      exact ih (h.step m)
    | false =>
      rw [List.filter_cons_of_neg (by simp [hm])]
      exact ih (h.survey hm)

end Alike

variable [IsOrderedAddMonoid τ] in
/-- Nothing is lost but by the rules. After a load has answered, and until its decision expires, a
look-up is answered with the decision at once, unless the decision was replaced, lost to a newer one or
dropped. A newer decision takes the place of what the rules say, and a run without its accounts of the
cache makes the same look-ups, loads and stores. -/
theorem lost_by_rule (hroom : 0 < limits.maxEntries) (hlast : 0 < limits.lifetime) (clock : τ)
    (context : Audit.Context) (moves : List (Move τ)) :
    let d := (opened limits clock context).run moves
    let e := (opened limits clock context).run (moves.filter Move.acts)
    (∀ newer k b evicted t older, d.past = newer ++ .stored k b evicted t :: older →
      (∀ n ∈ newer, n.ends k = false) → d.world.clock < t + limits.lifetime →
      (d.get k).1 = .done ((context.reply (.cacheHit k b)).map fun _ => some b)) ∧
    (∀ newer k b evicted t older, d.past = newer ++ .stored k b evicted t :: older →
      Evicts limits t older k evicted) ∧
    d.past = e.past ∧ d.visits = e.visits := by
  intro d e
  have hs := (stands_opened hroom hlast clock context).run moves
  have he : Alike [] [] d e :=
    (Alike.refl (d := opened limits clock context) hlast
      (staged_opened limits clock context)).run_acts moves
  obtain ⟨newer, hpast, hpast'⟩ := he.past
  refine ⟨fun newer k b evicted t older hp hn ht => ?_, fun newer k b evicted t older hp => ?_,
    hpast.trans hpast'.symm, he.visits.symm⟩
  · have hserved : served limits d.world.clock d.past k = some b :=
      served_eq_some_iff.mpr ⟨t, kept_eq_some_iff.mpr ⟨newer, evicted, older, hp, hn⟩, ht⟩
    rw [← hs.accords.found_eq] at hserved
    rw [get_found (by rwa [hs.same_limits]) hserved, hs.same_context]
  · have hfair := hs.fair
    rw [hp] at hfair
    exact hfair.evicts

namespace Sample

/-- There is room for one decision only, and two are loaded. -/
def crowding : List (Move Int) :=
  [.get reading, .loaded 0 (.ok true), .wait 7 (by decide), .snapshot, .get writing,
    .loaded 1 (.ok true)]

/-- The second decision takes the place of the first one, and is served as long as it counts. -/
theorem newer_evicts_older :
    ((opened single 0 .empty).run crowding).past =
      [.stored writing true [reading] 7, .looked writing none 7, .stored reading true [] 0,
        .looked reading none 0] ∧
    Evicts single 7 [.looked writing none 7, .stored reading true [] 0, .looked reading none 0]
      writing [reading] ∧
    (((opened single 0 .empty).run (crowding ++ [.wait 59 (by decide)])).get writing).1 =
      .done (.ok (some true)) := by
  have hpast : ((opened single 0 .empty).run crowding).past =
      [.stored writing true [reading] 7, .looked writing none 7, .stored reading true [] 0,
        .looked reading none 0] := by decide +kernel
  have hroom : 0 < single.maxEntries := by decide
  have hlast : 0 < single.lifetime := by decide
  obtain ⟨-, hevicts, -⟩ := lost_by_rule hroom hlast 0 .empty crowding
  obtain ⟨hserved, -⟩ :=
    lost_by_rule hroom hlast 0 .empty (crowding ++ [.wait 59 (by decide)])
  exact ⟨hpast, hevicts [] writing true [reading] 7 _ hpast,
    hserved [] writing true [reading] 7 _ hpast nofun (by decide +kernel)⟩

end Sample

end Desk

end Warrant.Cache
