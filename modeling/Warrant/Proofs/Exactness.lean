import Warrant.Engine.Configuration
import Warrant.Proofs.Passages
import Warrant.Proofs.Rulings

/-!
# Enforcements decide exactly

An enforcement that runs alone, against a backend that may answer anything and while time goes on. It
looks every requested action up once, in alphabetical order, and goes on after a denial; only a failing
call of the backend ends it. Which decisions are served and which are loaded, and what becomes of the
cache, is said look-up by look-up (`Course`), and the enforcement ends as the decisions that were made
have it (`enforce_exact`).
-/

namespace Warrant

theorem Action.sorted_distinct (actions : List Action) :
    (Action.distinct actions).Pairwise fun a b => a.label < b.label :=
  (show Action.alphabet.Pairwise fun a b => a.label < b.label by decide).sublist List.filter_sublist

namespace Engine

open Procedure

/-- Decisions are cached unless the cache has no room. -/
theorem caches_of_configure? {c : Configuration} {E : Engine} {limits : Cache.Limits Float}
    (h : configure? c = .ok (E, limits)) : E.caches = decide (0 < c.cacheMaxEntries) := by
  obtain ⟨found, hfound, h⟩ := bind_eq_ok_iff.mp h
  obtain ⟨rfl, -⟩ := Prod.mk.inj (Except.ok.inj h)
  rw [Cache.Limits.make?] at hfound
  split at hfound
  · cases hfound
  · split at hfound
    · cases hfound
    · obtain rfl := Except.ok.inj hfound
      show decide (0 < c.cacheMaxEntries.toNat) = _
      rw [decide_eq_decide]
      omega

variable {τ : Type} [Add τ]

/-! ### Look-ups -/

/-- An action that is looked up, in the state at its turn. -/
structure Look (τ : Type) where
  action : Action
  state : Passage τ

namespace Look

variable [LE τ] [DecidableLE τ] (E : Engine) (e : Entity) (p : Principal) (l : Look τ)

/-- What is asked of the cache. -/
def key : Cache.Key := ⟨p, e, l.action⟩

/-- What is asked of the backend. -/
def call : Call := .policy (.authorize p e.path l.action)

/-- The decision that the cache serves: one that is held and has not expired. -/
def served : Option Bool :=
  if E.caches then
    match l.state.world.cache.slots.get? (l.key e p) with
    | some slot => if slot.isExpired (l.state.clockAt 1) then none else slot.allowed
    | none => none
  else none

/-- What the backend answers if it is consulted. -/
def reply : Except Fault (Option Bool) :=
  l.state.world.remote.reply l.state.world.remote.asked (l.call e p)

/-- The decision, from the cache or from the backend. -/
def decision : Except Fault (Option Bool) :=
  match l.served E e p with
  | some b => .ok (some b)
  | none => l.reply e p

/-- The calls of the backend: one if no decision is served. -/
def calls : List Call :=
  match l.served E e p with
  | some _ => []
  | none => [l.call e p]

/-- The cache once it has been looked in. -/
def looked : Cache τ :=
  if E.caches then (l.state.world.cache.find (l.state.clockAt 1) (l.key e p)).2 else l.state.world.cache

/-- The cache after the look-up: a decision that was loaded is kept, with the fourth request. -/
def cacheAfter : Cache τ :=
  match l.served E e p, l.reply e p with
  | none, .ok d =>
    if E.caches then ((l.looked E e p).keep l.state.world.limits (l.state.clockAt 4) (l.key e p) d).2
    else l.looked E e p
  | _, _ => l.looked E e p

/-- The action is not decided in favour. -/
def denies : Bool :=
  match l.decision E e p with
  | .ok (some true) => false
  | _ => true

/-- The state after the look-up. -/
structure Made (T : Passage τ) : Prop where
  cache : T.world.cache = l.cacheAfter E e p
  asked : T.world.remote.asked = l.state.world.remote.asked ++ l.calls E e p
  later : Later l.state T

end Look

/-- The look-ups of an enforcement, each in the state that the one before it has left. -/
inductive Course [LE τ] [DecidableLE τ] (E : Engine) (e : Entity) (p : Principal) :
    Passage τ → List (Look τ) → Passage τ → Prop
  | idle {S T : Passage τ} : Idle S T → Course E e p S [] T
  | look {S T U : Passage τ} {a : Action} {looks : List (Look τ)} :
    Look.Made E e p ⟨a, S⟩ T → Course E e p T looks U → Course E e p S (⟨a, S⟩ :: looks) U

/-- What look-ups come to that are made for the actions: all actions are decided, or the last one that
is looked up is not because the backend has failed. -/
inductive Concludes [LE τ] [DecidableLE τ] (E : Engine) (e : Entity) (p : Principal)
    (actions : List Action) : List (Look τ) → Except Fault (List Action) → Prop
  | decided {looks : List (Look τ)} : looks.map Look.action = actions →
    (∀ l ∈ looks, ∃ d, l.decision E e p = .ok d) →
    Concludes E e p actions looks
      (.ok ((looks.filter fun l => l.denies E e p).map Look.action))
  | failed {looks : List (Look τ)} {l : Look τ} {f : Fault} :
    (looks ++ [l]).map Look.action <+: actions → (∀ l ∈ looks, ∃ d, l.decision E e p = .ok d) →
    l.served E e p = none → l.reply e p = .error f →
    Concludes E e p actions (looks ++ [l]) (.error f)

section

variable [LE τ] [DecidableLE τ] {E : Engine} {e : Entity} {p : Principal} {path : Path}
  {S T U : Passage τ} {looks : List (Look τ)} {l : Look τ} {actions : List Action}

namespace Look

theorem find_eq (he : E.caches = true) :
    (l.state.world.cache.find (l.state.clockAt 1) (l.key e p)).1 = l.served E e p := by
  rw [served, if_pos he, Cache.find]
  cases l.state.world.cache.slots.get? (l.key e p) with
  | none => rfl
  | some slot =>
    dsimp only
    split <;> rfl

theorem served_of_off (he : E.caches = false) : l.served E e p = none := by
  rw [served, he]
  rfl

variable {b : Bool} {d : Option Bool} {f : Fault}

theorem Made.of_served (h : l.served E e p = some b) (hcache : T.world.cache = l.looked E e p)
    (hasked : T.world.remote.asked = l.state.world.remote.asked) (hlater : Later l.state T) :
    l.Made E e p T := by
  refine ⟨?_, ?_, hlater⟩
  · rw [cacheAfter, h, hcache]
  · rw [calls, h, hasked, List.append_nil]

theorem Made.of_failed (h : l.served E e p = none) (hreply : l.reply e p = .error f)
    (hcache : T.world.cache = l.looked E e p)
    (hasked : T.world.remote.asked = l.state.world.remote.asked ++ [l.call e p])
    (hlater : Later l.state T) : l.Made E e p T := by
  refine ⟨?_, ?_, hlater⟩
  · rw [cacheAfter, h, hreply, hcache]
  · rw [calls, h, hasked]

theorem Made.of_loaded (h : l.served E e p = none) (hreply : l.reply e p = .ok d)
    (hcache : T.world.cache = if E.caches then
      ((l.looked E e p).keep l.state.world.limits (l.state.clockAt 4) (l.key e p) d).2
      else l.looked E e p)
    (hasked : T.world.remote.asked = l.state.world.remote.asked ++ [l.call e p])
    (hlater : Later l.state T) : l.Made E e p T := by
  refine ⟨?_, ?_, hlater⟩
  · rw [cacheAfter, h, hreply, hcache]
  · rw [calls, h, hasked]

end Look

theorem Passage.run_load (hq : S.world.log.context.Quiet) (hp : E.resolver.resolve e = .ok path)
    (a : Action) : ∃ T, S.run (Cache.load E.loadDecision ⟨p, e, a⟩) = (Look.reply e p ⟨a, S⟩, T) ∧
      T.world.cache = S.world.cache ∧
      T.world.remote.asked = S.world.remote.asked ++ [Look.call e p ⟨a, S⟩] ∧
      ∀ d, Look.reply e p ⟨a, S⟩ = .ok d → ∀ n, T.clockAt n = S.clockAt (n + 1) := by
  obtain rfl := Resolver.eq_path_of_resolve hp
  have hload : E.loadDecision ⟨p, e, a⟩ = policy (.authorize p e.path a) :=
    loadDecision_of_resolve hp
  have hcall : S.run (policy (.authorize p e.path a)) = (Look.reply e p ⟨a, S⟩,
      (Passage.answer (.call (.policy (.authorize p e.path a))) S).2) := rfl
  obtain ⟨U, hU, hidle, hsame⟩ := Passage.run_onFault hcall hq fun f => .cacheLoadFailed ⟨p, e, a⟩ f
  refine ⟨U, ?_, hidle.cache, hidle.asked, fun d hd n => ?_⟩
  · rw [Cache.load, hload]
    exact hU
  · obtain rfl := hsame ⟨d, hd⟩
    exact clockAt_answer (.call (.policy (.authorize p e.path a))) S n

theorem Passage.run_store (hq : S.world.log.context.Quiet) (k : Cache.Key) (d : Option Bool) :
    ∃ T, S.run (Cache.store k d : Task Unit) = (.ok (), T) ∧
      T.world.cache = (S.world.cache.keep S.world.limits (S.clockAt 1) k d).2 ∧
      T.world.remote.asked = S.world.remote.asked := by
  let K : Passage τ := (Passage.answer (.chore (.keep k d)) S).2
  obtain ⟨T, hT, hidle⟩ := Passage.run_reports (S := K) (fun j => .entryEvicted j) hq
    (S.world.cache.keep S.world.limits (S.clockAt 1) k d).1
  exact ⟨T, hT, hidle.cache, hidle.asked⟩

/-- A decision is served from the cache, or it is loaded and then kept. -/
theorem Passage.run_decision (hq : S.world.log.context.Quiet) (hp : E.resolver.resolve e = .ok path)
    (a : Action) : ∃ T, S.run (E.decision ⟨p, e, a⟩) = (Look.decision E e p ⟨a, S⟩, T) ∧
      Look.Made E e p ⟨a, S⟩ T := by
  let k : Cache.Key := ⟨p, e, a⟩
  let l : Look τ := ⟨a, S⟩
  show ∃ T, S.run (E.decision k) = (l.decision E e p, T) ∧ l.Made E e p T
  cases he : E.caches with
  | false =>
    have hload : E.decision k = Cache.load E.loadDecision k := by
      rw [decision, he]
      rfl
    have hserved : l.served E e p = none := Look.served_of_off he
    have hlooked : S.world.cache = l.looked E e p := by
      rw [Look.looked, he]
      rfl
    obtain ⟨T, hT, hcache, hasked, -⟩ := Passage.run_load hq hp (p := p) a
    rw [hload, Look.decision, hserved]
    refine ⟨T, hT, ?_⟩
    cases hreply : l.reply e p with
    | error f =>
      exact .of_failed hserved hreply (hcache.trans hlooked) hasked (later_of_run hT)
    | ok d =>
      refine .of_loaded hserved hreply ?_ hasked (later_of_run hT)
      rw [he]
      exact hcache.trans hlooked
  | true =>
    have hconsult : E.decision k = Cache.consult true E.loadDecision k := by rw [decision, he]
    rw [hconsult, Cache.consult, if_pos rfl]
    let F : Passage τ := (Passage.answer (.chore (.find k)) S).2
    have hF : S.run (ask (.find k)) = (.ok (l.served E e p), F) := by
      rw [← Look.find_eq he]
      rfl
    have hlooked : F.world.cache = l.looked E e p := by
      rw [Look.looked, if_pos he]
      rfl
    rw [Passage.run_bind_of_ok hF, Look.decision]
    cases hserved : l.served E e p with
    | some b =>
      obtain ⟨T, hT, hidle, -⟩ := Passage.run_report (S := F) hq (.cacheHit k b)
      refine ⟨T, Passage.run_bind_of_ok hT, .of_served hserved (hidle.cache.trans hlooked) hidle.asked ?_⟩
      exact (later_of_run hF).trans hidle.later
    | none =>
      obtain ⟨M, hM, hmiss, hMtime⟩ := Passage.run_report (S := F) hq (.cacheMiss k)
      have hMquiet : M.world.log.context.Quiet := by rwa [hmiss.later.context]
      obtain ⟨L, hL, hcache, hasked, hLtime⟩ := Passage.run_load hMquiet hp (p := p) a
      -- the backend is asked what it would be asked at first
      have hreply : Look.reply e p ⟨a, M⟩ = l.reply e p := by
        rw [Look.reply, Look.reply, hmiss.later.reply, hmiss.asked]
        rfl
      rw [hreply] at hL hLtime
      rw [hmiss.cache, hlooked] at hcache
      rw [hmiss.asked] at hasked
      have hlater : Later S L :=
        ((later_of_run hF).trans hmiss.later).trans (later_of_run hL)
      show ∃ T, F.run (report (.cacheMiss k) >>= fun _ => _) = _ ∧ _
      rw [Passage.run_bind_of_ok hM]
      cases hloaded : l.reply e p with
      | error f =>
        rw [hloaded] at hL
        exact ⟨L, Passage.run_bind_of_error hL, .of_failed hserved hloaded hcache hasked hlater⟩
      | ok d =>
        rw [hloaded] at hL
        have hLquiet : L.world.log.context.Quiet := by rwa [hlater.context]
        obtain ⟨T, hT, hkept, hsame⟩ := Passage.run_store hLquiet k d
        have htime : L.clockAt 1 = S.clockAt 4 := by
          rw [hLtime d hloaded, hMtime]
          exact clockAt_answer (.chore (.find k)) S 3
        refine ⟨T, ?_, .of_loaded hserved hloaded ?_ (hsame.trans hasked)
          (hlater.trans (later_of_run hT))⟩
        · rw [Passage.run_bind_of_ok hL, Passage.run_bind_of_ok hT]
          rfl
        · rw [hkept, hcache, hlater.limits, htime, if_pos he]
          rfl

namespace Concludes

variable {a : Action} {d : Option Bool} {f : Fault} {x : Except Fault (List Action)}

theorem cons (hd : l.decision E e p = .ok d) (h : Concludes E e p actions looks x) :
    Concludes E e p (l.action :: actions) (l :: looks)
      (x.map fun denied => if d = some true then denied else l.action :: denied) := by
  cases h with
  | decided hactions hall =>
    have hdenies : l.denies E e p = decide (d ≠ some true) := by
      rw [Look.denies, hd]
      cases d with
      | none => rfl
      | some b => cases b <;> rfl
    have hdenied : (if d = some true then (looks.filter fun l => l.denies E e p).map Look.action
        else l.action :: (looks.filter fun l => l.denies E e p).map Look.action) =
        ((l :: looks).filter fun l => l.denies E e p).map Look.action := by
      rw [List.filter_cons, hdenies]
      by_cases hd : d = some true <;> simp [hd]
    rw [Except.map, hdenied]
    refine .decided (congrArg _ hactions) fun l' hl' => ?_
    rcases List.mem_cons.mp hl' with rfl | hl'
    · exact ⟨d, hd⟩
    · exact hall l' hl'
  | @failed before l' f hprefix hall hserved hreply =>
    show Concludes E e p _ ((l :: before) ++ [l']) _
    refine .failed ?_ (fun l' hl' => ?_) hserved hreply
    · exact List.cons_prefix_cons.mpr ⟨rfl, hprefix⟩
    · rcases List.mem_cons.mp hl' with rfl | hl'
      · exact ⟨d, hd⟩
      · exact hall l' hl'

theorem of_failed (hd : l.decision E e p = .error f) :
    Concludes E e p (l.action :: actions) [l] (.error f) := by
  have hfailed : l.served E e p = none ∧ l.reply e p = .error f := by
    rw [Look.decision] at hd
    cases hserved : l.served E e p with
    | none =>
      rw [hserved] at hd
      exact ⟨rfl, hd⟩
    | some b =>
      rw [hserved] at hd
      cases hd
  show Concludes E e p _ ([] ++ [l]) _
  exact .failed (List.cons_prefix_cons.mpr ⟨rfl, List.nil_prefix⟩) nofun hfailed.1 hfailed.2

end Concludes

theorem Passage.run_deniedAmong (hq : S.world.log.context.Quiet)
    (hp : E.resolver.resolve e = .ok path) (actions : List Action) :
    ∃ looks x T, S.run (E.deniedAmong e p actions) = (x, T) ∧ Course E e p S looks T ∧
      Concludes E e p actions looks x := by
  induction actions generalizing S with
  | nil => exact ⟨[], .ok [], S, rfl, .idle (.refl S), .decided rfl nofun⟩
  | cons a rest ih =>
    obtain ⟨T, hT, hmade⟩ := Passage.run_decision hq hp (p := p) a
    have hquiet : T.world.log.context.Quiet := by rwa [hmade.later.context]
    cases hd : Look.decision E e p ⟨a, S⟩ with
    | error f =>
      rw [hd] at hT
      exact ⟨_, _, T, Passage.run_bind_of_error hT, .look hmade (.idle (.refl T)), .of_failed hd⟩
    | ok d =>
      rw [hd] at hT
      obtain ⟨looks, x, U, hU, hcourse, hconcludes⟩ := ih hquiet
      refine ⟨_, _, U, ?_, .look hmade hcourse, hconcludes.cons hd⟩
      rw [deniedAmong, Passage.run_bind_of_ok hT]
      cases x with
      | ok denied => exact Passage.run_bind_of_ok hU
      | error f => exact Passage.run_bind_of_error hU

namespace Course

variable {f : Fault}

theorem later (h : Course E e p S looks T) (hidle : Idle T U) : Course E e p S looks U := by
  induction h with
  | idle h => exact .idle (h.trans hidle)
  | look hmade _ ih => exact .look hmade (ih hidle)

/-- The backend is asked what is not served, in the order of the look-ups, and nothing else. -/
theorem asked (h : Course E e p S looks T) : T.world.remote.asked =
    S.world.remote.asked ++ looks.flatMap fun l => l.calls E e p := by
  induction h with
  | idle h => rw [h.asked, List.flatMap_nil, List.append_nil]
  | look hmade _ ih => rw [ih, hmade.asked, List.flatMap_cons, List.append_assoc]

theorem cache_last (h : Course E e p S (looks ++ [l]) T) : T.world.cache = l.cacheAfter E e p := by
  induction looks generalizing S with
  | nil =>
    cases h with
    | look hmade hrest =>
      cases hrest with
      | idle hidle => rw [hidle.cache, hmade.cache]
  | cons l' rest ih =>
    cases h with
    | look hmade hrest => exact ih hrest

end Course

/-- A decision that the backend has failed to make is not cached: what is held on its key was held
before. -/
theorem Concludes.not_kept {x : Except Fault (List Action)} {f : Fault}
    (hcourse : Course E e p S looks T) (h : Concludes E e p actions looks x) (hl : l ∈ looks)
    (hf : l.decision E e p = .error f) {slot : Cache.Slot τ} (hk : T.world.Holds (l.key e p) slot) :
    l.state.world.Holds (l.key e p) slot := by
  have hnot : ∀ l', (∃ d, l'.decision E e p = .ok d) → l ≠ l' := by
    rintro l' ⟨d, hd⟩ rfl
    rw [hf] at hd
    cases hd
  cases h with
  | decided _ hall => exact absurd rfl (hnot l (hall l hl))
  | @failed before last _ _ hall hserved hreply =>
    obtain rfl : l = last := by
      rcases List.mem_append.mp hl with hl | hl
      · exact absurd rfl (hnot l (hall l hl))
      · exact List.mem_singleton.mp hl
    rw [World.Holds, hcourse.cache_last, Look.cacheAfter, hserved, hreply] at hk
    dsimp only [Look.looked] at hk
    split at hk
    · exact Cache.get?_of_find hk
    · exact hk

/-- Who is not let pass without a check has had nothing done but, if anything, a question for the
groups of the user. -/
theorem Passage.run_bypass (E : Engine) (user : String) (S : Passage τ) :
    (S.run (E.bypass user)).2.world.cache = S.world.cache ∧
      ∃ more, (S.run (E.bypass user)).2.world.remote.asked = S.world.remote.asked ++ more ∧
        ∀ c ∈ more, c = .groupsOf user := by
  let Asked (T : Passage τ) : Prop := T.world.cache = S.world.cache ∧
    ∃ more, T.world.remote.asked = S.world.remote.asked ++ more ∧ ∀ c ∈ more, c = .groupsOf user
  have hasks : (E.bypass user).Asks fun q => q = .call (.groupsOf user) := asks_bypass rfl
  refine Dialogue.Asks.run_keeps (I := Asked) ?_ hasks ⟨rfl, [], (List.append_nil _).symm, nofun⟩
  rintro _ rfl T ⟨hcache, more, hmore, hall⟩
  refine ⟨hcache, more ++ [.groupsOf user], ?_, fun c hc => ?_⟩
  · rw [← List.append_assoc, ← hmore]
    rfl
  · rcases List.mem_append.mp hc with hc | hc
    · exact hall c hc
    · exact List.mem_singleton.mp hc

theorem Passage.run_enforce (hq : S.world.log.context.Quiet) (hk : p.kind = .user)
    (hp : E.resolver.resolve e = .ok path) (hb : S.run (E.bypass p.name) = (.ok none, T))
    (actions : List Action) : ∃ looks x U, S.run (E.enforce e p actions) = (x >>= settle e p, U) ∧
      Course E e p T looks U ∧ Concludes E e p (Action.distinct actions) looks x := by
  have hT : T.world.log.context.Quiet := by rwa [(later_of_run hb).context]
  obtain ⟨looks, x, U, hU, hcourse, hconcludes⟩ :=
    Passage.run_deniedAmong hT hp (p := p) (Action.distinct actions)
  have hUquiet : U.world.log.context.Quiet := by rwa [(later_of_run hU).context]
  have hjudge : S.run (E.judge e p (Action.distinct actions)) = (x.map .decided, U) := by
    rw [judge, Passage.run_bind_of_ok hb]
    cases x with
    | ok denied => exact Passage.run_bind_of_ok hU
    | error f => exact Passage.run_bind_of_error hU
  obtain ⟨V, hV, hidle, -⟩ := Passage.run_onFault hjudge hq fun f => .enforceFailed p.text e.text f
  have hVquiet : V.world.log.context.Quiet := by rwa [hidle.later.context]
  have hcourse' := hcourse.later hidle
  rw [enforce, if_neg (not_not_intro hk), hp]
  show ∃ looks x U, S.run ((E.judge e p _).onFault _ >>= _) = _ ∧ _
  cases x with
  | error f => exact ⟨looks, .error f, V, Passage.run_bind_of_error hV, hcourse', hconcludes⟩
  | ok denied =>
    rw [Passage.run_bind_of_ok hV]
    cases denied with
    | nil =>
      obtain ⟨W, hW, hlast, -⟩ := Passage.run_report hVquiet
        (.enforceAllowed p.text e.text (Action.distinct actions))
      exact ⟨looks, .ok [], W, hW, hcourse'.later hlast, hconcludes⟩
    | cons a rest =>
      obtain ⟨W, hW, hlast, -⟩ := Passage.run_report hVquiet (.enforceDenied p.text e.text (a :: rest))
      exact ⟨looks, .ok (a :: rest), W, Passage.run_bind_of_ok hW, hcourse'.later hlast, hconcludes⟩

/-- An enforcement that runs alone, against a backend that answers as it likes and while time goes on,
for a user who is not let pass without a check. The requested actions are looked up in the order of
their words, each once, until a call of the backend fails. A decision is served if one is held and has
not expired at that moment; otherwise the backend is asked, once, and what it decides is kept; a cache
without room never serves. If all calls succeed the enforcement fails with exactly the actions that
were not decided in favour, if there are any; if one fails it ends with that fault, and nothing new is
held on its key. -/
theorem enforce_exact (hq : S.world.log.context.Quiet) (hk : p.kind = .user)
    (hp : E.resolver.resolve e = .ok path) (hb : S.run (E.bypass p.name) = (.ok none, T))
    (actions : List Action) :
    ((Action.distinct actions).Pairwise fun a b => a.label < b.label) ∧
    (∀ a, a ∈ Action.distinct actions ↔ a ∈ actions) ∧
    (T.world.cache = S.world.cache ∧ ∃ more, T.world.remote.asked = S.world.remote.asked ++ more ∧
      ∀ c ∈ more, c = .groupsOf p.name) ∧
    ∃ looks x U, S.run (E.enforce e p actions) = (x >>= settle e p, U) ∧
      Course E e p T looks U ∧ Concludes E e p (Action.distinct actions) looks x ∧
      (U.world.remote.asked = T.world.remote.asked ++ looks.flatMap fun l => l.calls E e p) ∧
      (∀ l ∈ looks, ∀ f slot, l.decision E e p = .error f → U.world.Holds (l.key e p) slot →
        l.state.world.Holds (l.key e p) slot) ∧
      ∀ c limits, configure? c = .ok (E, limits) → c.cacheMaxEntries = 0 →
        ∀ l ∈ looks, l.served E e p = none := by
  obtain ⟨looks, x, U, hU, hcourse, hconcludes⟩ := Passage.run_enforce hq hk hp hb actions
  have hbypass := Passage.run_bypass E p.name S
  rw [hb] at hbypass
  refine ⟨Action.sorted_distinct actions, fun a => Action.mem_distinct, hbypass, looks, x, U, hU, hcourse,
    hconcludes, hcourse.asked, fun l hl f slot hf hk => hconcludes.not_kept hcourse hl hf hk,
    fun c limits hc hnone l _ => Look.served_of_off ?_⟩
  rw [caches_of_configure? hc, hnone]
  rfl

end

namespace Sample

/-- A backend that fails on writing, denies reading and allows everything else. -/
def moody : Oracle where
  reply _ c :=
    match c with
    | .policy (.authorize _ _ a) =>
      if a = .write then .error (.backendUnavailable "down") else .ok (some (decide (a ≠ .read)))
    | c => .error (.unsupportedOperation c.method)
  asked := []

/-- A cache for one decision, which is that Ada may read; time passes before each request. -/
def crowded : Passage Nat :=
  ⟨⟨(Cache.empty.keep ⟨1, 5⟩ 0 ⟨ada, root, .read⟩ (some true)).2, ⟨1, 5⟩, 0, ⟨.empty, []⟩, moody⟩,
    fun _ => 1⟩

/-- The decision on reading makes room for the one on administering before it is looked up, and is
denied when it is loaded again. The enforcement goes on to writing and ends with the failure of the
backend; the denial stays cached. -/
theorem failed_after_denial : ∃ looks U,
    crowded.run (engine.enforce root ada [.write, .read, .admin, .read]) =
      (.error (.backendUnavailable "down"), U) ∧
    Course engine root ada crowded looks U ∧
    (looks.flatMap fun l => l.calls engine root ada) =
      [.policy (.authorize ada root.path .admin), .policy (.authorize ada root.path .read),
        .policy (.authorize ada root.path .write)] ∧
    U.world.Holds ⟨ada, root, .read⟩ ⟨some false, 14⟩ ∧ U.world.cache.size = 1 := by
  obtain ⟨-, -, -, looks, x, U, hU, hcourse, -, hasked, -⟩ :=
    enforce_exact (S := crowded) (T := crowded) (E := engine) (e := root) (p := ada)
      Audit.Context.quiet_empty rfl rfl rfl [.write, .read, .admin, .read]
  have hresult : (crowded.run (engine.enforce root ada [.write, .read, .admin, .read])).1 =
      .error (.backendUnavailable "down") := by decide +kernel
  have hleft : U = (crowded.run (engine.enforce root ada [.write, .read, .admin, .read])).2 := by
    rw [hU]
  rw [hU] at hresult
  have hcalls : U.world.remote.asked =
      [.policy (.authorize ada root.path .admin), .policy (.authorize ada root.path .read),
        .policy (.authorize ada root.path .write)] := by
    rw [hleft]
    decide +kernel
  refine ⟨looks, U, hU.trans (Prod.ext hresult rfl), hcourse, hasked.symm.trans hcalls, ?_, ?_⟩
  · rw [hleft]
    decide +kernel
  · rw [hleft]
    decide +kernel

end Sample

end Engine

end Warrant
