import Warrant.Proofs.Sweeping

/-!
# The cache stays coherent

While enforcements run just before and just after the remote calls of a write, the cache holds stale
decisions. Once the write is over, if it has succeeded or has changed nothing, every decision that
counts is what the policy backend would answer (`Reached.coherent`).
-/

namespace Warrant.Engine

open World

variable {τ : Type} {E : Engine}

/-- Every decision that counts is the verdict of the site. -/
def Coherent [LE τ] [DecidableLE τ] (E : Engine) (w : World Site τ) : Prop :=
  ∀ k slot, w.Holds k slot → slot.isExpired w.clock = false →
    ∃ b, slot.allowed = some b ∧ w.remote.verdict E.resolver k = .ok b

theorem not_coherent [LE τ] [DecidableLE τ] {w : World Site τ} (k : Cache.Key)
    (slot : Cache.Slot τ) (hk : w.Holds k slot) (hx : slot.isExpired w.clock = false)
    (hs : w.remote.backs E.resolver k slot.allowed = false) : ¬ Coherent E w := by
  intro h
  rw [Site.backs_iff.mpr (h k slot hk hx)] at hs
  cases hs

/-- The decision is on a principal that is checked at the site, and it is the verdict there. -/
def Right (E : Engine) (s : Site) (k : Cache.Key) (slot : Cache.Slot τ) : Prop :=
  E.Checks s k.principal ∧ s.backs E.resolver k slot.allowed = true

theorem bypassAt_congr {m m' : Site} (h : m.identity = m'.identity) (user : String) :
    E.bypassAt m user = E.bypassAt m' user := by
  unfold bypassAt groupsAt
  rw [h]

theorem right_congruent (E : Engine) : Congruent E (Right E : Site → Cache.Key → Cache.Slot τ → Prop) := by
  rintro m m' k slot hi hv ⟨⟨hk, hb⟩, hs⟩
  refine ⟨⟨hk, by rw [← bypassAt_congr hi, hb]⟩, ?_⟩
  rwa [Site.backs, ← hv]

/-- Every held decision is right, expired or not, and shadow roles are confined to their paths. -/
structure Settled (E : Engine) (w : World Site τ) : Prop where
  right : ∀ k slot, w.Holds k slot → Right E w.remote k slot
  confined : w.remote.store.Confined

theorem coherent_of_settled [LE τ] [DecidableLE τ] {w : World Site τ} (h : Settled E w) :
    Coherent E w :=
  fun k slot hk _ => Site.backs_iff.mp (h.right k slot hk).2

theorem Settled.of_adds {w v : World Site τ} (h : Settled E w) (ha : Adds (Right E) w v) :
    Settled E v := by
  obtain ⟨hr, hadds⟩ := ha
  refine ⟨fun k slot hk => ?_, by rw [hr]; exact h.confined⟩
  rw [hr]
  exact (hadds k slot hk).elim (h.right k slot) id

theorem settled_new (E : Engine) (limits : Cache.Limits τ) (clock : τ) (context : Audit.Context)
    {site : Site} (h : site.store = .empty) : Settled E (World.new limits clock context site) := by
  refine ⟨fun k slot hk => (by cases hk), ?_⟩
  show site.store.Confined
  rw [h]
  exact RoleStore.confined_empty

variable [Add τ] [LE τ] [DecidableLE τ] {w : World Site τ}

theorem adds_enforce (E : Engine) (e : Entity) (p : Principal) (actions : List Action)
    (w : World Site τ) : Adds (Right E) w (World.run (E.enforce e p actions) w).2 :=
  have h := looked_enforce E e p actions w
  ⟨h.beside.remote, h.holds⟩

/-- The aside is an enforcement, or time that passes. -/
def Aside.IsLookup : Aside τ → Prop
  | perform o => ¬ o.IsWrite
  | wait _ => True

/-- Nothing but enforcements happens around the remote calls. -/
def Lookups (turns : Nat → Turn τ) : Prop :=
  ∀ n, ∀ a ∈ (turns n).before ++ (turns n).after, a.IsLookup

theorem Aside.IsLookup.adds {a : Aside τ} (h : a.IsLookup) (w : World Site τ) :
    Adds (Right E) w (a.play E w).2 := by
  cases a with
  | wait d => exact ⟨rfl, fun k slot hk => .inl hk⟩
  | perform o =>
    cases o with
    | enforce e p actions => exact adds_enforce E e p actions w
    | _ => exact absurd trivial h

theorem Settled.tracked (h : Settled E w) {turns : Nat → Turn τ} (ht : Lookups turns)
    (inside : Cache.Key → Prop) (late : List Cache.Key) :
    Tracked E inside (Right E) ⟨w, turns, [w.remote], late, []⟩ where
  present := List.mem_singleton_self _
  agrees m hm := by
    rw [List.mem_singleton.mp hm]
    exact .refl _ _ _
  holds k slot hk := ⟨_, List.mem_singleton_self _, h.right k slot hk⟩
  confined := h.confined
  harmless n := ⟨fun a ha w => (ht n a (List.mem_append_left _ ha)).adds w,
    fun a ha w => (ht n a (List.mem_append_right _ ha)).adds w⟩

/-- A write with enforcements around its remote calls leaves a settled world once the sites that it
has seen since it last dropped decisions all decide like the one that is left. -/
theorem Settled.play (h : Settled E w) {turns : Nat → Turn τ} (ht : Lookups turns) {o : Operation}
    (hw : o.IsWrite) (hh : o.Honest) (late : List Cache.Key)
    (halike : ∀ m ∈ (E.play o turns late w).2.since, ∀ k,
      m.verdict E.resolver k = (E.play o turns late w).2.world.remote.verdict E.resolver k) :
    Settled E (E.play o turns late w).2.world := by
  have hT := (h.tracked ht o.Drops late).run (right_congruent E) (shape_perform E hw hh).asks
  exact ⟨fun k slot hk => hT.sound (right_congruent E) halike hk, hT.confined⟩

/-- The worlds that are reached from an empty backend by operations of the engine, with enforcements
around the remote calls of each write, where each write succeeds or changes no role. -/
inductive Reached (E : Engine) : World Site τ → Prop
  | new (limits : Cache.Limits τ) (clock : τ) (context : Audit.Context) (site : Site) :
      site.store = .empty → Reached E (World.new limits clock context site)
  | wait (d : τ) {w : World Site τ} : Reached E w → Reached E (w.advance d)
  | enforce (e : Entity) (p : Principal) (actions : List Action) {w : World Site τ} :
      Reached E w → Reached E (World.run (E.enforce e p actions) w).2
  | write (o : Operation) (turns : Nat → Turn τ) {w : World Site τ} : Reached E w →
      o.IsWrite → o.Honest → Lookups turns →
      ((E.play o turns [] w).1 = .ok () ∨
        ∀ m ∈ (E.play o turns [] w).2.since, m.store = w.remote.store) →
      Reached E (E.play o turns [] w).2.world

theorem Reached.settled (h : Reached E w) : Settled E w := by
  induction h with
  | new limits clock context site hs => exact settled_new E limits clock context hs
  | wait d _ ih => exact ⟨ih.right, ih.confined⟩
  | enforce e p actions _ ih => exact ih.of_adds (adds_enforce E e p actions _)
  | @write o turns w _ hw hh ht hend ih =>
    refine ih.play ht hw hh [] fun m hm k => ?_
    have hshape := shape_perform E hw hh
    have hT := (ih.tracked ht o.Drops []).run (right_congruent E) hshape.asks
    -- the sites seen since the last drop agree off its keys; how the write ends settles the rest
    rcases hend with hok | hsame
    · exact alike_of_ok hshape rfl hT (Prod.ext hok rfl) hm k
    · refine Site.verdict_congr (hT.agrees m hm).backend ?_
      rw [hsame m hm]
      exact (hsame _ hT.present).symm

/-- A write that runs alone and succeeds reaches the next world. -/
theorem Reached.alone (o : Operation) {v : World Site τ} (h : Reached E w) (hw : o.IsWrite)
    (hh : o.Honest) (hok : World.run (E.perform o) w = (.ok (), v)) : Reached E v := by
  let turns : Nat → Turn τ := fun _ => .bare .carriedOut
  obtain ⟨hresult, hworld⟩ := Scene.run_quiet (E := E) (E.perform o) ⟨w, turns, [w.remote], [], []⟩
    fun _ => rfl
  rw [hok] at hresult hworld
  have hlookups : Lookups turns := fun n a ha => by cases ha
  rw [← show (E.play o turns [] w).2.world = v from hworld]
  exact .write o turns h hw hh hlookups (.inl hresult)

/-- Enforcements that run inside writes leave nothing stale behind. -/
theorem Reached.coherent (h : Reached E w) : Coherent E w := coherent_of_settled h.settled

/-! ### A small site -/

namespace Sample

def root : Entity :=
  ⟨[⟨.of .root, Resolver.Sample.cdap, none⟩], by decide, ⟨by decide, by decide, trivial⟩⟩

theorem ada_named : "ada" ≠ "" := by decide

def ada : Principal := ⟨.user, "ada", ada_named⟩

def readers : Principal := ⟨.role, "readers", by decide⟩

/-- An engine that serves everything and looks no groups up. -/
def engine : Engine := ⟨⟨none⟩, [], none, false, true⟩

/-- A site without roles, where every user has a group of its own. -/
def site : Site := ⟨⟨.userNamed, ⟨none⟩⟩, false, none, .empty⟩

/-- The beginning: ten decisions are kept for five ticks. -/
def start : World Site Nat := .new ⟨10, 5⟩ 0 .empty site

def founded : World Site Nat := (World.run (engine.perform (.createRole "readers")) start).2

/-- Ada is one of the readers. -/
def joined : World Site Nat := (World.run (engine.perform (.addMember "readers" ada)) founded).2

theorem eq_of_isOk {β : Type} {x : Except Fault Unit × β} (h : x.1.isOk = true) :
    x = (.ok (), x.2) := by
  obtain ⟨result, b⟩ := x
  cases result with
  | ok a => rfl
  | error f => cases h

theorem run_founded : World.run (engine.perform (.createRole "readers")) start = (.ok (), founded) :=
  eq_of_isOk (by decide +kernel)

theorem run_joined :
    World.run (engine.perform (.addMember "readers" ada)) founded = (.ok (), joined) :=
  eq_of_isOk (by decide +kernel)

theorem reached_joined : Reached engine joined := by
  have hstart : Reached engine start := .new _ _ _ site rfl
  have hfounded : Reached engine founded :=
    hstart.alone (.createRole "readers") trivial trivial run_founded
  exact hfounded.alone (.addMember "readers" ada) trivial trivial run_joined

/-- Ada asks to read. -/
def asking : Aside Nat := .perform (.enforce root ada [.read])

/-- Ada asks just before and just after every remote call. -/
def around : Nat → Turn Nat := fun _ => ⟨[asking], .carriedOut, [asking]⟩

theorem lookups_around : Lookups around := by
  intro n a ha
  obtain rfl : a = asking := by simpa [around] using ha
  exact id

/-- The readers have been granted to read. -/
def granted : World Site Nat := (engine.play (.grant root readers [.read]) around [] joined).2.world

/-- Ada has asked once more. -/
def asked : World Site Nat := (World.run (engine.enforce root ada [.read]) granted).2

end Sample

/-- Ada has asked in vain just before and just after the grant was made; what is held in the end is
that she may read. -/
theorem Sample.coherent_asked : asked.Holds ⟨ada, root, .read⟩ ⟨some true, 5⟩ ∧
    Coherent engine asked := by
  have hok := eq_of_isOk (x := engine.play (.grant root readers [.read]) around [] joined)
    (by decide +kernel)
  have hgranted : Reached engine granted :=
    .write _ _ reached_joined trivial (fun _ => by decide +kernel) lookups_around
      (.inl (congrArg Prod.fst hok))
  exact ⟨by decide +kernel, (hgranted.enforce root ada [.read]).coherent⟩

end Warrant.Engine
