import Mathlib
import Warrant.Proofs.Retention

/-!
# How much a cache holds

What every chore keeps, and sweeping the cache and letting time pass keep too, holds at a desk after any
moves (`Desk.Lasts.run`). Two such things are that the cache holds no more decisions than there may be,
the expired ones counted, and that none of them outlasts a lifetime from now (`World.Bounded`).
-/

namespace Warrant

namespace Cache

section Sizes

variable {τ : Type} {c : Cache τ} {now : τ} {k : Key}

theorem size_forget_le {scope : Scope} : (c.forget scope).2.size ≤ c.size :=
  List.length_filter_le ..

variable [LE τ] [DecidableLE τ]

/-- A look-up moves a decision or drops it. -/
theorem size_find_le : (c.find now k).2.size ≤ c.size := by
  rw [find]
  split
  · exact le_refl c.size
  · rename_i slot hslot
    split
    · exact List.length_filter_le ..
    · show (c.slots.putLast k slot).size ≤ c.slots.size
      rw [Table.size_putLast, Table.size_erase (Table.mem_keys_iff.mpr ⟨slot, hslot⟩)]

/-- A store drops as many decisions as are too many. -/
theorem size_keep_le [Add τ] {limits : Limits τ} {allowed : Option Bool} :
    (c.keep limits now k allowed).2.size ≤ limits.maxEntries := by
  rw [keep, size]
  dsimp only
  split <;> rw [Table.size, Table.drop, List.length_drop, ← Table.size, ← size] <;> omega

end Sizes

end Cache

namespace World

open Cache

variable {σ τ : Type} [AddCommGroup τ] [LinearOrder τ] {limits : Limits τ} {w : World σ τ}

/-- The cache holds no more decisions than there may be, and none that counts for more than a lifetime
from now. -/
structure Bounded (limits : Limits τ) (w : World σ τ) : Prop where
  same_limits : w.limits = limits
  size : w.cache.size ≤ limits.maxEntries
  fresh : ∀ k slot, w.Holds k slot → slot.expires ≤ w.clock + limits.lifetime

namespace Bounded

theorem new (limits : Limits τ) (clock : τ) (context : Audit.Context) (remote : σ) :
    Bounded limits (World.new limits clock context remote) :=
  ⟨rfl, Nat.zero_le _, fun _ _ h => nomatch h⟩

/-- Only a store adds to the cache, and it drops what is too many. -/
theorem chore (h : w.Bounded limits) (q : Chore) : (World.chore q w).2.Bounded limits := by
  obtain ⟨rfl, hsize, hfresh⟩ := h
  cases q with
  | report e => exact ⟨rfl, hsize, hfresh⟩
  | find k =>
    exact ⟨rfl, le_trans size_find_le hsize, fun j slot hj => hfresh j slot (get?_of_find hj)⟩
  | keep k allowed =>
    refine ⟨rfl, size_keep_le, fun j slot hj => ?_⟩
    rcases get?_of_keep hj with ⟨-, rfl⟩ | ⟨-, hj⟩
    · exact le_refl (w.clock + w.limits.lifetime)
    · exact hfresh j slot hj
  | forget scope =>
    exact ⟨rfl, le_trans size_forget_le hsize,
      fun j slot hj => hfresh j slot (get?_forget.mp hj).1⟩
  | acquire | release => exact ⟨rfl, hsize, hfresh⟩

theorem prune (h : w.Bounded limits) :
    Bounded limits { w with cache := w.cache.prune w.clock } :=
  ⟨h.same_limits, le_trans (size_prune_le ..) h.size,
    fun k slot hk => h.fresh k slot (get?_prune.mp hk).1⟩

theorem wait [IsOrderedAddMonoid τ] (h : w.Bounded limits) {t : τ} (ht : 0 ≤ t) :
    (w.advance t).Bounded limits :=
  ⟨h.same_limits, h.size, fun k slot hk =>
    (h.fresh k slot hk).trans (add_le_add_left (le_add_of_nonneg_right ht) _)⟩

end Bounded

end World

namespace Cache.Desk

variable {τ : Type} [AddCommGroup τ] [LinearOrder τ] {I : World Unit τ → Prop} {d : Desk τ}

/-- What nothing that happens at a desk puts an end to. -/
structure Lasts (I : World Unit τ → Prop) : Prop where
  chore : ∀ q w, I w → I (World.chore q w).2
  prune : ∀ w, I w → I { w with cache := w.cache.prune w.clock }
  wait : ∀ t w, 0 ≤ t → I w → I (w.advance t)

namespace Lasts

theorem runToWait {β : Type} (hI : Lasts I) (x : Visit β) {w : World Unit τ} (h : I w) :
    I (World.runToWait x w).2 := by
  induction x generalizing w with
  | done result => exact h
  | ask q next ih =>
    cases q with
    | call c => exact h
    | chore q =>
      rw [World.runToWait]
      split
      · exact h
      · exact ih _ (hI.chore q w h)

theorem step (hI : Lasts I) (h : I d.world) (m : Move τ) : I (d.step m).world := by
  cases m with
  | get k => exact hI.runToWait _ h
  | loaded n reply =>
    show I (d.act (.loaded n reply)).1
    rw [act]
    split
    · exact hI.runToWait _ h
    · exact h
  | drop scope => exact hI.runToWait _ h
  | snapshot | count => exact hI.prune d.world h
  | wait t forward => exact hI.wait t d.world forward h

theorem run (hI : Lasts I) (h : I d.world) (moves : List (Move τ)) : I (d.run moves).world := by
  induction moves generalizing d with
  | nil => exact h
  | cons m moves ih => exact ih (hI.step h m)

end Lasts

/-- The limits and the context are what they were when the desk was opened. -/
theorem lasts_settings (limits : Limits τ) (context : Audit.Context) :
    Lasts fun w => w.limits = limits ∧ w.log.context = context := by
  refine ⟨fun q w h => ?_, fun _ h => h, fun _ _ _ h => h⟩
  have hbeside := World.chore_beside q w
  exact ⟨hbeside.limits.trans h.1, hbeside.context.trans h.2⟩

variable [IsOrderedAddMonoid τ] {limits : Limits τ}

theorem lasts_bounded (limits : Limits τ) : Lasts (World.Bounded limits (σ := Unit)) :=
  ⟨fun q _ h => h.chore q, fun _ h => h.prune, fun _ _ ht h => h.wait ht⟩

/-- Whatever happens at a desk, the cache holds at most as many decisions as there may be, one for each
key, and none at all if it is switched off; and no decision counts for more than a lifetime from now. -/
theorem size_bounded (limits : Limits τ) (clock : τ) (context : Audit.Context)
    (moves : List (Move τ)) :
    let w := ((opened limits clock context).run moves).world
    w.cache.size ≤ limits.maxEntries ∧ w.cache.slots.keys.Nodup ∧
    (limits.maxEntries = 0 → w.cache.slots.entries = []) ∧
    ∀ k slot, w.Holds k slot → slot.expires ≤ w.clock + limits.lifetime := by
  intro w
  have hw : w.Bounded limits :=
    (lasts_bounded limits).run (.new limits clock context ()) moves
  refine ⟨hw.size, w.cache.slots.nodup, fun hnone => ?_, hw.fresh⟩
  exact List.eq_nil_of_length_eq_zero (Nat.le_zero.mp (hnone ▸ hw.size))

namespace Sample

/-- The events are recorded under an error of somebody else's. -/
def erring : Audit.Context := { Audit.Context.empty with extra := .ofList [("error", .text "none")] }

/-- A load fails; two other ones end in the opposite order of their look-ups. -/
def refilling : List (Move Int) :=
  [.get reading, .loaded 0 (.error (.backendUnavailable "down")), .get reading, .get writing,
    .loaded 2 (.ok true), .wait 9 (by decide), .loaded 1 (.ok false)]

theorem refilled :
    ((opened single 0 erring).run refilling).world.Holds reading ⟨some false, 69⟩ ∧
    ((opened single 0 erring).run refilling).world.cache.size ≤ 1 ∧
    69 ≤ ((opened single 0 erring).run refilling).world.clock + 60 ∧
    ((opened ⟨0, 60⟩ 0 erring).run refilling).world.cache.slots.entries = [] := by
  obtain ⟨hsize, -, -, hfresh⟩ := size_bounded single 0 erring refilling
  have hheld : ((opened single 0 erring).run refilling).world.Holds reading ⟨some false, 69⟩ := by
    decide +kernel
  exact ⟨hheld, hsize, hfresh _ _ hheld, (size_bounded ⟨0, 60⟩ 0 erring refilling).2.2.1 rfl⟩

end Sample

end Cache.Desk

end Warrant
