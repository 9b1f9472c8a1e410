import Mathlib
import Warrant.Proofs.Histories
import Warrant.Proofs.Leading

/-!
# Expired decisions make no difference

A cache that is swept before it is used finds, evicts and shows the same as one that is not, and is left
as the other one would be if it were swept afterwards (`find_prune`, `keep_prune`, `forget_prune`). So
two worlds that differ in expired decisions and in events only (`World.Level`) answer every chore alike
but one: how many decisions were dropped.
-/

namespace Warrant

namespace Cache

variable {τ : Type} [LinearOrder τ] {c : Cache τ} {now later : τ} {k : Key}

theorem prune_prune (hle : now ≤ later) (c : Cache τ) :
    (c.prune now).prune later = c.prune later := by
  refine congrArg Cache.mk (Table.ext ?_)
  show (c.slots.entries.filter _).filter _ = c.slots.entries.filter _
  rw [List.filter_filter]
  refine List.filter_congr fun e _ => ?_
  by_cases hx : e.2.expires ≤ now
  · simp [Slot.isExpired, hx, hx.trans hle]
  · simp [Slot.isExpired, hx]

theorem size_prune_le (now : τ) (c : Cache τ) : (c.prune now).size ≤ c.size :=
  List.length_filter_le ..

theorem prune_erase_of_expired (h : ∀ slot, c.slots.get? k = some slot → slot.isExpired now = true) :
    prune now ⟨c.slots.erase k⟩ = c.prune now := by
  refine congrArg Cache.mk (Table.ext ?_)
  show (c.slots.entries.filter _).filter _ = c.slots.entries.filter _
  rw [List.filter_filter]
  refine List.filter_congr fun e he => ?_
  by_cases hk : e.1 = k
  · simp [hk, h e.2 (Table.get?_eq_some_iff.mpr (hk ▸ he))]
  · simp [hk]

theorem get?_prune_eq_none (h : ∀ slot, c.slots.get? k = some slot → slot.isExpired now = true) :
    (c.prune now).slots.get? k = none := by
  refine Option.eq_none_iff_forall_ne_some.mpr fun slot hslot => ?_
  obtain ⟨hs, hx⟩ := get?_prune.mp hslot
  rw [h slot hs] at hx
  cases hx

/-- A decision that is absent or expired is not found, and is gone afterwards. -/
theorem find_gone (h : ∀ slot, c.slots.get? k = some slot → slot.isExpired now = true) :
    c.find now k = (none, ⟨c.slots.erase k⟩) := by
  cases hs : c.slots.get? k with
  | none => rw [find_absent hs, Table.erase_of_not_mem (Table.get?_eq_none_iff.mp hs)]
  | some slot => exact find_expired hs (h slot hs)

theorem find_prune (k : Key) (c : Cache τ) :
    (c.prune now).find now k = ((c.find now k).1, (c.find now k).2.prune now) := by
  by_cases hgone : ∀ slot, c.slots.get? k = some slot → slot.isExpired now = true
  · rw [find_gone hgone, find_absent (get?_prune_eq_none hgone), prune_erase_of_expired hgone]
  · push Not at hgone
    obtain ⟨slot, hs, hx⟩ := hgone
    replace hx := Bool.eq_false_iff.mpr hx
    rw [find_counting hs hx, find_counting (get?_prune.mpr ⟨hs, hx⟩) hx, prune_putLast hx]

theorem counted_prune (k : Key) (c : Cache τ) : (c.prune now).counted now k = c.counted now k := by
  rw [← found_eq_counted, ← found_eq_counted, find_prune]

/-- Only what counts can be lost. -/
theorem lost_prune (c d : Cache τ) : (c.prune now).lost now d = c.lost now d := by
  simp only [lost, counted_prune]
  show ((c.slots.entries.filter _).map Prod.fst).filter _ = (c.slots.entries.map Prod.fst).filter _
  rw [List.filter_map, List.filter_map, List.filter_filter]
  refine congrArg (List.map Prod.fst) (List.filter_congr fun e he => ?_)
  by_cases hx : e.2.expires ≤ now
  · simp [counted, Table.get?_eq_some_iff.mpr he, hx]
  · simp [Slot.isExpired, hx]

theorem counted_congr {d : Cache τ} (h : d.prune now = c.prune now) :
    d.counted now k = c.counted now k := by
  rw [← counted_prune, h, counted_prune]

theorem lost_congr {c' d d' : Cache τ} (hc : c'.prune now = c.prune now)
    (hd : d'.prune now = d.prune now) : c'.lost now d' = c.lost now d := by
  rw [← lost_prune, hc, lost_prune]
  simp only [lost, counted_congr hd]

theorem forget_prune (scope : Scope) (c : Cache τ) :
    ((c.prune now).forget scope).2 = (c.forget scope).2.prune now := by
  refine congrArg Cache.mk (Table.ext ?_)
  show (c.slots.entries.filter _).filter _ = (c.slots.entries.filter _).filter _
  rw [List.filter_filter, List.filter_filter]
  exact List.filter_congr fun e _ => Bool.and_comm ..

/-- Of a swept cache the oldest decisions may go; it stays swept. -/
theorem prune_drop_prune (n : Nat) (c : Cache τ) :
    prune now ⟨(c.prune now).slots.drop n⟩ = ⟨(c.prune now).slots.drop n⟩ := by
  refine congrArg Cache.mk (Table.ext (List.filter_eq_self.mpr fun e he => ?_))
  exact (List.mem_filter.mp (List.mem_of_mem_drop he)).2

theorem keep_prune [Add τ] {limits : Limits τ} (hlast : now < now + limits.lifetime) (k : Key)
    (b : Option Bool) (c : Cache τ) : (c.prune now).keep limits now k b =
      ((c.keep limits now k b).1, (c.keep limits now k b).2.prune now) := by
  have hfresh : Slot.isExpired now ⟨b, now + limits.lifetime⟩ = false := not_isExpired_iff.mpr hlast
  rw [keep, keep, ← prune_putLast hfresh]
  dsimp only
  generalize (⟨c.slots.putLast k ⟨b, now + limits.lifetime⟩⟩ : Cache τ) = t
  rw [prune_prune le_rfl, ite_self]
  split
  · rw [prune_drop_prune]
  · -- there is room, the more so for a swept cache
    rename_i hroom
    have hle := size_prune_le now t
    rw [Nat.sub_eq_zero_of_le (by omega), Nat.sub_eq_zero_of_le (by omega)]
    rfl

/-- Two caches that agree once they are swept are used alike. -/
theorem swept_alike {ρ : Type} {f : Cache τ → ρ × Cache τ} {d : Cache τ}
    (hf : ∀ c, f (c.prune now) = ((f c).1, (f c).2.prune now)) (h : d.prune now = c.prune now) :
    (f d).1 = (f c).1 ∧ (f d).2.prune now = (f c).2.prune now :=
  Prod.mk.inj ((hf d).symm.trans ((congrArg f h).trans (hf c)))

end Cache

namespace World

open Cache

variable {σ τ : Type} [LinearOrder τ] {w v : World σ τ}

/-- The worlds differ in their events and in expired decisions only. -/
structure Level (w v : World σ τ) : Prop extends Beside w v where
  cache : v.cache.prune w.clock = w.cache.prune w.clock

namespace Level

theorem refl (w : World σ τ) : Level w w := ⟨.refl w, rfl⟩

theorem symm (h : Level w v) : Level v w := ⟨h.toBeside.symm, by rw [h.clock, h.cache]⟩

/-- What is recorded makes no difference. -/
theorem record (h : Level w v) (e : Audit.Event) :
    Level w { v with log := (v.log.record e).2 } :=
  ⟨⟨h.remote, h.limits, h.clock, (v.log.context_record e).trans h.context⟩, h.cache⟩

theorem of_beside {w' v' : World σ τ} (h : Level w v) (hw : Beside w w') (hv : Beside v v')
    (hc : v'.cache.prune w.clock = w'.cache.prune w.clock) : Level w' v' :=
  ⟨(hw.symm.trans h.toBeside).trans hv, by rwa [hw.clock]⟩

theorem forget [Add τ] (h : Level w v) (scope : Scope) :
    Level (World.chore (.forget scope) w).2 (World.chore (.forget scope) v).2 := by
  refine h.of_beside (chore_beside _ w) (chore_beside _ v) ?_
  show (v.cache.forget scope).2.prune w.clock = (w.cache.forget scope).2.prune w.clock
  rw [← forget_prune, ← forget_prune, h.cache]

/-- Sweeping one of the caches makes no difference. -/
theorem prune (h : Level w v) : Level { w with cache := w.cache.prune w.clock } v :=
  ⟨⟨h.remote, h.limits, h.clock, h.context⟩, h.cache.trans (prune_prune le_rfl _).symm⟩

variable [AddCommGroup τ] [IsOrderedAddMonoid τ]

/-- A chore is answered alike, unless it is to tell how many decisions it drops. -/
theorem chore (h : Level w v) (hlast : 0 < w.limits.lifetime) {q : Chore}
    (hq : ∀ scope, q ≠ .forget scope) : (World.chore q v).1 = (World.chore q w).1 ∧
      Level (World.chore q w).2 (World.chore q v).2 := by
  have hleft := chore_beside q w
  have hright := chore_beside q v
  cases q with
  | report e =>
    refine ⟨?_, h.of_beside hleft hright h.cache⟩
    show (v.log.record e).1 = (w.log.record e).1
    rw [v.log.record_reply, w.log.record_reply, h.context]
  | find k =>
    obtain ⟨hreply, hcache⟩ := swept_alike (find_prune k) h.cache
    refine ⟨?_, h.of_beside hleft hright ?_⟩
    · show (v.cache.find v.clock k).1 = (w.cache.find w.clock k).1
      rw [h.clock, hreply]
    · show (v.cache.find v.clock k).2.prune w.clock = (w.cache.find w.clock k).2.prune w.clock
      rw [h.clock, hcache]
  | keep k b =>
    obtain ⟨hreply, hcache⟩ := swept_alike (keep_prune (lt_add_of_pos_right _ hlast) k b) h.cache
    refine ⟨?_, h.of_beside hleft hright ?_⟩
    · show (v.cache.keep v.limits v.clock k b).1 = (w.cache.keep w.limits w.clock k b).1
      rw [h.limits, h.clock, hreply]
    · show (v.cache.keep v.limits v.clock k b).2.prune w.clock =
        (w.cache.keep w.limits w.clock k b).2.prune w.clock
      rw [h.limits, h.clock, hcache]
  | forget scope => exact absurd rfl (hq scope)
  | acquire | release => exact ⟨rfl, h.of_beside hleft hright h.cache⟩

theorem wait (h : Level w v) {t : τ} (ht : 0 ≤ t) : Level (w.advance t) (v.advance t) := by
  have hle : w.clock ≤ w.clock + t := le_add_of_nonneg_right ht
  refine ⟨⟨h.remote, h.limits, congrArg (· + t) h.clock, h.context⟩, ?_⟩
  show v.cache.prune (w.clock + t) = w.cache.prune (w.clock + t)
  rw [← prune_prune hle, h.cache, prune_prune hle]

end Level

end World

end Warrant
