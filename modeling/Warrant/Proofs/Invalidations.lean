import Warrant.Proofs.Subtrees

/-!
# What an invalidation takes away

An invalidation takes the decisions in its scope out of the cache and counts them. What is left stands
in the order in which it stood before, with the same values and the same times (`Cache.get?_forget`,
`Cache.sublist_forget`); a second time nothing is taken (`Cache.forget_again`), and which of two scopes
is dropped first makes no difference (`Cache.forget_comm`). The number is reported before it is answered,
so a context that clashes with the report keeps the answer back, but not the invalidation
(`World.run_removing`).
-/

namespace Warrant

namespace Cache

section Forgetting

variable {τ : Type} {k : Key} {scope : Scope}

/-- The scope means the decision on the key. -/
def Scope.Means : Scope → Key → Prop
  | .key k, j => j = k
  | .entity e, j => j.entity = e
  | .subtree e, j => j.entity = e ∨ j.entity.climbsTo e = true
  | .everything, _ => True

theorem Scope.covers_iff : scope.covers k = true ↔ scope.Means k := by
  cases scope with
  | key j => simp [covers, Means]
  | entity e => simp [covers, Means]
  | subtree e => simp [covers, Means, Entity.climbsTo_eq_isBelow]
  | everything => simp [covers, Means]

theorem sublist_forget (scope : Scope) (c : Cache τ) :
    (c.forget scope).2.slots.entries.Sublist c.slots.entries :=
  List.filter_sublist

theorem size_forget (scope : Scope) (c : Cache τ) :
    (c.forget scope).1 + (c.forget scope).2.size = c.size := by
  have hle : (c.forget scope).2.size ≤ c.size := (sublist_forget scope c).length_le
  exact Nat.sub_add_cancel hle

theorem forget_again (scope : Scope) (c : Cache τ) :
    (c.forget scope).2.forget scope = (0, (c.forget scope).2) := by
  have hsame := forget_forget scope c
  have hsize := size_forget scope (c.forget scope).2
  rw [hsame] at hsize
  exact Prod.ext (by omega) hsame

theorem forget_comm (s t : Scope) (c : Cache τ) :
    ((c.forget s).2.forget t).2 = ((c.forget t).2.forget s).2 := by
  refine congrArg Cache.mk (Table.ext ?_)
  show (c.slots.entries.filter _).filter _ = (c.slots.entries.filter _).filter _
  rw [List.filter_filter, List.filter_filter]
  exact List.filter_congr fun e _ => Bool.and_comm ..

/-- On one key one decision is held, or none. -/
theorem forget_key_le (k : Key) (c : Cache τ) : (c.forget (.key k)).1 ≤ 1 := by
  have hsize := size_forget (.key k) c
  have herase : (c.forget (.key k)).2.slots = c.slots.erase k := by
    simp [forget, Scope.covers, Table.erase]
  rw [size, size, herase] at hsize
  by_cases hk : k ∈ c.slots.keys
  · have := Table.size_erase hk
    omega
  · rw [Table.erase_of_not_mem hk] at hsize
    omega

end Forgetting

section Removing

variable {C : Type} [Remote C]

/-- Drops the decisions in a scope and tells how many there were; that there was one on a key counts as
one. -/
def removing : Scope → Procedure C Nat
  | .key k => do return (← invalidate k).toNat
  | .entity e => invalidateEntity e
  | .subtree e => invalidateSubtree e
  | .everything => clear

/-- What is to be reported of `n` dropped decisions. -/
def Scope.event? (n : Nat) : Scope → Option Audit.Event
  | .key _ => none
  | .entity e | .subtree e => some (.entriesInvalidated e.text n)
  | .everything => some (.cacheCleared n)

/-- What is answered on `n` dropped decisions, and what is recorded: a field that the context and the
report have in common stands in the way of both. -/
def Scope.answer (context : Audit.Context) (n : Nat) (scope : Scope) :
    Except Fault Nat × List Audit.Event :=
  match scope.event? n with
  | none => (.ok n, [])
  | some event =>
    match context.clash? event with
    | none => (.ok n, [event])
    | some field => (.error (.fieldClash field), [])

end Removing

end Cache

namespace World

open Cache

variable {σ τ C : Type} [Remote C] [Server C σ] [Add τ] [LE τ] [DecidableLE τ]

/-- A number is answered once it is reported. -/
theorem run_reported (event : Audit.Event) (n : Nat) (w : World σ τ) :
    run (do
      Procedure.report event
      return n : Procedure C Nat) w =
      match w.log.context.clash? event with
      | none => (.ok n, { w with log := ⟨w.log.context, w.log.events ++ [event]⟩ })
      | some field => (.error (.fieldClash field), w) := by
  rw [run_bind, run_report, Audit.Log.record]
  cases w.log.context.clash? event with
  | none => rfl
  | some field => rfl

/-- An invalidation drops what is in its scope, whether or not it can report the number. -/
theorem run_removing (scope : Scope) (w : World σ τ) :
    run (removing scope : Procedure C Nat) w =
      ((scope.answer w.log.context (w.cache.forget scope).1).1,
        { w with
          cache := (w.cache.forget scope).2
          log := ⟨w.log.context,
            w.log.events ++ (scope.answer w.log.context (w.cache.forget scope).1).2⟩ }) := by
  have hreported : ∀ event : Nat → Audit.Event, (∀ n, scope.event? n = some (event n)) →
      run (do
        let n ← Procedure.ask (.forget scope)
        Procedure.report (event n)
        return n : Procedure C Nat) w =
      ((scope.answer w.log.context (w.cache.forget scope).1).1,
        { w with
          cache := (w.cache.forget scope).2
          log := ⟨w.log.context,
            w.log.events ++ (scope.answer w.log.context (w.cache.forget scope).1).2⟩ }) := by
    intro event hevent
    rw [run_bind, run_ask]
    refine (run_reported (event (w.cache.forget scope).1) (w.cache.forget scope).1
      { w with cache := (w.cache.forget scope).2 }).trans ?_
    cases hclash : w.log.context.clash? (event (w.cache.forget scope).1) with
    | none => simp [Scope.answer, hevent, hclash]
    | some field => simp [Scope.answer, hevent, hclash]
  cases scope with
  | key k =>
    have hflag : (decide (0 < (w.cache.forget (.key k)).1)).toNat = (w.cache.forget (.key k)).1 := by
      rcases Nat.le_one_iff_eq_zero_or_eq_one.mp (forget_key_le k w.cache) with h | h
      · rw [h]
        rfl
      · rw [h]
        rfl
    have hanswer : run (removing (.key k) : Procedure C Nat) w =
        (.ok (decide (0 < (w.cache.forget (.key k)).1)).toNat,
          { w with cache := (w.cache.forget (.key k)).2 }) := rfl
    rw [hanswer, hflag]
    simp [Scope.answer, Scope.event?]
  | entity e => exact hreported (fun n => .entriesInvalidated e.text n) fun _ => rfl
  | subtree e => exact hreported (fun n => .entriesInvalidated e.text n) fun _ => rfl
  | everything => exact hreported (fun n => .cacheCleared n) fun _ => rfl

/-- An invalidation takes exactly the decisions that its scope means, and answers how many these are,
unless the report of it clashes with the context. What stays keeps its value, its time and its place
among the others; nothing else in the world changes but the events. After it the same one finds nothing,
and another one ends in the same cache whichever of the two comes first. -/
theorem invalidation_exact (scope other : Scope) (w : World σ τ) :
    let out := run (removing scope : Procedure C Nat) w
    let again := run (removing scope : Procedure C Nat) out.2
    ∃ n, out.1 = (scope.answer w.log.context n).1 ∧
      out.2.log.events = w.log.events ++ (scope.answer w.log.context n).2 ∧
      n + out.2.cache.size = w.cache.size ∧
      (∀ k slot, out.2.Holds k slot ↔ w.Holds k slot ∧ ¬ scope.Means k) ∧
      out.2.cache.slots.entries.Sublist w.cache.slots.entries ∧
      Beside w out.2 ∧
      again.1 = (scope.answer w.log.context 0).1 ∧ again.2.cache = out.2.cache ∧
      (run (removing other : Procedure C Nat) out.2).2.cache =
        (run (removing scope : Procedure C Nat)
          (run (removing other : Procedure C Nat) w).2).2.cache := by
  intro out again
  have hrun : ∀ (s : Scope) (u : World σ τ), (run (removing s : Procedure C Nat) u).2.cache =
      (u.cache.forget s).2 := fun s u => by rw [run_removing]
  have hout : out = _ := run_removing scope w
  have hcache : out.2.cache = (w.cache.forget scope).2 := hrun scope w
  have hagain : again = _ := run_removing scope out.2
  refine ⟨(w.cache.forget scope).1, ?_, ?_, ?_, fun k slot => ?_, ?_, ?_, ?_, ?_, ?_⟩
  · rw [hout]
  · rw [hout]
  · rw [hcache]
    exact size_forget scope w.cache
  · rw [Holds, hcache, get?_forget, ← Scope.covers_iff, Bool.not_eq_true]
    rfl
  · rw [hcache]
    exact sublist_forget scope w.cache
  · rw [hout]
    exact ⟨rfl, rfl, rfl, rfl⟩
  · rw [hagain, hcache, forget_again, hout]
  · rw [hagain, hcache, forget_again]
  · rw [hrun, hrun, hrun, hrun, forget_comm]

end World

end Warrant
