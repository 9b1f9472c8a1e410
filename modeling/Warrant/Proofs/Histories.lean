import Mathlib
import Warrant.Proofs.Keeping

/-!
# What a cache holds, read off its past

The past of a cache is the list of what was looked up, stored and dropped, the latest note first. It
says which decision counts on a key (`Cache.served`), which keys were used last (`Cache.recent`) and
which decision has to make room for another one (`Cache.displaced`). A cache that accords with its
past serves and evicts what the past says (`Accords.find`, `Accords.keep`), whatever expired
decisions it still holds and whenever these are swept out (`Accords.prune`).
-/

namespace Warrant

namespace Table

variable {κ ν : Type} {t : Table κ ν}

theorem keys_filter_sublist (p : κ × ν → Bool) : (t.filter p).keys.Sublist t.keys :=
  List.filter_sublist.map _

variable [DecidableEq κ]

theorem keys_putLast (k : κ) (v : ν) :
    (t.putLast k v).keys = (t.keys.filter fun j => decide (j ≠ k)) ++ [k] := by
  rw [← keys_erase]
  exact List.map_append

theorem size_putLast (k : κ) (v : ν) : (t.putLast k v).size = (t.erase k).size + 1 := by
  simp [putLast, size]

/-- A value is found without the oldest entries exactly when its key is not one of theirs. -/
theorem get?_drop (n : Nat) (k : κ) :
    (t.drop n).get? k = if k ∈ t.keys.take n then none else t.get? k := by
  apply Option.ext
  intro v
  have hsplit : (k, v) ∈ t.entries ↔ (k, v) ∈ t.entries.take n ∨ (k, v) ∈ t.entries.drop n := by
    rw [← List.mem_append, List.take_append_drop]
  have hfront : (k, v) ∈ t.entries.take n → k ∈ t.keys.take n := fun h => by
    rw [keys, ← List.map_take]
    exact List.mem_map_of_mem h
  have hback : (k, v) ∈ t.entries.drop n → k ∉ t.keys.take n := fun h hk => by
    have hd : (t.keys.take n ++ t.keys.drop n).Nodup := by
      rw [List.take_append_drop]
      exact t.nodup
    refine (List.nodup_append.mp hd).2.2 k hk k ?_ rfl
    rw [keys, ← List.map_drop]
    exact List.mem_map_of_mem h
  rw [get?_eq_some_iff]
  show (k, v) ∈ t.entries.drop n ↔ _
  split
  · rename_i hk
    exact ⟨fun h => absurd hk (hback h), by simp⟩
  · rename_i hk
    rw [get?_eq_some_iff, hsplit]
    exact ⟨.inr, fun h => h.resolve_left fun h => hk (hfront h)⟩

end Table

namespace Cache

/-- What is on record of a cache. -/
inductive Note (τ : Type)
  /-- A look-up, the decision that counted on its key, and the time. -/
  | looked (k : Key) (found : Option Bool) (time : τ)
  /-- A load that has answered, the other keys that lost their decision then, and the time. -/
  | stored (k : Key) (allowed : Bool) (evicted : List Key) (time : τ)
  | dropped (scope : Scope)
  deriving DecidableEq

variable {τ : Type} {k j : Key}

namespace Note

/-- After the note an older decision on the key counts no longer: it was replaced, evicted or
dropped. -/
def ends (k : Key) : Note τ → Bool
  | looked .. => false
  | stored j _ evicted _ => decide (k = j) || decide (k ∈ evicted)
  | dropped scope => scope.covers k

/-- The key whose decision was used: stored, or there when it was looked up. -/
def used : Note τ → Option Key
  | looked k (some _) _ => some k
  | looked _ none _ => none
  | stored k _ _ _ => some k
  | dropped _ => none

end Note

/-! ### What the past says -/

/-- The decision that was stored on a key and not ended since, with the time of the store. -/
def kept (k : Key) : List (Note τ) → Option (Bool × τ)
  | [] => none
  | .stored j allowed evicted time :: older =>
    if k = j then some (allowed, time) else if k ∈ evicted then none else kept k older
  | .dropped scope :: older => if scope.covers k then none else kept k older
  | .looked .. :: older => kept k older

/-- The keys that were used, the latest use first. -/
def recent : List (Note τ) → List Key
  | [] => []
  | n :: older =>
    match n.used with
    | some k => k :: (recent older).filter fun j => decide (j ≠ k)
    | none => recent older

/-- A decision is kept exactly if nothing has ended it since the last store. -/
theorem kept_eq_some_iff {past : List (Note τ)} {b : Bool} {t : τ} : kept k past = some (b, t) ↔
    ∃ newer evicted older, past = newer ++ .stored k b evicted t :: older ∧
      ∀ n ∈ newer, n.ends k = false := by
  induction past with
  | nil => simp [kept]
  | cons n past ih =>
    -- the store is the first note, or it comes later and the first note ends nothing
    have hcons : (∃ newer evicted older, n :: past = newer ++ .stored k b evicted t :: older ∧
          ∀ m ∈ newer, m.ends k = false) ↔ (∃ evicted, n = .stored k b evicted t) ∨
        (n.ends k = false ∧ kept k past = some (b, t)) := by
      rw [ih]
      constructor
      · rintro ⟨newer, evicted, older, hp, hn⟩
        cases newer with
        | nil => exact .inl ⟨evicted, (List.cons.inj hp).1⟩
        | cons m newer =>
          obtain ⟨rfl, rfl⟩ := List.cons.inj (hp.trans (List.cons_append ..))
          exact .inr ⟨hn n (.head _), newer, evicted, older, rfl, fun m hm => hn m (.tail _ hm)⟩
      · rintro (⟨evicted, rfl⟩ | ⟨hn, newer, evicted, older, rfl, hnewer⟩)
        · exact ⟨[], evicted, past, rfl, by simp⟩
        · exact ⟨n :: newer, evicted, older, rfl, List.forall_mem_cons.mpr ⟨hn, hnewer⟩⟩
    rw [hcons]
    cases n with
    | looked => simp [kept, Note.ends]
    | stored j allowed evicted time => by_cases hj : k = j <;> simp [kept, Note.ends, hj, eq_comm]
    | dropped scope => simp [kept, Note.ends]

theorem nodup_recent (past : List (Note τ)) : (recent past).Nodup := by
  induction past with
  | nil => exact List.nodup_nil
  | cons n past ih =>
    rw [recent]
    cases n.used with
    | none => exact ih
    | some k => exact List.nodup_cons.mpr ⟨by simp, ih.filter _⟩

theorem mem_recent_iff {past : List (Note τ)} : k ∈ recent past ↔ ∃ n ∈ past, n.used = some k := by
  induction past with
  | nil => simp [recent]
  | cons n past ih =>
    rw [recent]
    cases hn : n.used with
    | none => simp [ih, hn]
    | some j => by_cases hj : k = j <;> simp [ih, hn, hj, eq_comm]

theorem mem_recent_of_kept {past : List (Note τ)} {b : Bool} {t : τ}
    (h : kept k past = some (b, t)) : k ∈ recent past := by
  obtain ⟨newer, evicted, older, rfl, -⟩ := kept_eq_some_iff.mp h
  exact mem_recent_iff.mpr ⟨.stored k b evicted t, by simp, rfl⟩

/-- Before a key stand the keys that were used after its last use. -/
theorem recent_split {past : List (Note τ)} (h : k ∈ recent past) :
    ∃ newer use older rest, past = newer ++ use :: older ∧ use.used = some k ∧
      k ∉ recent newer ∧ recent past = recent newer ++ k :: rest := by
  induction past with
  | nil => simp [recent] at h
  | cons n past ih =>
    cases hn : n.used with
    | none =>
      simp only [recent, hn] at h
      obtain ⟨newer, use, older, rest, rfl, hu, hk, hr⟩ := ih h
      refine ⟨n :: newer, use, older, rest, rfl, hu, ?_, ?_⟩ <;> simpa only [recent, hn]
    | some j =>
      by_cases hj : k = j
      · subst hj
        refine ⟨[], n, past, (recent past).filter fun j => decide (j ≠ k), rfl, hn, by simp [recent], ?_⟩
        simp only [recent, hn, List.nil_append]
      · have hk : k ∈ recent past := by simpa [recent, hn, hj] using h
        obtain ⟨newer, use, older, rest, rfl, hu, hk, hr⟩ := ih hk
        refine ⟨n :: newer, use, older, rest.filter fun i => decide (i ≠ j), rfl, hu, ?_, ?_⟩
        · simp [recent, hn, hj, hk]
        · simp only [List.cons_append, recent, hn, hr, List.filter_append]
          rw [List.filter_cons_of_pos (by simpa using hj)]

/-- Of the keys that pass a test, the last one is the one that was used least recently. -/
theorem least_recent {past : List (Note τ)} {p : Key → Bool}
    (h : ((recent past).filter p).getLast? = some k) :
    ∃ newer use older, past = newer ++ use :: older ∧ use.used = some k ∧
      k ∉ recent newer ∧ ∀ j ∈ recent past, p j = true → j ≠ k → j ∈ recent newer := by
  obtain ⟨hin, hp⟩ := List.mem_filter.mp (List.mem_of_getLast? h)
  obtain ⟨newer, use, older, rest, hpast, hu, hnew, hr⟩ := recent_split hin
  refine ⟨newer, use, older, hpast, hu, hnew, fun j hj hpj hjk => ?_⟩
  have hrest : k ∉ rest := by
    have hnodup := nodup_recent past
    rw [hr, List.nodup_append] at hnodup
    exact (List.nodup_cons.mp hnodup.2.1).1
  rw [hr, List.mem_append, List.mem_cons] at hj
  rcases hj with hj | rfl | hj
  · exact hj
  · exact absurd rfl hjk
  · -- a key behind it would be the last one, or have the last one behind it
    have hne : rest.filter p ≠ [] := List.ne_nil_of_mem (List.mem_filter.mpr ⟨hj, hpj⟩)
    rw [hr, List.filter_append, List.filter_cons_of_pos hp, List.getLast?_append,
      List.getLast?_cons_of_ne_nil hne, Option.or_of_isSome (by simpa using hne)] at h
    exact absurd (List.mem_filter.mp (List.mem_of_getLast? h)).1 hrest

variable [Add τ] [LinearOrder τ] {limits : Limits τ} {now : τ} {past : List (Note τ)}

/-- The decision that counts on a key. -/
def served (limits : Limits τ) (now : τ) (past : List (Note τ)) (k : Key) : Option Bool :=
  (kept k past).bind fun (allowed, time) =>
    if now < time + limits.lifetime then some allowed else none

/-- The keys with a decision that counts, the latest use first. -/
def live (limits : Limits τ) (now : τ) (past : List (Note τ)) : List Key :=
  (recent past).filter fun k => (served limits now past k).isSome

/-- The keys but the given one with a decision that counts, the latest use first. -/
def rivals (limits : Limits τ) (now : τ) (past : List (Note τ)) (k : Key) : List Key :=
  (live limits now past).filter fun j => decide (j ≠ k)

/-- What makes room for a decision on the key: the least recently used one of the others that count,
if there are as many of them as there may be decisions. -/
def displaced (limits : Limits τ) (now : τ) (past : List (Note τ)) (k : Key) : List Key :=
  if (rivals limits now past k).length < limits.maxEntries then []
  else (rivals limits now past k).getLast?.toList

theorem served_eq_some_iff {b : Bool} : served limits now past k = some b ↔
    ∃ t, kept k past = some (b, t) ∧ now < t + limits.lifetime := by
  rw [served]
  cases kept k past with
  | none => simp
  | some e => simp [eq_comm, and_comm, Prod.ext_iff]

/-- After a store its decision counts, and those that made room for it do not. -/
theorem served_stored (hlast : now < now + limits.lifetime) (b : Bool) (evicted : List Key) :
    served limits now (.stored k b evicted now :: past) j =
      if j = k then some b else if j ∈ evicted then none else served limits now past j := by
  rw [served, kept]
  split
  · simp [hlast]
  · split
    · rfl
    · rfl

theorem mem_live_iff : k ∈ live limits now past ↔ ∃ b, served limits now past k = some b := by
  rw [live, List.mem_filter, Option.isSome_iff_exists, and_iff_right_iff_imp]
  rintro ⟨b, hb⟩
  obtain ⟨t, ht, -⟩ := served_eq_some_iff.mp hb
  exact mem_recent_of_kept ht

theorem mem_rivals_iff : j ∈ rivals limits now past k ↔
    (∃ b, served limits now past j = some b) ∧ j ≠ k := by
  rw [rivals, List.mem_filter, mem_live_iff, decide_eq_true_iff]

/-- The keys that made room for a decision on `k` are chosen by the rules. At most one goes; one goes
exactly if more decisions would count than there may be; and it is one of the others that count, all
of which were used after its last use. -/
structure Evicts (limits : Limits τ) (now : τ) (past : List (Note τ)) (k : Key)
    (evicted : List Key) : Prop where
  one : evicted.length ≤ 1
  full : evicted ≠ [] ↔ limits.maxEntries < (rivals limits now past k).length + 1
  other : ∀ j ∈ evicted, j ≠ k
  counts : ∀ j ∈ evicted, ∃ b, served limits now past j = some b
  oldest : ∀ j ∈ evicted, ∃ newer use older, past = newer ++ use :: older ∧ use.used = some j ∧
    (∀ n ∈ newer, n.used ≠ some j) ∧
    ∀ i ∈ rivals limits now past k, i ≠ j → ∃ n ∈ newer, n.used = some i

theorem evicts_displaced (hroom : 0 < limits.maxEntries) (now : τ) (past : List (Note τ)) (k : Key) :
    Evicts limits now past k (displaced limits now past k) := by
  rw [displaced]
  split
  · rename_i hlt
    exact ⟨by simp, by simp; omega, by simp, by simp, by simp⟩
  · rename_i hge
    obtain ⟨j, hj⟩ : ∃ j, (rivals limits now past k).getLast? = some j := by
      rw [← Option.isSome_iff_exists, List.getLast?_isSome, ← List.length_pos_iff]
      omega
    have hin := List.mem_of_getLast? hj
    rw [hj, Option.toList_some]
    refine ⟨by simp, by simp; omega, ?_, ?_, ?_⟩
    · simpa using (mem_rivals_iff.mp hin).2
    · simpa using (mem_rivals_iff.mp hin).1
    rw [List.forall_mem_singleton]
    rw [rivals, live, List.filter_filter] at hj
    obtain ⟨newer, use, older, hp, hu, hnew, hrest⟩ := least_recent hj
    refine ⟨newer, use, older, hp, hu, fun n hn h => hnew (mem_recent_iff.mpr ⟨n, hn, h⟩), ?_⟩
    intro i hi hij
    rw [rivals, live, List.filter_filter, List.mem_filter] at hi
    exact mem_recent_iff.mp (hrest i hi.1 hi.2 hij)

/-! ### Caches and their past -/

section Counting

variable {τ : Type} [LE τ] [DecidableLE τ]

/-- The decision that a cache holds on a key, if it was made and has not expired. -/
def counted (now : τ) (k : Key) (c : Cache τ) : Option Bool :=
  (c.slots.get? k).bind fun slot => if slot.expires ≤ now then none else slot.allowed

/-- The keys on which a decision counts in the first cache, but none in the second one. -/
def lost (now : τ) (c d : Cache τ) : List Key :=
  c.slots.keys.filter fun k => (c.counted now k).isSome && (d.counted now k).isNone

/-- A look-up finds the decision that counts. -/
theorem found_eq_counted (now : τ) (k : Key) (c : Cache τ) : (c.find now k).1 = c.counted now k := by
  rw [find, counted]
  cases c.slots.get? k with
  | none => rfl
  | some slot =>
    show (if slot.isExpired now = true then (none, _) else (slot.allowed, _)).1 = _
    by_cases hx : slot.expires ≤ now
    · simp [Slot.isExpired, hx]
    · simp [Slot.isExpired, hx]

end Counting

/-- The cache holds what its past says, and maybe expired decisions besides; it lists them in the
order of their last use. -/
structure Accords (limits : Limits τ) (now : τ) (c : Cache τ) (past : List (Note τ)) : Prop where
  backed : ∀ k slot, c.slots.get? k = some slot →
    ∃ b t, kept k past = some (b, t) ∧ slot = ⟨some b, t + limits.lifetime⟩
  held : ∀ k b t, kept k past = some (b, t) → now < t + limits.lifetime →
    c.slots.get? k = some ⟨some b, t + limits.lifetime⟩
  order : c.slots.keys.reverse.Sublist (recent past)
  room : c.size ≤ limits.maxEntries

variable {c : Cache τ}

section Parts

omit [Add τ]

theorem get?_prune {slot : Slot τ} : (c.prune now).slots.get? k = some slot ↔
    c.slots.get? k = some slot ∧ slot.isExpired now = false := by
  rw [prune, Table.get?_filter, Option.filter_eq_some_iff]
  simp

theorem prune_putLast {slot : Slot τ} (h : slot.isExpired now = false) :
    prune now ⟨c.slots.putLast k slot⟩ = ⟨(c.prune now).slots.putLast k slot⟩ := by
  have herase : (c.slots.erase k).entries.filter (fun entry => !entry.2.isExpired now) =
      ((c.prune now).slots.erase k).entries := by
    simp only [prune, Table.erase, Table.filter, List.filter_filter, Bool.and_comm]
  simp only [prune, Table.putLast, Table.filter, List.filter_append] at herase ⊢
  simp [herase, h]

theorem find_absent (h : c.slots.get? k = none) : c.find now k = (none, c) := by
  rw [find, h]

theorem find_expired {slot : Slot τ} (h : c.slots.get? k = some slot)
    (hx : slot.isExpired now = true) : c.find now k = (none, ⟨c.slots.erase k⟩) := by
  simp [find, h, hx]

theorem find_counting {slot : Slot τ} (h : c.slots.get? k = some slot)
    (hx : slot.isExpired now = false) :
    c.find now k = (slot.allowed, ⟨c.slots.putLast k slot⟩) := by
  simp [find, h, hx]

theorem isExpired_iff {b : Option Bool} {t : τ} :
    Slot.isExpired now ⟨b, t⟩ = true ↔ ¬ now < t := by
  rw [Slot.isExpired, decide_eq_true_iff, not_lt]

theorem not_isExpired_iff {b : Option Bool} {t : τ} :
    Slot.isExpired now ⟨b, t⟩ = false ↔ now < t := by
  rw [← Bool.not_eq_true, isExpired_iff, not_not]

end Parts

/-- A store writes the decision as the newest one and drops the oldest ones, from a cache that is
swept first if it is too small. -/
theorem keep_eq (k : Key) (b : Option Bool) (hlast : now < now + limits.lifetime) :
    c.keep limits now k b =
      let d := if limits.maxEntries < (c.slots.erase k).size + 1 then c.prune now else c
      let t := d.slots.putLast k ⟨b, now + limits.lifetime⟩
      let n := (d.slots.erase k).size + 1 - limits.maxEntries
      (t.keys.take n, ⟨t.drop n⟩) := by
  rw [keep]
  simp only [size, Table.size_putLast]
  split
  · rw [prune_putLast (not_isExpired_iff.mpr hlast), Table.size_putLast]
  · rw [Table.size_putLast]

theorem accords_empty (limits : Limits τ) (now : τ) : Accords limits now .empty [] :=
  ⟨fun _ _ h => by simp [empty] at h, fun _ _ _ h => by simp [kept] at h, .refl [], Nat.zero_le _⟩

namespace Accords

/-- A decision counts exactly if it is held and has not expired. -/
theorem served_iff (h : Accords limits now c past) {b : Bool} : served limits now past k = some b ↔
    ∃ slot, c.slots.get? k = some slot ∧ slot.allowed = some b ∧ slot.isExpired now = false := by
  rw [served_eq_some_iff]
  constructor
  · rintro ⟨t, hk, ht⟩
    exact ⟨_, h.held k b t hk ht, rfl, not_isExpired_iff.mpr ht⟩
  · rintro ⟨slot, hs, ha, hx⟩
    obtain ⟨b', t, hk, rfl⟩ := h.backed k slot hs
    cases ha
    exact ⟨t, hk, not_isExpired_iff.mp hx⟩

/-- A look-up finds what counts. -/
theorem found_eq (h : Accords limits now c past) (k : Key) :
    (c.find now k).1 = served limits now past k := by
  apply Option.ext
  intro b
  rw [h.served_iff]
  constructor
  · intro hb
    obtain ⟨slot, hs, -, ha, hx⟩ := get?_of_found hb
    exact ⟨slot, hs, ha, hx⟩
  · rintro ⟨slot, hs, ha, hx⟩
    rw [find_counting hs hx, ha]

theorem counted_eq (h : Accords limits now c past) (k : Key) :
    c.counted now k = served limits now past k := by
  rw [← found_eq_counted, h.found_eq]

theorem wait (h : Accords limits now c past) {later : τ} (hle : now ≤ later) :
    Accords limits later c past :=
  ⟨h.backed, fun k b t hk ht => h.held k b t hk (lt_of_le_of_lt hle ht), h.order, h.room⟩

/-- Dropping expired decisions changes nothing that the past tells of. -/
theorem prune (h : Accords limits now c past) : Accords limits now (c.prune now) past :=
  ⟨fun k slot hk => h.backed k slot (get?_prune.mp hk).1,
    fun k b t hk ht => get?_prune.mpr ⟨h.held k b t hk ht, not_isExpired_iff.mpr ht⟩,
    (Table.keys_filter_sublist _).reverse.trans h.order,
    Nat.le_trans (List.length_filter_le ..) h.room⟩

theorem forget (h : Accords limits now c past) (scope : Scope) :
    Accords limits now (c.forget scope).2 (.dropped scope :: past) := by
  refine ⟨fun k slot hk => ?_, fun k b t hk ht => ?_, ?_, ?_⟩
  · obtain ⟨hk, hs⟩ := get?_forget.mp hk
    simpa [kept, hs] using h.backed k slot hk
  · by_cases hs : scope.covers k
    · simp [kept, hs] at hk
    · rw [kept, if_neg hs] at hk
      exact get?_forget.mpr ⟨h.held k b t hk ht, by simpa using hs⟩
  · exact (Table.keys_filter_sublist _).reverse.trans h.order
  · exact Nat.le_trans (List.length_filter_le ..) h.room

/-- With a key used, the keys stand in the order of their last use again. -/
theorem order_putLast (h : Accords limits now c past) (slot : Slot τ) :
    (c.slots.putLast k slot).keys.reverse.Sublist
      (k :: (recent past).filter fun j => decide (j ≠ k)) := by
  rw [Table.keys_putLast, List.reverse_append, ← List.filter_reverse]
  exact (h.order.filter _).cons_cons k

theorem find (h : Accords limits now c past) (k : Key) :
    Accords limits now (c.find now k).2 (.looked k (c.find now k).1 now :: past) := by
  cases hs : c.slots.get? k with
  | none =>
    rw [find_absent hs]
    exact ⟨h.backed, h.held, h.order, h.room⟩
  | some slot =>
    obtain ⟨b, t, hk, rfl⟩ := h.backed k slot hs
    by_cases ht : now < t + limits.lifetime
    · have hsame : ∀ j, (c.slots.putLast k ⟨some b, t + limits.lifetime⟩).get? j =
          c.slots.get? j := fun j => by
        rw [Table.get?_putLast]
        split
        · rename_i hj; rw [hj, hs]
        · rfl
      rw [find_counting hs (not_isExpired_iff.mpr ht)]
      refine ⟨fun j slot hj => h.backed j slot (hsame j ▸ hj),
        fun j b t hj ht => (hsame j).trans (h.held j b t hj ht), h.order_putLast _, ?_⟩
      have hlt := Nat.le_of_eq (Table.size_erase (Table.mem_keys_iff.mpr ⟨_, hs⟩))
      exact Nat.le_trans (Nat.le_of_eq (Table.size_putLast ..)) (Nat.le_trans hlt h.room)
    · rw [find_expired hs (isExpired_iff.mpr ht)]
      refine ⟨fun j slot hj => ?_, fun j b' t' hj ht' => ?_, ?_, ?_⟩
      · rw [Table.get?_erase] at hj
        split at hj
        · cases hj
        · exact h.backed j slot hj
      · have hjk : j ≠ k := fun hjk => by
          subst hjk
          obtain ⟨rfl, rfl⟩ := Prod.mk.inj (Option.some.inj (hk.symm.trans hj))
          exact ht ht'
        rw [Table.get?_erase, if_neg hjk]
        exact h.held j b' t' hj ht'
      · exact (Table.keys_filter_sublist _).reverse.trans h.order
      · exact Nat.le_trans (List.length_filter_le ..) h.room

/-- A decision is written as the newest one while the `n` oldest ones go. -/
theorem store (h : Accords limits now c past) (k : Key) (b : Bool) {n : Nat}
    (hn : n ≤ (c.slots.erase k).size) (hroom : (c.slots.erase k).size + 1 - n ≤ limits.maxEntries) :
    Accords limits now ⟨(c.slots.putLast k ⟨some b, now + limits.lifetime⟩).drop n⟩
      (.stored k b ((c.slots.putLast k ⟨some b, now + limits.lifetime⟩).keys.take n) now ::
        past) := by
  set t := c.slots.putLast k ⟨some b, now + limits.lifetime⟩ with ht
  have hkeys : t.keys = (c.slots.erase k).keys ++ [k] := by rw [Table.keys_erase, ht, Table.keys_putLast]
  have hk : k ∉ t.keys.take n := fun hk => by
    rw [hkeys, List.take_append_of_le_length (by rwa [Table.length_keys])] at hk
    exact Table.not_mem_keys_erase _ _ (List.mem_of_mem_take hk)
  refine ⟨fun j slot hj => ?_, fun j b' t' hj ht' => ?_, ?_, ?_⟩
  · rw [Table.get?_drop] at hj
    split at hj
    · cases hj
    · rename_i hout
      rw [ht, Table.get?_putLast] at hj
      split at hj
      · rename_i hjk
        cases hj
        exact ⟨b, now, by rw [kept, if_pos hjk], rfl⟩
      · rename_i hjk
        rw [kept, if_neg hjk, if_neg hout]
        exact h.backed j slot hj
  · rw [Table.get?_drop]
    rw [kept] at hj
    split at hj
    · rename_i hjk
      subst hjk
      cases hj
      rw [if_neg hk, ht, Table.get?_putLast, if_pos rfl]
    · rename_i hjk
      split at hj
      · cases hj
      · rename_i hout
        rw [if_neg hout, ht, Table.get?_putLast, if_neg hjk]
        exact h.held j b' t' hj ht'
  · refine List.Sublist.trans (List.Sublist.reverse ?_) (h.order_putLast ⟨some b, now + limits.lifetime⟩)
    exact (List.drop_sublist ..).map _
  · refine Nat.le_trans (Nat.le_of_eq ?_) hroom
    have := congrArg List.length hkeys
    simp only [Table.length_keys, List.length_append, List.length_singleton] at this
    rw [size, Table.size, Table.drop, List.length_drop, ← Table.size, this]

/-- The past lists what counts in the order of its last use. -/
theorem live_eq (h : Accords limits now c past) :
    live limits now past = (c.prune now).slots.keys.reverse := by
  refine ((nodup_recent past).perm_iff_eq_of_sublist List.filter_sublist h.prune.order).mp ?_
  refine (List.perm_ext_iff_of_nodup ((nodup_recent past).filter _)
    (List.reverse_perm _ |>.nodup_iff.mpr (c.prune now).slots.nodup)).mpr fun k => ?_
  show k ∈ live limits now past ↔ k ∈ (c.prune now).slots.keys.reverse
  simp only [mem_live_iff, h.served_iff, List.mem_reverse, Table.mem_keys_iff, get?_prune]
  constructor
  · rintro ⟨b, slot, hs, -, hx⟩
    exact ⟨slot, hs, hx⟩
  · rintro ⟨slot, hs, hx⟩
    obtain ⟨b, t, -, rfl⟩ := h.backed k slot hs
    exact ⟨b, _, hs, rfl, hx⟩

theorem rivals_eq (h : Accords limits now c past) (k : Key) :
    rivals limits now past k = ((c.prune now).slots.erase k).keys.reverse := by
  rw [rivals, h.live_eq, Table.keys_erase, List.filter_reverse]

/-- A store makes room by the rules. -/
theorem keep (h : Accords limits now c past) (hroom : 0 < limits.maxEntries)
    (hlast : now < now + limits.lifetime) (k : Key) (b : Bool) :
    (c.keep limits now k (some b)).1 = displaced limits now past k ∧
    Accords limits now (c.keep limits now k (some b)).2
      (.stored k b (c.keep limits now k (some b)).1 now :: past) := by
  have hle : (c.slots.erase k).size ≤ limits.maxEntries :=
    Nat.le_trans (List.length_filter_le ..) h.room
  have hrivals : (rivals limits now past k).length = ((c.prune now).slots.erase k).size := by
    rw [h.rivals_eq, List.length_reverse, Table.length_keys]
  have hfewer : ((c.prune now).slots.erase k).size ≤ (c.slots.erase k).size := by
    rw [← Table.length_keys, ← Table.length_keys, Table.keys_erase, Table.keys_erase]
    exact ((Table.keys_filter_sublist _).filter _).length_le
  rw [displaced, hrivals, h.rivals_eq, List.getLast?_reverse]
  by_cases hfull : limits.maxEntries < (c.slots.erase k).size + 1
  · rw [keep_eq k _ hlast, if_pos hfull]
    refine ⟨?_, h.prune.store k b (by omega) (by omega)⟩
    dsimp only
    rw [Table.keys_putLast, ← Table.keys_erase]
    split
    · rename_i hlt
      rw [Nat.sub_eq_zero_of_le (by omega), List.take_zero]
    · rename_i hge
      rw [show ((c.prune now).slots.erase k).size + 1 - limits.maxEntries = 1 by omega]
      cases hkeys : ((c.prune now).slots.erase k).keys with
      | nil =>
        rw [← Table.length_keys, hkeys] at hge
        exact absurd hroom hge
      | cons j rest => rfl
  · rw [keep_eq k _ hlast, if_neg hfull, if_pos (by omega)]
    refine ⟨?_, h.store k b (by omega) (by omega)⟩
    dsimp only
    rw [Nat.sub_eq_zero_of_le (by omega), List.take_zero]

/-- What is lost by a store is what makes room for it. -/
theorem lost_keep (h : Accords limits now c past) (hroom : 0 < limits.maxEntries)
    (hlast : now < now + limits.lifetime) (k : Key) (b : Bool) :
    c.lost now (c.keep limits now k (some b)).2 = displaced limits now past k := by
  obtain ⟨hevicted, haccords⟩ := h.keep hroom hlast k b
  rw [hevicted] at haccords
  have hevicts := evicts_displaced hroom now past k
  generalize displaced limits now past k = evicted at haccords hevicts
  have hnodup : (c.lost now (c.keep limits now k (some b)).2).Nodup := c.slots.nodup.filter _
  have hmem : ∀ j, j ∈ c.lost now (c.keep limits now k (some b)).2 ↔ j ∈ evicted := by
    intro j
    rw [lost, List.mem_filter, h.counted_eq, haccords.counted_eq, served_stored hlast]
    constructor
    · rintro ⟨-, hlost⟩
      by_contra hj
      by_cases hjk : j = k
      · simp [hjk] at hlost
      · cases hs : served limits now past j <;> simp [hjk, hj, hs] at hlost
    · intro hj
      obtain ⟨d, hd⟩ := hevicts.counts j hj
      obtain ⟨slot, hslot, -⟩ := h.served_iff.mp hd
      refine ⟨Table.mem_keys_iff.mpr ⟨slot, hslot⟩, ?_⟩
      rw [if_neg (hevicts.other j hj), if_pos hj, hd]
      rfl
  match evicted, hevicts.one with
  | [], _ => exact List.eq_nil_iff_forall_not_mem.mpr fun j hj => List.not_mem_nil ((hmem j).mp hj)
  | [j], _ =>
    have hperm := (List.perm_ext_iff_of_nodup hnodup (List.nodup_singleton j)).mpr hmem
    exact List.perm_singleton.mp hperm

end Accords

end Cache

end Warrant
