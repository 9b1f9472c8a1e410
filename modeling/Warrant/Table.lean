/-!
# Tables

A `Table` gives each of its keys one value and lists the keys in the order in which they came in.
`get?_put`, `get?_erase` and `get?_filter` say what each operation does to the look-up.
-/

namespace Warrant

/-- A finite map that remembers the order in which its keys came in. -/
structure Table (κ ν : Type) where
  entries : List (κ × ν)
  nodup : (entries.map Prod.fst).Nodup

namespace Table

variable {κ ν : Type}

/-- Two tables are equal when they list the same entries in the same order. -/
@[ext] theorem ext {s t : Table κ ν} (h : s.entries = t.entries) : s = t := by
  cases s; cases t; cases h; rfl

instance [DecidableEq κ] [DecidableEq ν] : DecidableEq (Table κ ν) := fun s t =>
  decidable_of_iff (s.entries = t.entries) ⟨ext, fun h => h ▸ rfl⟩

def empty : Table κ ν := ⟨[], List.nodup_nil⟩

instance : Inhabited (Table κ ν) := ⟨empty⟩

/-- The keys, the oldest first. -/
def keys (t : Table κ ν) : List κ := t.entries.map Prod.fst

def values (t : Table κ ν) : List ν := t.entries.map Prod.snd

def size (t : Table κ ν) : Nat := t.entries.length

/-- The entries that satisfy `p`, in the same order. -/
def filter (p : κ × ν → Bool) (t : Table κ ν) : Table κ ν :=
  ⟨t.entries.filter p, t.nodup.sublist (List.filter_sublist.map _)⟩

/-- The table without its `n` oldest entries. -/
def drop (n : Nat) (t : Table κ ν) : Table κ ν :=
  ⟨t.entries.drop n, t.nodup.sublist ((List.drop_sublist n _).map _)⟩

/-- Every value replaced by its image. -/
def mapValues {μ : Type} (f : ν → μ) (t : Table κ ν) : Table κ μ :=
  ⟨t.entries.map fun e => (e.1, f e.2), by simpa [Function.comp_def] using t.nodup⟩

variable [DecidableEq κ]

/-- The value of a key, if the table has the key. -/
def get? (t : Table κ ν) (k : κ) : Option ν :=
  (t.entries.find? fun e => decide (e.1 = k)).map Prod.snd

def contains (t : Table κ ν) (k : κ) : Bool := decide (k ∈ t.keys)

def erase (t : Table κ ν) (k : κ) : Table κ ν := t.filter fun e => decide (e.1 ≠ k)

theorem not_mem_keys_erase (t : Table κ ν) (k : κ) : k ∉ (t.erase k).keys := by
  simp [erase, filter, keys]

/-- The table with the entry as its newest one, whatever the place of the key was. -/
def putLast (t : Table κ ν) (k : κ) (v : ν) : Table κ ν :=
  ⟨(t.erase k).entries ++ [(k, v)], by
    rw [List.map_append, List.nodup_append]
    refine ⟨(t.erase k).nodup, by simp, ?_⟩
    intro a ha b hb
    obtain rfl : b = k := by simpa using hb
    exact fun h => not_mem_keys_erase t b (h ▸ ha)⟩

/-- The table with the value at the key, which keeps its place if it has one. -/
def put (t : Table κ ν) (k : κ) (v : ν) : Table κ ν :=
  if t.contains k then
    ⟨t.entries.map fun e => if e.1 = k then (k, v) else e, by
      have : (t.entries.map fun e => if e.1 = k then (k, v) else e).map Prod.fst =
          t.entries.map Prod.fst := by
        rw [List.map_map]
        refine List.map_congr_left fun e _ => ?_
        simp only [Function.comp_apply]
        split
        · rename_i h; exact h.symm
        · rfl
      rw [this]; exact t.nodup⟩
  else t.putLast k v

/-- The table with the value of a key that it has changed by `f`. -/
def modify (t : Table κ ν) (k : κ) (f : ν → ν) : Table κ ν :=
  match t.get? k with
  | some v => t.put k (f v)
  | none => t

/-- The table of the entries, where of two entries with one key the later value holds. -/
def ofList (entries : List (κ × ν)) : Table κ ν :=
  entries.foldl (fun t e => t.put e.1 e.2) empty

/-- The first table with every entry of the second one put into it. -/
def merge (s t : Table κ ν) : Table κ ν :=
  t.entries.foldl (fun t e => t.put e.1 e.2) s

/-! ### Look-up -/

theorem get?_eq_some_iff {t : Table κ ν} {k : κ} {v : ν} :
    t.get? k = some v ↔ (k, v) ∈ t.entries := by
  obtain ⟨entries, nodup⟩ := t
  simp only [get?, Option.map_eq_some_iff, Prod.exists, exists_eq_right]
  induction entries with
  | nil => simp
  | cons e rest ih =>
    obtain ⟨a, b⟩ := e
    have hn := List.nodup_cons.mp nodup
    rw [List.find?_cons]
    by_cases h : a = k
    · subst h
      have : (a, v) ∉ rest := fun hv => hn.1 (List.mem_map.mpr ⟨_, hv, rfl⟩)
      simp [this, eq_comm]
    · simp [h, ih hn.2, Ne.symm h]

theorem mem_keys_iff {t : Table κ ν} {k : κ} : k ∈ t.keys ↔ ∃ v, t.get? k = some v := by
  simp [keys, get?_eq_some_iff]

theorem get?_eq_none_iff {t : Table κ ν} {k : κ} : t.get? k = none ↔ k ∉ t.keys := by
  rw [mem_keys_iff]
  cases t.get? k <;> simp

@[simp] theorem get?_empty (k : κ) : (empty : Table κ ν).get? k = none := rfl

/-- A value is found after filtering exactly when it was found before and satisfies the test. -/
theorem get?_filter (t : Table κ ν) (p : κ × ν → Bool) (k : κ) :
    (t.filter p).get? k = (t.get? k).filter fun v => p (k, v) := by
  apply Option.ext
  intro v
  rw [get?_eq_some_iff, Option.filter_eq_some_iff, get?_eq_some_iff]
  simp [filter]

theorem get?_mapValues {μ : Type} (f : ν → μ) (t : Table κ ν) (k : κ) :
    (t.mapValues f).get? k = (t.get? k).map f := by
  apply Option.ext
  intro v
  simp only [get?_eq_some_iff, Option.map_eq_some_iff, mapValues, List.mem_map, Prod.mk.injEq,
    Prod.exists]
  constructor
  · rintro ⟨a, u, hu, rfl, rfl⟩
    exact ⟨u, hu, rfl⟩
  · rintro ⟨u, hu, rfl⟩
    exact ⟨k, u, hu, rfl, rfl⟩

theorem get?_erase (t : Table κ ν) (k j : κ) :
    (t.erase k).get? j = if j = k then none else t.get? j := by
  rw [erase, get?_filter]
  split
  · rename_i h; cases t.get? j <;> simp [h, Option.filter]
  · rename_i h; cases t.get? j <;> simp [h, Option.filter]

theorem get?_putLast (t : Table κ ν) (k j : κ) (v : ν) :
    (t.putLast k v).get? j = if j = k then some v else t.get? j := by
  apply Option.ext
  intro w
  have : (j, w) ∈ (t.putLast k v).entries ↔
      (j, w) ∈ (t.erase k).entries ∨ (j = k ∧ w = v) := by simp [putLast]
  rw [get?_eq_some_iff, this, ← get?_eq_some_iff, get?_erase]
  split <;> rename_i h <;> simp [h, eq_comm]

theorem get?_put (t : Table κ ν) (k j : κ) (v : ν) :
    (t.put k v).get? j = if j = k then some v else t.get? j := by
  rw [put]
  split
  · rename_i hk
    apply Option.ext
    intro w
    rw [get?_eq_some_iff]
    simp only [List.mem_map]
    constructor
    · rintro ⟨⟨a, b⟩, he, h⟩
      split at h
      · cases h; simp
      · rename_i ha; cases h; rw [if_neg ha]; exact get?_eq_some_iff.mpr he
    · intro h
      split at h
      · rename_i hj
        subst hj
        obtain rfl : v = w := by simpa using h
        have hm : j ∈ t.keys := by simpa [contains] using hk
        obtain ⟨u, hu⟩ := mem_keys_iff.mp hm
        exact ⟨(j, u), get?_eq_some_iff.mp hu, by simp⟩
      · rename_i hj
        exact ⟨(j, w), get?_eq_some_iff.mp h, by simp [hj]⟩
  · exact get?_putLast t k j v

/-! ### Keys -/

omit [DecidableEq κ] in
theorem length_keys (t : Table κ ν) : t.keys.length = t.size := List.length_map _

omit [DecidableEq κ] in
theorem keys_filter (t : Table κ ν) (p : κ → Bool) :
    (t.filter fun e => p e.1).keys = t.keys.filter p := by
  rw [keys, keys, List.filter_map]
  rfl

omit [DecidableEq κ] in
theorem keys_mapValues {μ : Type} (t : Table κ ν) (f : ν → μ) : (t.mapValues f).keys = t.keys := by
  simp [keys, mapValues, Function.comp_def]

theorem keys_erase (t : Table κ ν) (k : κ) :
    (t.erase k).keys = t.keys.filter fun j => decide (j ≠ k) :=
  t.keys_filter fun j => decide (j ≠ k)

theorem size_erase {t : Table κ ν} {k : κ} (h : k ∈ t.keys) : (t.erase k).size + 1 = t.size := by
  have hkeys : (t.erase k).keys = t.keys.erase k := by
    rw [keys_erase, List.Nodup.erase_eq_filter (show t.keys.Nodup from t.nodup)]
    exact List.filter_congr fun j _ => decide_not
  have hlength : (t.keys.erase k).length + 1 = t.keys.length := by
    rw [List.length_erase_of_mem h]
    exact Nat.sub_add_cancel (List.length_pos_of_mem h)
  rwa [← hkeys, length_keys, length_keys] at hlength

theorem erase_of_not_mem {t : Table κ ν} {k : κ} (h : k ∉ t.keys) : t.erase k = t := by
  refine ext (List.filter_eq_self.mpr fun e he => decide_eq_true ?_)
  exact fun hk => h (List.mem_map.mpr ⟨e, he, hk⟩)

end Table

end Warrant
