import Warrant.Proofs.Threads

/-!
# Locks that come and go

There is no lock for a pair that nobody works on. Who needs the lock of a pair looks it up in a table,
or makes one and enters it, then waits until it is free; an entry goes once nobody refers to its lock.
A `Crew` is a pool of operations with such a table. It does what a pool does that has one lock for each
pair, in the same order (`Crew.refines`): as long as somebody refers to a lock, the pair has no other.
-/

namespace Warrant

namespace Table

variable {κ ν : Type} [DecidableEq κ] {t : Table κ ν} {k j : κ} {v x : ν}

theorem get?_put_fresh (hfresh : t.get? k = none) :
    (t.put k v).get? j = some x ↔ (j = k ∧ x = v) ∨ t.get? j = some x := by
  rw [get?_put]
  split
  · rename_i hsame
    subst hsame
    simp [hfresh, eq_comm]
  · rename_i hother
    simp [hother]

theorem get?_erase_eq_some : (t.erase k).get? j = some x ↔ j ≠ k ∧ t.get? j = some x := by
  rw [get?_erase]
  split
  · rename_i hsame
    simp [hsame]
  · rename_i hother
    simp [hother]

end Table

namespace Engine

open Procedure

/-- What is left of an operation, and the lock that it waits for or holds. -/
structure Member where
  rest : Thread
  lock : Option Nat

/-- Operations under way in a world, and the locks of the pairs, which are known by numbers. -/
structure Crew (τ : Type) where
  world : World Site τ
  members : List Member
  table : Table Pair Nat
  /-- How many locks have been made. -/
  made : Nat
  /-- The locks that are held. -/
  taken : List Nat
  /-- The members that have taken a lock, the last one at the end. -/
  order : List Nat

namespace Crew

/-- One step in a crew. -/
inductive Move (τ : Type)
  | wait (d : τ)
  /-- The member of the number goes on. -/
  | go (n : Nat)
  /-- The entry of the pair goes, unless somebody refers to its lock. -/
  | reclaim (pair : Pair)

variable {τ : Type}

/-- The operations in a world, none of them begun. -/
def gather (E : Engine) (w : World Site τ) (ops : List Operation) : Crew τ where
  world := w
  members := ops.map fun o => ⟨ExceptT.run (E.perform o), none⟩
  table := .empty
  made := 0
  taken := []
  order := []

/-- A member looks the lock of a pair up, or makes one. -/
def lookUp (n : Nat) (rest : Thread) (pair : Pair) (C : Crew τ) : Crew τ :=
  match C.table.get? pair with
  | some lock => { C with members := C.members.set n ⟨rest, some lock⟩ }
  | none => { C with
      members := C.members.set n ⟨rest, some C.made⟩
      table := C.table.put pair C.made
      made := C.made + 1 }

theorem members_lookUp (n : Nat) (rest : Thread) (pair : Pair) (C : Crew τ) :
    ∃ lock, (C.lookUp n rest pair).members = C.members.set n ⟨rest, some lock⟩ := by
  rw [lookUp]
  split
  · rename_i lock hlock
    exact ⟨lock, rfl⟩
  · exact ⟨C.made, rfl⟩

theorem order_lookUp (n : Nat) (rest : Thread) (pair : Pair) (C : Crew τ) :
    (C.lookUp n rest pair).order = C.order := by
  rw [lookUp]
  split <;> rfl

def reclaim (pair : Pair) (C : Crew τ) : Crew τ :=
  match C.table.get? pair with
  | some lock =>
    if C.members.any fun m => m.lock = some lock then C else { C with table := C.table.erase pair }
  | none => C

theorem order_reclaim (pair : Pair) (C : Crew τ) : (C.reclaim pair).order = C.order := by
  rw [reclaim]
  split
  · split <;> rfl
  · rfl

variable [Add τ] [LE τ] [DecidableLE τ]

/-- Lets a member go on by one step: it looks its lock up, takes it if it is free, gives it back, or is
answered by the world. -/
def go (n : Nat) (C : Crew τ) : Crew τ :=
  match C.members[n]? with
  | some ⟨.ask (.chore (.acquire pair)) next, none⟩ =>
    C.lookUp n (.ask (.chore (.acquire pair)) next) pair
  | some ⟨.ask (.chore (.acquire _)) next, some lock⟩ =>
    if lock ∈ C.taken then C else { C with
      members := C.members.set n ⟨next (), some lock⟩
      taken := lock :: C.taken
      order := C.order ++ [n] }
  | some ⟨.ask (.chore (.release _)) next, lock⟩ => { C with
      members := C.members.set n ⟨next (), none⟩
      taken := lock.elim C.taken C.taken.erase }
  | some ⟨.ask q next, lock⟩ =>
    let (reply, world) := World.answer q C.world
    { C with world, members := C.members.set n ⟨next reply, lock⟩ }
  | _ => C

/-- What the member of the number has ended in, if it has. -/
def result? (C : Crew τ) (n : Nat) : Option (Except Fault Unit) :=
  C.members[n]?.bind fun m => ended? m.rest

def step : Move τ → Crew τ → Crew τ
  | .wait d, C => { C with world := C.world.advance d }
  | .go n, C => C.go n
  | .reclaim pair, C => C.reclaim pair

def run : List (Move τ) → Crew τ → Crew τ
  | [], C => C
  | m :: rest, C => run rest (step m C)

theorem run_append (first second : List (Move τ)) (C : Crew τ) :
    run (first ++ second) C = run second (run first C) := by
  induction first generalizing C with
  | nil => rfl
  | cons m rest ih => exact ih (step m C)

omit [Add τ] [LE τ] [DecidableLE τ] in
/-- The member waits: it has looked a lock up that is held. -/
def Waits (C : Crew τ) (n : Nat) : Prop := ∃ pair next lock,
  C.members[n]? = some ⟨.ask (.chore (.acquire pair)) next, some lock⟩ ∧ lock ∈ C.taken

/-- What becomes of the crew when a member goes on: nothing if it is not under way or waits, and else
it looks a lock up, takes the one that it has looked up, gives it back, or is answered by the world. -/
inductive Goes (n : Nat) (C : Crew τ) : Crew τ → Prop
  | stays : (∀ q next lock?, C.members[n]? = some ⟨.ask q next, lock?⟩ → C.Waits n) → Goes n C C
  | looksUp {pair : Pair} {next : Unit → Thread} :
    C.members[n]? = some ⟨.ask (.chore (.acquire pair)) next, none⟩ →
    Goes n C (C.lookUp n (.ask (.chore (.acquire pair)) next) pair)
  | takes {pair : Pair} {next : Unit → Thread} {lock : Nat} :
    C.members[n]? = some ⟨.ask (.chore (.acquire pair)) next, some lock⟩ → lock ∉ C.taken →
    Goes n C { C with
      members := C.members.set n ⟨next (), some lock⟩
      taken := lock :: C.taken
      order := C.order ++ [n] }
  | gives {pair : Pair} {next : Unit → Thread} {lock? : Option Nat} :
    C.members[n]? = some ⟨.ask (.chore (.release pair)) next, lock?⟩ →
    Goes n C { C with
      members := C.members.set n ⟨next (), none⟩
      taken := lock?.elim C.taken C.taken.erase }
  | answered {q : Request Call} {next : q.Reply → Thread} {lock? : Option Nat} :
    C.members[n]? = some ⟨.ask q next, lock?⟩ → Lockless q →
    Goes n C { C with
      world := (World.answer q C.world).2
      members := C.members.set n ⟨next (World.answer q C.world).1, lock?⟩ }

theorem goes (n : Nat) (C : Crew τ) : Goes n C (C.go n) := by
  rw [go]
  cases hm : C.members[n]? with
  | none => exact .stays fun q next lock? h => by rw [hm] at h; cases h
  | some m =>
    obtain ⟨rest, lock?⟩ := m
    cases rest with
    | done x => exact .stays fun q next lock? h => by rw [hm] at h; cases h
    | ask q next =>
      cases q with
      | call c => exact .answered hm trivial
      | chore q =>
        cases q with
        | acquire pair =>
          cases lock? with
          | none => exact .looksUp hm
          | some lock =>
            dsimp only
            split
            · rename_i htaken
              exact .stays fun q' next' lock?' h => ⟨pair, next, lock, hm, htaken⟩
            · rename_i hfree
              exact .takes hm hfree
        | release pair => exact .gives hm
        | report | find | keep | forget => exact .answered hm trivial

end Crew

namespace Pool

variable {τ : Type} [Add τ] [LE τ] [DecidableLE τ]

/-- The threads that take locks in a schedule, the first one in front. -/
def order (E : Engine) : List (Move τ) → Pool τ → List Nat
  | [], _ => []
  | m :: rest, P => (P.taker? m).toList ++ order E rest (step E m P)

theorem order_append (E : Engine) (first second : List (Move τ)) (P : Pool τ) :
    order E (first ++ second) P = order E first P ++ order E second (run E first P) := by
  induction first generalizing P with
  | nil => rfl
  | cons m rest ih =>
    show (P.taker? m).toList ++ order E (rest ++ second) (step E m P) = _
    rw [ih, ← List.append_assoc]
    rfl

theorem run_append (E : Engine) (first second : List (Move τ)) (P : Pool τ) :
    run E (first ++ second) P = run E second (run E first P) := by
  induction first generalizing P with
  | nil => rfl
  | cons m rest ih => exact ih (step E m P)

end Pool

namespace Crew

variable {τ : Type} {C : Crew τ} {P : Pool τ} {holds : Nat → Option Pair} {n : Nat}

/-- The member refers to no lock, or to the one that the table has for the pair that it waits for or
that it holds. -/
def Refers (table : Table Pair Nat) (held : Option Pair) (m : Member) : Prop :=
  match m.lock with
  | none => held = none
  | some lock => ∃ pair, table.get? pair = some lock ∧
      (held = some pair ∨ held = none ∧ ∃ next, m.rest = .ask (.chore (.acquire pair)) next)

/-- The crew stands where the pool stands, in which the locks are held as given. -/
structure Stands (C : Crew τ) (P : Pool τ) (holds : Nat → Option Pair) : Prop where
  world : P.world = C.world
  threads : P.threads = C.members.map Member.rest
  held : P.Held (fun _ _ => True) holds
  made : ∀ pair lock, C.table.get? pair = some lock → lock < C.made
  apart : ∀ pair other lock, C.table.get? pair = some lock → C.table.get? other = some lock →
    pair = other
  refers : ∀ i m, C.members[i]? = some m → Refers C.table (holds i) m
  taken : ∀ lock, lock ∈ C.taken ↔ ∃ i pair, holds i = some pair ∧ C.table.get? pair = some lock
  nodup : C.taken.Nodup

theorem stands_gather (E : Engine) (w : World Site τ) (ops : List Operation) :
    Stands (gather E w ops) (.gather E w ops) fun _ => none where
  world := rfl
  threads := by simp [gather, Pool.gather]
  held := Pool.held_gather E w fun _ _ _ _ _ => trivial
  made := nofun
  apart := nofun
  refers i m hm := by
    rw [gather, List.getElem?_map] at hm
    obtain ⟨o, -, rfl⟩ := Option.map_eq_some_iff.mp hm
    rfl
  taken _ := ⟨nofun, fun ⟨_, _, h, _⟩ => by cases h⟩
  nodup := List.nodup_nil

theorem Refers.mono {table table' : Table Pair Nat} {held : Option Pair} {m : Member}
    (h : Refers table held m)
    (htable : ∀ pair lock, m.lock = some lock → table.get? pair = some lock →
      table'.get? pair = some lock) : Refers table' held m := by
  obtain ⟨rest, lock⟩ := m
  cases lock with
  | none => exact h
  | some lock =>
    obtain ⟨pair, hpair, hheld⟩ := h
    exact ⟨pair, htable pair lock rfl hpair, hheld⟩

theorem refers_set {table : Table Pair Nat} {members : List Member} {holds' : Nat → Option Pair}
    {m : Member} (h : ∀ i m, members[i]? = some m → Refers table (holds i) m)
    (hm : Refers table (holds' n) m) (hother : ∀ i, i ≠ n → holds' i = holds i) (i : Nat) (m' : Member)
    (hi : (members.set n m)[i]? = some m') : Refers table (holds' i) m' := by
  by_cases hin : i = n
  · subst hin
    obtain ⟨hlt, rfl⟩ := List.getElem?_eq_some_iff.mp hi
    rw [List.getElem_set_self]
    exact hm
  · rw [List.getElem?_set_ne (Ne.symm hin)] at hi
    rw [hother i hin]
    exact h i m' hi

theorem rests_set {members : List Member} {m : Member} (lock : Option Nat)
    (hm : members[n]? = some m) :
    (members.set n ⟨m.rest, lock⟩).map Member.rest = members.map Member.rest := by
  obtain ⟨hlt, rfl⟩ := List.getElem?_eq_some_iff.mp hm
  have hlt' : n < (members.map Member.rest).length := by rwa [List.length_map]
  have hrest : (members.map Member.rest)[n] = members[n].rest := List.getElem_map ..
  rw [List.map_set, ← hrest, List.set_getElem_self]

namespace Stands

/-- Whoever holds the lock of a pair refers to the one in the table. -/
theorem table_of_holds (h : Stands C P holds) {i : Nat} {pair : Pair} (hi : holds i = some pair) :
    ∃ m ∈ C.members, ∃ lock, m.lock = some lock ∧ C.table.get? pair = some lock := by
  have hlt : i < C.members.length := by
    have hthread := (h.held.mine i pair hi).1
    rwa [h.threads, List.length_map] at hthread
  have hrefers := h.refers i _ (List.getElem?_eq_getElem hlt)
  rw [Refers, hi] at hrefers
  split at hrefers
  · cases hrefers
  · rename_i lock hlock
    obtain ⟨other, hother, hsame | ⟨hnone, -⟩⟩ := hrefers
    · obtain rfl := Option.some.inj hsame
      exact ⟨_, List.getElem_mem hlt, lock, hlock, hother⟩
    · cases hnone

theorem lookUp (h : Stands C P holds) {pair : Pair} {next : Unit → Thread}
    (hm : C.members[n]? = some ⟨.ask (.chore (.acquire pair)) next, none⟩) :
    Stands (C.lookUp n (.ask (.chore (.acquire pair)) next) pair) P holds := by
  have hnone : holds n = none := h.refers n _ hm
  have hrests := fun lock => rests_set lock hm
  have hnew : ∀ (table : Table Pair Nat) lock, table.get? pair = some lock →
      Refers table (holds n) ⟨.ask (.chore (.acquire pair)) next, some lock⟩ :=
    fun table lock hlock => ⟨pair, hlock, .inr ⟨hnone, next, rfl⟩⟩
  rw [Crew.lookUp]
  split
  · -- who finds an entry refers to a lock that others may refer to
    rename_i lock hlock
    refine ⟨h.world, h.threads.trans (hrests _).symm, h.held, h.made, h.apart, ?_, h.taken, h.nodup⟩
    exact refers_set h.refers (hnew _ _ hlock) fun i _ => rfl
  · -- a new lock is that of no other pair, and nobody holds the lock of a pair without an entry
    rename_i hfresh
    have hput : ∀ other lock, (C.table.put pair C.made).get? other = some lock ↔
        (other = pair ∧ lock = C.made) ∨ C.table.get? other = some lock :=
      fun other lock => Table.get?_put_fresh hfresh
    refine ⟨h.world, h.threads.trans (hrests _).symm, h.held, ?_, ?_, ?_, ?_, h.nodup⟩
    · intro other lock hlock
      rcases (hput other lock).mp hlock with ⟨-, rfl⟩ | hlock
      · exact Nat.lt_succ_self _
      · exact Nat.lt_succ_of_lt (h.made other lock hlock)
    · intro other other' lock hlock hlock'
      have hold : ∀ {other}, C.table.get? other = some lock → lock ≠ C.made :=
        fun hold => Nat.ne_of_lt (h.made _ _ hold)
      rcases (hput other lock).mp hlock with ⟨hpair, hmade⟩ | hbefore
      · rcases (hput other' lock).mp hlock' with ⟨hpair', -⟩ | hbefore'
        · exact hpair.trans hpair'.symm
        · exact absurd hmade (hold hbefore')
      · rcases (hput other' lock).mp hlock' with ⟨-, hmade⟩ | hbefore'
        · exact absurd hmade (hold hbefore)
        · exact h.apart other other' lock hbefore hbefore'
    · refine refers_set (fun i m hi => ?_) (hnew _ _ ((hput _ _).mpr (.inl ⟨rfl, rfl⟩))) fun i _ => rfl
      exact (h.refers i m hi).mono fun other lock _ hlock => (hput other lock).mpr (.inr hlock)
    · intro lock
      rw [h.taken lock]
      constructor
      · rintro ⟨i, other, hi, hlock⟩
        exact ⟨i, other, hi, (hput other lock).mpr (.inr hlock)⟩
      · rintro ⟨i, other, hi, hlock⟩
        rcases (hput other lock).mp hlock with ⟨rfl, rfl⟩ | hlock
        · obtain ⟨-, -, lock, -, hlock⟩ := h.table_of_holds hi
          rw [hfresh] at hlock
          cases hlock
        · exact ⟨i, other, hi, hlock⟩

theorem thread (h : Stands C P holds) {m : Member} (hm : C.members[n]? = some m) :
    P.threads[n]? = some m.rest := by
  rw [h.threads, List.getElem?_map, hm]
  rfl

theorem threads_set (h : Stands C P holds) (m : Member) :
    P.threads.set n m.rest = (C.members.set n m).map Member.rest := by
  rw [h.threads, List.map_set]

/-- A member that waits refers to the lock of the pair that it asks for. -/
theorem table_of_waiting (h : Stands C P holds) {pair : Pair} {lock : Nat} {next : Unit → Thread}
    (hm : C.members[n]? = some ⟨.ask (.chore (.acquire pair)) next, some lock⟩) :
    C.table.get? pair = some lock ∧ holds n = none := by
  have hnone : holds n = none := (h.held.threads.may (h.thread hm)).2
  obtain ⟨other, hother, hheld | ⟨-, next', hrest⟩⟩ := h.refers n _ hm
  · rw [hnone] at hheld
    cases hheld
  · cases hrest
    exact ⟨hother, hnone⟩

/-- The lock of a pair is held in the crew while it is held in the pool. -/
theorem taken_iff (h : Stands C P holds) {pair : Pair} {lock : Nat}
    (hlock : C.table.get? pair = some lock) : lock ∈ C.taken ↔ pair ∈ P.locked := by
  rw [h.taken, h.held.holders.mem]
  constructor
  · rintro ⟨i, other, hi, hother⟩
    rw [h.apart pair other lock hlock hother]
    exact ⟨i, hi⟩
  · rintro ⟨i, hi⟩
    exact ⟨i, pair, hi, hlock⟩

theorem take (h : Stands C P holds) {pair : Pair} {lock : Nat} {next : Unit → Thread}
    (hm : C.members[n]? = some ⟨.ask (.chore (.acquire pair)) next, some lock⟩)
    (hfree : lock ∉ C.taken) :
    Stands { C with
      members := C.members.set n ⟨next (), some lock⟩
      taken := lock :: C.taken
      order := C.order ++ [n] } ⟨P.world, P.threads.set n (next ()), pair :: P.locked⟩
      (moved holds n (some pair)) := by
  obtain ⟨hlock, hnone⟩ := h.table_of_waiting hm
  have hunlocked : pair ∉ P.locked := fun hin => hfree ((h.taken_iff hlock).mpr hin)
  refine ⟨h.world, h.threads_set ⟨next (), some lock⟩, h.held.take (h.thread hm) hunlocked, h.made,
    h.apart, ?_, fun other => ?_, List.nodup_cons.mpr ⟨hfree, h.nodup⟩⟩
  · refine refers_set h.refers ?_ fun i hi => moved_other hi
    exact ⟨pair, hlock, .inl (moved_self holds n (some pair))⟩
  · rw [List.mem_cons, h.taken]
    constructor
    · rintro (rfl | ⟨i, pair', hi, hpair'⟩)
      · exact ⟨n, pair, moved_self holds n (some pair), hlock⟩
      · refine ⟨i, pair', ?_, hpair'⟩
        rw [moved_other, hi]
        rintro rfl
        rw [hnone] at hi
        cases hi
    · rintro ⟨i, pair', hi, hpair'⟩
      by_cases hin : i = n
      · subst hin
        rw [moved_self] at hi
        obtain rfl := Option.some.inj hi
        exact .inl (Option.some.inj (hpair'.symm.trans hlock))
      · rw [moved_other hin] at hi
        exact .inr ⟨i, pair', hi, hpair'⟩

theorem give (h : Stands C P holds) {pair : Pair} {lock? : Option Nat} {next : Unit → Thread}
    (hm : C.members[n]? = some ⟨.ask (.chore (.release pair)) next, lock?⟩) :
    Stands { C with
      members := C.members.set n ⟨next (), none⟩
      taken := lock?.elim C.taken C.taken.erase }
      ⟨P.world, P.threads.set n (next ()), P.locked.erase pair⟩ (moved holds n none) := by
  have hn : holds n = some pair := h.held.threads.may (h.thread hm)
  have hrefers := h.refers n _ hm
  cases lock? with
  | none =>
    rw [Refers, hn] at hrefers
    cases hrefers
  | some lock =>
    obtain ⟨other, hlock, hother | ⟨hnone, -⟩⟩ := hrefers
    · rw [hn] at hother
      obtain rfl := Option.some.inj hother
      refine ⟨h.world, h.threads_set ⟨next (), none⟩, h.held.give (h.thread hm), h.made, h.apart, ?_,
        fun other => ?_, h.nodup.erase lock⟩
      · exact refers_set h.refers (moved_self holds n none) fun i hi => moved_other hi
      · show other ∈ C.taken.erase lock ↔ _
        rw [h.nodup.mem_erase_iff, h.taken]
        constructor
        · rintro ⟨hne, i, pair', hi, hpair'⟩
          refine ⟨i, pair', ?_, hpair'⟩
          rw [moved_other, hi]
          rintro rfl
          rw [hn] at hi
          obtain rfl := Option.some.inj hi
          exact hne (Option.some.inj (hpair'.symm.trans hlock))
        · rintro ⟨i, pair', hi, hpair'⟩
          have hin : i ≠ n := by
            rintro rfl
            rw [moved_self] at hi
            cases hi
          rw [moved_other hin] at hi
          refine ⟨?_, i, pair', hi, hpair'⟩
          rintro rfl
          obtain rfl := h.apart pair pair' other hlock hpair'
          exact hin (h.held.holders.once i n pair hi hn)
    · rw [hn] at hnone
      cases hnone

theorem answered (h : Stands C P holds) {q : Request Call} {next : q.Reply → Thread}
    {lock? : Option Nat} (hm : C.members[n]? = some ⟨.ask q next, lock?⟩) (hq : Lockless q)
    (reply : q.Reply) (world : World Site τ) :
    Stands { C with world, members := C.members.set n ⟨next reply, lock?⟩ }
      ⟨world, P.threads.set n (next reply), P.locked⟩ holds := by
  refine ⟨rfl, h.threads_set ⟨next reply, lock?⟩, h.held.answered (h.thread hm) hq reply world, h.made,
    h.apart, refers_set h.refers ?_ fun i _ => rfl, h.taken, h.nodup⟩
  have hrefers := h.refers n _ hm
  cases lock? with
  | none => exact hrefers
  | some lock =>
    obtain ⟨pair, hlock, hheld | ⟨-, next', hrest⟩⟩ := hrefers
    · exact ⟨pair, hlock, .inl hheld⟩
    · cases hrest
      exact hq.elim

theorem reclaim (h : Stands C P holds) (pair : Pair) : Stands (C.reclaim pair) P holds := by
  rw [Crew.reclaim]
  split
  · rename_i lock hlock
    split
    · exact h
    · rename_i hunused
      have herase : ∀ other lock', (C.table.erase pair).get? other = some lock' ↔
          other ≠ pair ∧ C.table.get? other = some lock' := fun _ _ => Table.get?_erase_eq_some
      have hkept : ∀ m ∈ C.members, ∀ other lock', m.lock = some lock' →
          C.table.get? other = some lock' → (C.table.erase pair).get? other = some lock' := by
        intro m hm other lock' hm' hother
        refine (herase other lock').mpr ⟨?_, hother⟩
        rintro rfl
        obtain rfl := Option.some.inj (hlock.symm.trans hother)
        exact hunused (List.any_eq_true.mpr ⟨m, hm, decide_eq_true hm'⟩)
      refine ⟨h.world, h.threads, h.held, ?_, ?_, ?_, ?_, h.nodup⟩
      · exact fun other lock' h' => h.made other lock' ((herase other lock').mp h').2
      · exact fun other other' lock' h₁ h₂ => h.apart other other' lock' ((herase _ _).mp h₁).2
          ((herase _ _).mp h₂).2
      · exact fun i m hi => (h.refers i m hi).mono (hkept m (List.mem_of_getElem? hi))
      · intro lock'
        rw [h.taken]
        constructor
        · rintro ⟨i, other, hi, hother⟩
          obtain ⟨m, hm, lock'', hm', hother'⟩ := h.table_of_holds hi
          exact ⟨i, other, hi, hother'.symm.trans hother ▸ hkept m hm other lock'' hm' hother'⟩
        · rintro ⟨i, other, hi, hother⟩
          exact ⟨i, other, hi, ((herase other lock').mp hother).2⟩
  · exact h

variable [Add τ] [LE τ] [DecidableLE τ] {E : Engine} {C' : Crew τ}

/-- The pool can follow: smooth moves bring it to where the crew has come, and the same threads take
locks on the way. -/
def Follows (E : Engine) (C : Crew τ) (P : Pool τ) (C' : Crew τ) : Prop :=
  ∃ moves holds', (∀ m ∈ moves, m.Smooth) ∧ Stands C' (Pool.run E moves P) holds' ∧
    C'.order = C.order ++ Pool.order E moves P

theorem follows (h : Stands C' P holds) (horder : C'.order = C.order) : Follows E C P C' :=
  ⟨[], holds, nofun, h, horder.trans (List.append_nil _).symm⟩

theorem follows_move {m : Engine.Move τ} (hm : m.Smooth) (h : Stands C' (Pool.step E m P) holds)
    (horder : C'.order = C.order ++ (P.taker? m).toList) : Follows E C P C' := by
  refine ⟨[m], holds, fun m' hm' => ?_, h, ?_⟩
  · rw [List.mem_singleton.mp hm']
    exact hm
  · rw [horder, Pool.order, Pool.order, List.append_nil]

theorem go (h : Stands C P holds) (n : Nat) : Follows E C P (C.go n) := by
  -- the thread of the member goes on, too, and takes a lock or takes none
  have hgo : ∀ {q : Request Call} {next : q.Reply → Thread} {lock? : Option Nat} {reply : q.Reply}
      {P' : Pool τ} {C' : Crew τ} {holds' : Nat → Option Pair},
      C.members[n]? = some ⟨.ask q next, lock?⟩ → P.answer? .carriedOut q = some (reply, P') →
      Stands C' { P' with threads := P.threads.set n (next reply) } holds' →
      C'.order = C.order ++ (P.taker? (.go n .carriedOut)).toList → Follows E C P C' := by
    intro q next lock? reply P' C' holds' hm hanswer hC' horder
    have hpool : P.go n .carriedOut = { P' with threads := P.threads.set n (next reply) } := by
      rw [Pool.go, h.thread hm]
      dsimp only
      rw [hanswer]
    exact follows_move (m := .go n .carriedOut) trivial (hpool ▸ hC') horder
  have hgoes := C.goes n
  generalize C.go n = C' at hgoes ⊢
  cases hgoes with
  | stays => exact follows h rfl
  | looksUp hm => exact follows (h.lookUp hm) (order_lookUp ..)
  | takes hm hfree =>
    have hunlocked := mt (h.taken_iff (h.table_of_waiting hm).1).mpr hfree
    refine hgo hm (if_neg hunlocked) (h.take hm hfree) ?_
    rw [Pool.taker?, h.thread hm]
    dsimp only
    rw [if_neg hunlocked]
    rfl
  | gives hm =>
    refine hgo hm rfl (h.give hm) ?_
    rw [Pool.taker?, h.thread hm]
    exact (List.append_nil _).symm
  | @answered q next lock? hm hq =>
    rw [← h.world]
    have hthread := h.thread hm
    cases q with
    | call c =>
      refine hgo hm rfl (h.answered hm trivial _ _) ?_
      rw [Pool.taker?, hthread]
      exact (List.append_nil _).symm
    | chore q =>
      cases q with
      | acquire | release => exact hq.elim
      | report | find | keep | forget =>
        refine hgo hm rfl (h.answered hm trivial _ _) ?_
        rw [Pool.taker?, hthread]
        exact (List.append_nil _).symm

theorem step (h : Stands C P holds) (m : Move τ) : Follows E C P (Crew.step m C) := by
  cases m with
  | go n => exact h.go n
  | reclaim pair => exact follows (h.reclaim pair) (order_reclaim ..)
  | wait d =>
    have hstep : Stands (Crew.step (.wait d) C) (Pool.step E (.wait d) P) holds :=
      ⟨congrArg (World.advance d) h.world, h.threads,
        ⟨h.held.threads, h.held.mine, h.held.holders⟩, h.made, h.apart, h.refers, h.taken, h.nodup⟩
    exact follows_move (m := .wait d) trivial hstep (List.append_nil _).symm

theorem run (h : Stands C P holds) (schedule : List (Move τ)) :
    Follows E C P (Crew.run schedule C) := by
  induction schedule generalizing C P holds with
  | nil => exact follows h rfl
  | cons m rest ih =>
    obtain ⟨first, holds', hfirst, hstep, horder⟩ := h.step (E := E) m
    obtain ⟨second, holds'', hsecond, hrun, horder'⟩ := ih hstep
    refine ⟨first ++ second, holds'', fun m' hm' => ?_, ?_, ?_⟩
    · rcases List.mem_append.mp hm' with hm' | hm'
      · exact hfirst m' hm'
      · exact hsecond m' hm'
    · rw [Pool.run_append]
      exact hrun
    · rw [Pool.order_append, ← List.append_assoc, ← horder]
      exact horder'

end Stands

variable [Add τ] [LE τ] [DecidableLE τ]

theorem Stands.waits (h : Stands C P holds) (hwaits : C.Waits n) : P.Waits n := by
  obtain ⟨pair, next, lock, hm, htaken⟩ := hwaits
  refine ⟨_, next, h.thread hm, if_pos ?_⟩
  exact (h.taken_iff (h.table_of_waiting hm).1).mp htaken

omit [Add τ] [LE τ] [DecidableLE τ] in
theorem result?_of_rests (h : C.members.map Member.rest = P.threads) (n : Nat) :
    C.result? n = P.result? n := by
  rw [result?, Pool.result?, ← h, List.getElem?_map]
  cases C.members[n]? <;> rfl

/-- A crew with its locks that come and go does what a pool does that has one lock for each pair: its
members stand where the threads of the pool stand, in the same world, and have taken the locks in the
same order; and none waits that could go on in the pool. -/
theorem refines (E : Engine) (w : World Site τ) (ops : List Operation) (schedule : List (Move τ)) :
    ∃ moves : List (Engine.Move τ), (∀ m ∈ moves, m.Smooth) ∧
      let C := run schedule (gather E w ops)
      let P := Pool.run E moves (.gather E w ops)
      C.world = P.world ∧ C.members.map Member.rest = P.threads ∧
        C.order = Pool.order E moves (.gather E w ops) ∧ ∀ n, C.Waits n → P.Waits n := by
  obtain ⟨moves, holds, hsmooth, hstands, horder⟩ := (stands_gather E w ops).run (E := E) schedule
  exact ⟨moves, hsmooth, hstands.world.symm, hstands.threads.symm, horder, fun n => hstands.waits⟩

/-! ### To the end -/

/-- A thread has gone on by one answer. -/
def Further (next now : List Thread) : Prop :=
  ∃ (i : Nat) (q : Request Call) (f : q.Reply → Thread) (reply : q.Reply),
    now[i]? = some (.ask q f) ∧ next = now.set i (f reply)

theorem further_wf : WellFounded Further := by
  -- a step takes place in the first thread or in the others, so the induction is on both
  have hcons : ∀ {rest : List Thread}, Acc Further rest → ∀ d : Thread, Acc Further (d :: rest) := by
    intro rest hrest
    induction hrest with
    | intro rest _ ih =>
      intro d
      induction d with
      | done x =>
        refine ⟨_, ?_⟩
        rintro _ ⟨i, q, f, reply, hi, rfl⟩
        cases i with
        | zero => cases hi
        | succ i => exact ih _ ⟨i, q, f, reply, hi, rfl⟩ _
      | ask q' f' ihd =>
        refine ⟨_, ?_⟩
        rintro _ ⟨i, q, f, reply, hi, rfl⟩
        cases i with
        | zero =>
          cases hi
          exact ihd reply
        | succ i => exact ih _ ⟨i, q, f, reply, hi, rfl⟩ _
  refine ⟨fun threads => ?_⟩
  induction threads with
  | nil =>
    refine ⟨_, ?_⟩
    rintro _ ⟨i, q, f, reply, hi, rfl⟩
    cases hi
  | cons d rest ih => exact hcons ih d

/-- As long as a thread has not ended some member gets further. -/
theorem Stands.further (h : Stands C P holds) (hn : P.Underway n) :
    ∃ first, Further ((Crew.run first C).members.map Member.rest) (C.members.map Member.rest) := by
  -- a member that has looked its lock up and need not wait is answered at once
  have hready : ∀ {C : Crew τ} {i : Nat} {q : Request Call} {next : q.Reply → Thread}
      {lock? : Option Nat}, C.members[i]? = some ⟨.ask q next, lock?⟩ → ¬ C.Waits i →
      (∀ pair, q = .chore (.acquire pair) → lock? ≠ none) →
      Further ((C.go i).members.map Member.rest) (C.members.map Member.rest) := by
    intro C i q next lock? hm hfree hlook
    have hset : ∀ {q : Request Call} {next : q.Reply → Thread} {lock? : Option Nat} (reply : q.Reply)
        (lock : Option Nat), C.members[i]? = some ⟨.ask q next, lock?⟩ →
        Further ((C.members.set i ⟨next reply, lock⟩).map Member.rest)
          (C.members.map Member.rest) := by
      intro q next lock? reply lock hm
      refine ⟨i, q, next, reply, ?_, List.map_set⟩
      rw [List.getElem?_map, hm]
      rfl
    have hgoes := C.goes i
    generalize C.go i = C' at hgoes ⊢
    cases hgoes with
    | stays hwaits => exact absurd (hwaits q next lock? hm) hfree
    | looksUp hm' =>
      rw [hm] at hm'
      cases hm'
      exact absurd rfl (hlook _ rfl)
    | takes hm' => exact hset () _ hm'
    | gives hm' => exact hset () _ hm'
    | answered hm' => exact hset _ _ hm'
  obtain ⟨i, ⟨q, next, hthread⟩, hfree⟩ := h.held.not_stuck hn
  rw [h.threads, List.getElem?_map] at hthread
  obtain ⟨⟨rest, lock?⟩, hm, rfl⟩ := Option.map_eq_some_iff.mp hthread
  have hfree' : ¬ C.Waits i := fun hwaits => hfree (h.waits hwaits)
  by_cases hlook : ∀ pair, q = .chore (.acquire pair) → lock? ≠ none
  · exact ⟨[.go i], hready hm hfree' hlook⟩
  · obtain ⟨pair, rfl, rfl⟩ : ∃ pair, q = .chore (.acquire pair) ∧ lock? = none := by
      simpa using hlook
    have hgo : C.go i = C.lookUp i (.ask (.chore (.acquire pair)) next) pair := by rw [Crew.go, hm]
    obtain ⟨lock, hmembers⟩ := members_lookUp i (.ask (.chore (.acquire pair)) next) pair C
    have hm' : (C.go i).members[i]? = some ⟨.ask (.chore (.acquire pair)) next, some lock⟩ := by
      rw [hgo, hmembers, List.getElem?_set_self (List.getElem?_eq_some_iff.mp hm).1]
    have hrests : (C.go i).members.map Member.rest = C.members.map Member.rest := by
      rw [hgo, hmembers]
      exact rests_set (some lock) hm
    refine ⟨[.go i, .go i], hrests ▸ hready hm' (fun hwaits => hfree ?_) nofun⟩
    exact (hgo ▸ h.lookUp hm).waits hwaits

/-- Whatever has been done, the crew can be brought to its end. -/
theorem Stands.finishes (E : Engine) (h : Stands C P holds) :
    ∃ more, ∀ i < C.members.length, ∃ x, (Crew.run more C).result? i = some x := by
  -- by induction on what is left of the members, which is less after each answer
  generalize hrests : C.members.map Member.rest = rests
  induction rests using further_wf.induction generalizing C P holds with
  | h rests ih =>
    by_cases hunder : ∃ n, P.Underway n
    · obtain ⟨n, hn⟩ := hunder
      obtain ⟨first, hfurther⟩ := h.further hn
      rw [hrests] at hfurther
      obtain ⟨moves, holds', hsmooth, hstands, -⟩ := h.run (E := E) first
      have hlength : (Crew.run first C).members.length = C.members.length := by
        have hthreads := congrArg List.length hstands.threads
        rw [Pool.length_run hsmooth, h.threads, List.length_map, List.length_map] at hthreads
        exact hthreads.symm
      obtain ⟨more, hmore⟩ := ih _ hfurther hstands rfl
      refine ⟨first ++ more, fun i hi => ?_⟩
      rw [run_append]
      exact hmore i (hlength ▸ hi)
    · refine ⟨[], fun i hi => ?_⟩
      have hlt : i < P.threads.length := by rwa [h.threads, List.length_map]
      obtain ⟨x, hx⟩ := (Pool.underway_of_lt hlt).resolve_left fun hn => hunder ⟨i, hn⟩
      exact ⟨x, (result?_of_rests h.threads.symm i).trans hx⟩

end Crew

end Engine

end Warrant
