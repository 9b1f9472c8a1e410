import Mathlib
import Warrant.Settings

/-!
# Texts without white space around them

Trimming takes away what stands in front of a trimmed text and behind it, and nothing else: each text is
what trimming leaves of it, with characters of the class on both sides, and of no other trimmed text
(`trimBy_eq_iff`).
-/

namespace Warrant.Text

variable {p : Char → Bool} {cs core : List Char}

/-- Neither the first character nor the last one is of the class. -/
structure Trimmed (p : Char → Bool) (cs : List Char) : Prop where
  head : ∀ c, cs.head? = some c → p c = false
  last : ∀ c, cs.getLast? = some c → p c = false

/-- The second text stands within the first one, with characters of the class on both sides. -/
def Within (p : Char → Bool) (cs core : List Char) : Prop :=
  ∃ front back, (∀ c ∈ front, p c = true) ∧ (∀ c ∈ back, p c = true) ∧ cs = front ++ core ++ back

theorem dropWhile_of_head (h : ∀ c, cs.head? = some c → p c = false) : cs.dropWhile p = cs := by
  cases cs with
  | nil => rfl
  | cons c rest => rw [List.dropWhile_cons_of_neg (by simp [h c rfl])]

theorem trimBy_eq_nil (h : ∀ c ∈ cs, p c = true) : trimBy p cs = [] := by
  rw [trimBy, List.dropWhile_eq_nil_iff.mpr h]
  rfl

theorem Within.of_nil (h : Within p cs []) : ∀ c ∈ cs, p c = true := by
  obtain ⟨front, back, hfront, hback, rfl⟩ := h
  intro c hc
  rw [List.append_nil] at hc
  rcases List.mem_append.mp hc with hc | hc
  · exact hfront c hc
  · exact hback c hc

theorem trimBy_of_within (ht : Trimmed p core) (h : Within p cs core) : trimBy p cs = core := by
  by_cases hnil : core = []
  · subst hnil
    exact trimBy_eq_nil h.of_nil
  · obtain ⟨front, back, hfront, hback, rfl⟩ := h
    have hhead : ∀ c, (core ++ back).head? = some c → p c = false := fun c hc =>
      ht.head c (by rwa [List.head?_append_of_ne_nil _ hnil] at hc)
    have hlast : ∀ c, core.reverse.head? = some c → p c = false := fun c hc =>
      ht.last c (by rwa [List.head?_reverse] at hc)
    rw [trimBy, List.append_assoc, List.dropWhile_append_of_pos hfront, dropWhile_of_head hhead,
      List.reverse_append, List.dropWhile_append_of_pos (by simpa using hback),
      dropWhile_of_head hlast, List.reverse_reverse]

theorem trimmed_trimBy (p : Char → Bool) (cs : List Char) : Trimmed p (trimBy p cs) := by
  have htrim : trimBy p cs = (cs.dropWhile p).rdropWhile p := rfl
  rw [htrim]
  refine ⟨fun c hc => ?_, fun c hc => ?_⟩
  · -- the first character is the one at which the dropping in front has stopped
    obtain ⟨rest, hrest⟩ := List.head?_eq_some_iff.mp hc
    obtain ⟨back, hback⟩ := List.rdropWhile_prefix p (cs.dropWhile p)
    have hstop := List.head?_dropWhile_not p cs
    rw [← hback, hrest] at hstop
    exact hstop
  · obtain ⟨hne, rfl⟩ := List.mem_getLast?_eq_getLast hc
    exact Bool.eq_false_iff.mpr (List.rdropWhile_last_not p _ hne)

theorem within_trimBy (p : Char → Bool) (cs : List Char) : Within p cs (trimBy p cs) := by
  refine ⟨cs.takeWhile p, (cs.dropWhile p).rtakeWhile p, fun c => List.mem_takeWhile_imp,
    fun c => List.mem_rtakeWhile_imp, ?_⟩
  show cs = cs.takeWhile p ++ (cs.dropWhile p).rdropWhile p ++ _
  rw [List.append_assoc, List.rdropWhile_append_rtakeWhile, List.takeWhile_append_dropWhile]

/-- What trimming leaves is the trimmed text that stands within the given one. -/
theorem trimBy_eq_iff : trimBy p cs = core ↔ Trimmed p core ∧ Within p cs core := by
  constructor
  · rintro rfl
    exact ⟨trimmed_trimBy p cs, within_trimBy p cs⟩
  · rintro ⟨ht, h⟩
    exact trimBy_of_within ht h

/-- The name of one thing: it is not blank, has no comma in it and no white space around it. -/
structure Single (name : String) : Prop where
  nonempty : name ≠ ""
  comma_free : ',' ∉ name.toList
  trimmed : Trimmed isBlank name.toList

theorem trim_eq_iff {s name : String} :
    trim s = name ↔ Trimmed isBlank name.toList ∧ Within isBlank s.toList name.toList := by
  rw [← trimBy_eq_iff, trim]
  constructor
  · rintro rfl
    rw [String.toList_ofList]
  · intro h
    rw [h, String.ofList_toList]

end Warrant.Text
