/-!
# Cutting texts at a mark

`cut?` cuts at the first mark, `parts` at every mark, and `joined` puts the parts together again:
`joined_parts` and `parts_joined` say that the last two undo each other on parts that hold no mark.
-/

namespace Warrant.Text

/-- The characters before and after the first mark, if the mark occurs. -/
def cut? (mark : Char) : List Char → Option (List Char × List Char)
  | [] => none
  | c :: rest =>
    if c = mark then some ([], rest)
    else (cut? mark rest).map fun (before, after) => (c :: before, after)

/-- The parts between the marks, at least one. -/
def parts (mark : Char) : List Char → List (List Char)
  | [] => [[]]
  | c :: rest =>
    if c = mark then [] :: parts mark rest
    else match parts mark rest with
      | [] => [[c]]
      | part :: more => (c :: part) :: more

/-- The parts one after the other with a mark between any two. -/
def joined (mark : Char) : List (List Char) → List Char
  | [] => []
  | [part] => part
  | part :: next :: more => part ++ mark :: joined mark (next :: more)

theorem parts_ne_nil (mark : Char) (cs : List Char) : parts mark cs ≠ [] := by
  cases cs with
  | nil => simp [parts]
  | cons c rest =>
    rw [parts]
    split
    · simp
    · split <;> simp

theorem joined_parts (mark : Char) (cs : List Char) : joined mark (parts mark cs) = cs := by
  induction cs with
  | nil => rfl
  | cons c rest ih =>
    rw [parts]
    split
    · rename_i h
      cases hp : parts mark rest with
      | nil => exact absurd hp (parts_ne_nil mark rest)
      | cons part more => rw [hp] at ih; simp [joined, ih, h]
    · cases hp : parts mark rest with
      | nil => exact absurd hp (parts_ne_nil mark rest)
      | cons part more =>
        rw [hp] at ih
        cases more with
        | nil => simpa [joined] using ih
        | cons next more => simpa [joined] using ih

theorem parts_of_not_mem {mark : Char} {cs : List Char} (h : mark ∉ cs) : parts mark cs = [cs] := by
  induction cs with
  | nil => rfl
  | cons c rest ih =>
    have hc : c ≠ mark := fun hc => h (hc ▸ List.mem_cons_self ..)
    rw [parts, if_neg hc, ih fun hr => h (List.mem_cons_of_mem _ hr)]

theorem not_mem_of_mem_parts {mark : Char} {cs part : List Char} (h : part ∈ parts mark cs) :
    mark ∉ part := by
  induction cs generalizing part with
  | nil =>
    obtain rfl : part = [] := by simpa [parts] using h
    simp
  | cons c rest ih =>
    rw [parts] at h
    split at h
    · rcases List.mem_cons.mp h with rfl | h
      · simp
      · exact ih h
    · rename_i hc
      split at h
      · rename_i hparts
        exact absurd hparts (parts_ne_nil mark rest)
      · rename_i first more hparts
        rcases List.mem_cons.mp h with rfl | h
        · have hfirst : mark ∉ first := ih (by rw [hparts]; exact List.mem_cons_self ..)
          simpa [hfirst] using Ne.symm hc
        · exact ih (by rw [hparts]; exact List.mem_cons_of_mem _ h)

theorem parts_append_mark {mark : Char} {cs : List Char} (h : mark ∉ cs) (rest : List Char) :
    parts mark (cs ++ mark :: rest) = cs :: parts mark rest := by
  induction cs with
  | nil => simp [parts]
  | cons c cs ih =>
    have hc : c ≠ mark := fun hc => h (hc ▸ List.mem_cons_self ..)
    rw [List.cons_append, parts, if_neg hc, ih fun hr => h (List.mem_cons_of_mem _ hr)]

theorem parts_joined {mark : Char} {ps : List (List Char)} (hne : ps ≠ [])
    (h : ∀ p ∈ ps, mark ∉ p) : parts mark (joined mark ps) = ps := by
  induction ps with
  | nil => exact absurd rfl hne
  | cons part more ih =>
    cases more with
    | nil => exact parts_of_not_mem (h part (List.mem_cons_self ..))
    | cons next more =>
      rw [joined, parts_append_mark (h part (List.mem_cons_self ..)),
        ih (by simp) fun p hp => h p (List.mem_cons_of_mem _ hp)]

/-- A cut gives the first mark: no mark stands before it. -/
theorem cut?_eq_some_iff {mark : Char} {cs before after : List Char} :
    cut? mark cs = some (before, after) ↔ cs = before ++ mark :: after ∧ mark ∉ before := by
  induction cs generalizing before with
  | nil => simp [cut?]
  | cons c rest ih =>
    rw [cut?]
    split
    · rename_i h
      subst h
      constructor
      · intro he
        obtain ⟨rfl, rfl⟩ : before = [] ∧ after = rest := by simpa [eq_comm] using he
        simp
      · rintro ⟨he, hm⟩
        cases before with
        | nil => simpa [eq_comm] using he
        | cons b bs => simp at he; simp [he.1] at hm
    · rename_i h
      cases before with
      | nil => simp [h]
      | cons b bs =>
        simp only [Option.map_eq_some_iff, Prod.mk.injEq, List.cons.injEq, Prod.exists,
          List.cons_append, List.mem_cons, not_or]
        constructor
        · rintro ⟨x, y, hxy, ⟨rfl, rfl⟩, rfl⟩
          obtain ⟨he, hm⟩ := ih.mp hxy
          exact ⟨⟨rfl, he⟩, fun e => h e.symm, hm⟩
        · rintro ⟨⟨rfl, he⟩, _, hm⟩
          exact ⟨bs, after, ih.mpr ⟨he, hm⟩, ⟨rfl, rfl⟩, rfl⟩

theorem cut?_eq_none_iff {mark : Char} {cs : List Char} : cut? mark cs = none ↔ mark ∉ cs := by
  induction cs with
  | nil => simp [cut?]
  | cons c rest ih =>
    rw [cut?]
    split
    · rename_i h; simp [h]
    · rename_i h
      simp [ih, Ne.symm h]

end Warrant.Text
