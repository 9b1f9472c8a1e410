import Warrant.Proofs.Owners

/-!
# How paths are spelled

A level is spelled as its name and its value with the mark `=` between them, and a path as its levels
with the mark `/` between any two. A text is read level by level; what can be read is a name up to the
first `=` and a value behind it (`Segment.IsLevel`), so a value may hold that mark again and a name may
not. Reading undoes writing on the paths whose levels are legible, and on no other ones
(`Path.read?_text_iff`).
-/

namespace Warrant

namespace Text

theorem parts_eq_splitOn (mark : Char) (cs : List Char) : parts mark cs = cs.splitOn mark := by
  induction cs with
  | nil => rfl
  | cons c rest ih =>
    rw [parts, List.splitOn_cons_eq_if_modifyHead, ← ih]
    by_cases hc : c = mark
    · simp [hc]
    · rw [if_neg hc, if_neg (by simpa using hc)]
      cases hparts : parts mark rest with
      | nil => exact absurd hparts (parts_ne_nil mark rest)
      | cons first more => rfl

theorem joined_eq_intercalate (mark : Char) (ps : List (List Char)) :
    joined mark ps = [mark].intercalate ps := by
  induction ps with
  | nil => rfl
  | cons part more ih =>
    cases more with
    | nil => simp [joined]
    | cons next more => rw [joined, ih, List.intercalate_cons_cons, List.append_assoc]; rfl

end Text

namespace Segment

variable {part : List Char} {s : Segment}

/-- The text is a name and a value, neither of them empty, with the mark between them; the first mark
ends the name. -/
def IsLevel (part : List Char) : Prop :=
  ∃ name value, part = name ++ equals :: value ∧ name ≠ [] ∧ value ≠ [] ∧ equals ∉ name

theorem read?_isSome_iff : (∃ s, read? part = some s) ↔ IsLevel part := by
  constructor
  · rintro ⟨s, h⟩
    obtain ⟨rfl, hname, hvalue, hequals⟩ := read?_eq_some_iff.mp h
    exact ⟨_, _, rfl, hname, hvalue, hequals⟩
  · rintro ⟨name, value, rfl, hname, hvalue, hequals⟩
    refine ⟨⟨String.ofList name, String.ofList value⟩, read?_eq_some_iff.mpr ?_⟩
    simp [chars, hname, hvalue, hequals]

theorem read?_eq_none_iff : read? part = none ↔ ¬ IsLevel part := by
  rw [← read?_isSome_iff, ← Option.ne_none_iff_exists', Classical.not_not]

/-- A level is legible if its name holds neither mark and its value not the one between levels. -/
theorem legible_iff : s.Legible ↔ s.name ≠ "" ∧ Path.slash ∉ s.name.toList ∧
    equals ∉ s.name.toList ∧ s.value ≠ "" ∧ Path.slash ∉ s.value.toList := by
  have hslash : Path.slash ∉ s.chars ↔ Path.slash ∉ s.name.toList ∧ Path.slash ∉ s.value.toList := by
    simp [chars, Path.slash, equals]
  have hempty : ∀ t : String, t.toList ≠ [] ↔ t ≠ "" := fun t => by simp
  constructor
  · rintro ⟨hname, hvalue, hequals, hmark⟩
    obtain ⟨hfront, hbehind⟩ := hslash.mp hmark
    exact ⟨(hempty _).mp hname, hfront, hequals, (hempty _).mp hvalue, hbehind⟩
  · rintro ⟨hname, hfront, hequals, hvalue, hbehind⟩
    exact ⟨(hempty _).mpr hname, (hempty _).mpr hvalue, hequals, hslash.mpr ⟨hfront, hbehind⟩⟩

end Segment

namespace Path

variable {s : String} {p : Path} {reason : Malformed}

theorem text_eq_intercalate (p : Path) :
    p.text = "/".intercalate (p.segments.map fun s => s.name ++ "=" ++ s.value) := by
  apply String.toList_injective
  rw [text, String.toList_ofList, Text.joined_eq_intercalate, String.toList_intercalate, List.map_map]
  congr 1
  refine List.map_congr_left fun s _ => ?_
  simp [Segment.chars, Segment.equals]

/-- Reads one level of the text. -/
def level? (s : String) (part : List Char) : Except Malformed Segment :=
  match Segment.read? part with
  | some segment => .ok segment
  | none => .error (.pathSegment (String.ofList part) s)

theorem read?_eq (s : String) :
    read? s = ((Text.parts slash s.toList).mapM (level? s)) >>= fun segments => .ok ⟨segments⟩ := rfl

theorem level?_eq_error_iff {part : List Char} : level? s part = .error reason ↔
    ¬ Segment.IsLevel part ∧ reason = .pathSegment (String.ofList part) s := by
  rw [level?, ← Segment.read?_eq_none_iff]
  cases Segment.read? part <;> simp [eq_comm]

theorem level?_isOk_iff {part : List Char} :
    (∃ segment, level? s part = .ok segment) ↔ Segment.IsLevel part := by
  rw [level?, ← Segment.read?_isSome_iff]
  cases Segment.read? part <;> simp

theorem read?_isOk_iff :
    (∃ p, read? s = .ok p) ↔ ∀ part ∈ s.toList.splitOn slash, Segment.IsLevel part := by
  rw [← Text.parts_eq_splitOn, read?_eq]
  have hall : (∃ segments, (Text.parts slash s.toList).mapM (level? s) = .ok segments) ↔
      ∀ part ∈ Text.parts slash s.toList, Segment.IsLevel part := by
    rw [mapM_isOk_iff]
    exact forall₂_congr fun _ _ => level?_isOk_iff
  rw [← hall]
  constructor
  · rintro ⟨p, h⟩
    obtain ⟨segments, hsegments, -⟩ := bind_eq_ok_iff.mp h
    exact ⟨segments, hsegments⟩
  · rintro ⟨segments, h⟩
    exact ⟨⟨segments⟩, bind_eq_ok_iff.mpr ⟨segments, h, rfl⟩⟩

/-- A text that cannot be read is refused for its first part that is no level. -/
theorem read?_eq_error_iff : read? s = .error reason ↔
    ∃ front part rest, s.toList.splitOn slash = front ++ part :: rest ∧
      (∀ q ∈ front, Segment.IsLevel q) ∧ ¬ Segment.IsLevel part ∧
      reason = .pathSegment (String.ofList part) s := by
  rw [← Text.parts_eq_splitOn, read?_eq]
  have hfirst : (Text.parts slash s.toList).mapM (level? s) = .error reason ↔
      ∃ front part rest, Text.parts slash s.toList = front ++ part :: rest ∧
        (∀ q ∈ front, Segment.IsLevel q) ∧ ¬ Segment.IsLevel part ∧
        reason = .pathSegment (String.ofList part) s := by
    simp only [mapM_eq_error_iff, level?_isOk_iff, level?_eq_error_iff]
  rw [← hfirst, bind_eq_error_iff]
  exact or_iff_left fun ⟨_, _, h⟩ => nomatch h

/-- Every level that is read is legible. -/
theorem legible_of_read? (h : read? s = .ok p) : ∀ segment ∈ p.segments, segment.Legible := by
  intro segment hsegment
  obtain ⟨segments, hsegments, hp⟩ := bind_eq_ok_iff.mp (read?_eq s ▸ h)
  cases hp
  obtain ⟨part, hpart, hlevel⟩ := (mapM_eq_ok hsegments).2 segment hsegment
  have hread : Segment.read? part = some segment := by
    rw [level?] at hlevel
    split at hlevel
    · rename_i hread
      rw [hread, Except.ok.inj hlevel]
    · cases hlevel
  obtain ⟨rfl, hname, hvalue, hequals⟩ := Segment.read?_eq_some_iff.mp hread
  exact ⟨hname, hvalue, hequals, Text.not_mem_of_mem_parts hpart⟩

/-- No text is that of a path without levels. -/
theorem segments_ne_nil_of_read? (h : read? s = .ok p) : p.segments ≠ [] := by
  intro hnil
  have htext : s = "" := by rw [← text_of_read? h, text_eq_intercalate, hnil]; rfl
  have hlevel : Segment.IsLevel [] := read?_isOk_iff.mp ⟨p, h⟩ [] (by simp [htext])
  obtain ⟨name, value, hpart, -⟩ := hlevel
  simp at hpart

/-- A path is read back from its text if and only if it has levels and all of them are legible. -/
theorem read?_text_iff : read? p.text = .ok p ↔ p.segments ≠ [] ∧ ∀ s ∈ p.segments, s.Legible :=
  ⟨fun h => ⟨segments_ne_nil_of_read? h, legible_of_read? h⟩, fun h => read?_text h.1 h.2⟩

/-- A text can be read if and only if every part between slashes is a level, and what is read is written
as that text again; otherwise it is refused for its first part that is no level. A path is read back from
its text if and only if it has levels, their names are not empty and hold neither mark, and their values
are not empty and hold no slash. -/
theorem spelling_exact :
    (∀ p : Path, p.text = "/".intercalate (p.segments.map fun s => s.name ++ "=" ++ s.value)) ∧
    (∀ s, (∃ p, read? s = .ok p) ↔ ∀ part ∈ s.toList.splitOn '/', Segment.IsLevel part) ∧
    (∀ s p, read? s = .ok p → p.text = s) ∧
    (∀ s reason, read? s = .error reason ↔
      ∃ front part rest, s.toList.splitOn '/' = front ++ part :: rest ∧
        (∀ q ∈ front, Segment.IsLevel q) ∧ ¬ Segment.IsLevel part ∧
        reason = .pathSegment (String.ofList part) s) ∧
    ∀ p : Path, read? p.text = .ok p ↔ p.segments ≠ [] ∧ ∀ s ∈ p.segments,
      s.name ≠ "" ∧ '/' ∉ s.name.toList ∧ '=' ∉ s.name.toList ∧ s.value ≠ "" ∧ '/' ∉ s.value.toList := by
  refine ⟨text_eq_intercalate, fun s => read?_isOk_iff, fun s p => text_of_read?,
    fun s reason => read?_eq_error_iff, fun p => read?_text_iff.trans ?_⟩
  exact and_congr_right fun _ => forall₂_congr fun s _ => Segment.legible_iff

namespace Sample

/-- Of two levels the first one has a value with the mark in it, the second one a value that is nothing
but the mark. -/
def marked : Path := ⟨[⟨"instance", "a=b"⟩, ⟨"x", "="⟩]⟩

/-- A level whose name holds the mark that ends names. -/
def cleft : Path := ⟨[⟨"instance=a", "b"⟩]⟩

/-- Only the first mark ends a name: one path is read back, and the other one is read as a different one,
with the same text. -/
theorem first_mark_counts : read? "instance=a=b/x==" = .ok marked ∧ read? cleft.text ≠ .ok cleft ∧
    (∃ p, read? cleft.text = .ok p ∧ p ≠ cleft ∧ p.text = cleft.text) ∧
    read? "instance=a/=b" = .error (.pathSegment "=b" "instance=a/=b") := by
  obtain ⟨-, -, hback, herror, hexact⟩ := spelling_exact
  have hmarked : read? marked.text = .ok marked := (hexact marked).mpr ⟨by decide, by decide⟩
  have hcleft : read? cleft.text ≠ .ok cleft := fun h => by
    have hname := ((hexact cleft).mp h).2 ⟨"instance=a", "b"⟩ (by decide)
    exact absurd hname.2.2.1 (by decide)
  have hread : read? cleft.text = .ok ⟨[⟨"instance", "a=b"⟩]⟩ :=
    toOption_eq_some_iff.mp (by decide +kernel)
  refine ⟨hmarked, hcleft, ⟨_, hread, by decide, hback _ _ hread⟩, ?_⟩
  refine (herror _ _).mpr ⟨["instance=a".toList], "=b".toList, [], by decide +kernel, ?_, ?_, by decide⟩
  · intro q hq
    obtain rfl := List.mem_singleton.mp hq
    exact Segment.read?_isSome_iff.mp ⟨⟨"instance", "a"⟩, by decide +kernel⟩
  · exact Segment.read?_eq_none_iff.mp (by decide +kernel)

end Sample

end Path

end Warrant
