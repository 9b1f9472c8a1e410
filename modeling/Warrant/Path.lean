import Warrant.Malformed
import Warrant.Text.Cut

/-!
# Resource paths

A path lists named levels from the root down. A privilege on a path applies to every path that it
covers, that is, of which it is a leading part.
-/

namespace Warrant

/-- One level of a path. -/
structure Segment where
  name : String
  value : String
  deriving DecidableEq, Repr

/-- A list of levels, the root first. -/
structure Path where
  segments : List Segment
  deriving DecidableEq, Repr

namespace Segment

/-- The mark between the name and the value of a level. -/
def equals : Char := '='

/-- The characters of a level: its name, the mark and its value. -/
def chars (s : Segment) : List Char := s.name.toList ++ equals :: s.value.toList

/-- Reads a level: the first mark ends the name, and neither side is empty. -/
def read? (cs : List Char) : Option Segment :=
  match Text.cut? equals cs with
  | some (name, value) =>
    if name.isEmpty || value.isEmpty then none
    else some ⟨String.ofList name, String.ofList value⟩
  | none => none

end Segment

namespace Path

/-- The mark between two levels. -/
def slash : Char := '/'

def size (p : Path) : Nat := p.segments.length

/-- The text of a path: its levels, joined by the mark. -/
def text (p : Path) : String := String.ofList (Text.joined slash (p.segments.map Segment.chars))

/-- Reads a path; the first part that is no level is refused. -/
def read? (s : String) : Except Malformed Path := do
  let segments ← (Text.parts slash s.toList).mapM fun part =>
    match Segment.read? part with
    | some segment => Except.ok segment
    | none => .error (.pathSegment (String.ofList part) s)
  return ⟨segments⟩

/-- The path is a leading part of the other one, or all of it. -/
def covers (p q : Path) : Bool := p.segments.isPrefixOf q.segments

/-- The path with one more level. -/
def child (p : Path) (name value : String) : Path := ⟨p.segments ++ [⟨name, value⟩]⟩

theorem covers_self (p : Path) : p.covers p = true := List.isPrefixOf_iff_prefix.mpr List.prefix_rfl

theorem covers_iff {p q : Path} : p.covers q = true ↔ ∃ rest, q.segments = p.segments ++ rest := by
  rw [covers, List.isPrefixOf_iff_prefix, List.IsPrefix]
  exact ⟨fun ⟨t, h⟩ => ⟨t, h.symm⟩, fun ⟨t, h⟩ => ⟨t, h.symm⟩⟩

end Path

end Warrant
