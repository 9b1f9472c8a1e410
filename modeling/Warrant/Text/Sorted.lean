/-!
# Sorted texts

Texts in the order of their code points, each once.
-/

namespace Warrant.Text

/-- The first text comes no later than the second one: at the first difference it has the lower code
point, or it ends first. -/
def isAtMost : List Char → List Char → Bool
  | [], _ => true
  | _ :: _, [] => false
  | c :: cs, d :: ds => Nat.blt c.toNat d.toNat || (c == d && isAtMost cs ds)

/-- The distinct texts of a list in ascending order. -/
def sortedDistinct (texts : List String) : List String :=
  texts.eraseDups.mergeSort fun s t => isAtMost s.toList t.toList

@[simp] theorem mem_sortedDistinct {texts : List String} {t : String} :
    t ∈ sortedDistinct texts ↔ t ∈ texts := by
  rw [sortedDistinct, List.mem_mergeSort, List.mem_eraseDups]

end Warrant.Text
