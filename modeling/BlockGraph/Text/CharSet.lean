/-!
Sets of characters given by ranges of code points.

The classes of characters that texts are read and written by are properties of the Unicode
character database.  Each one is a table of ranges, and membership is a search in that table.
-/

namespace BlockGraph

/-- A set of characters, as the closed ranges of code points that it covers, in ascending
order. -/
structure CharSet where
  ranges : List (Nat × Nat)

namespace CharSet

/-- The ranges of code points from `next` on, told by the lengths of stretches: in turn one that is
left out and one that is a range. -/
def stretches (next : Nat) : List Nat → List (Nat × Nat)
  | outside :: inside :: rest =>
    (next + outside, next + outside + inside - 1) :: stretches (next + outside + inside) rest
  | _ => []

/-- The set with these lengths of stretches outside and inside of it, from the first code point
on. -/
def ofStretches (lengths : List Nat) : CharSet :=
  ⟨stretches 0 lengths⟩

def contains (s : CharSet) (c : Char) : Bool :=
  s.ranges.any fun range => range.1 ≤ c.toNat && c.toNat ≤ range.2

theorem contains_iff (s : CharSet) (c : Char) :
    s.contains c = true ↔ ∃ range ∈ s.ranges, range.1 ≤ c.toNat ∧ c.toNat ≤ range.2 := by
  simp [contains]

end CharSet

end BlockGraph
