/-!
# Character classes as ranges of code points

The tables of this library list a class as ascending ranges, ends included.
-/
namespace Pseudocode.Text

/-- Ranges of code points, ends included. -/
abbrev Ranges := List (Nat × Nat)

def Ranges.contains (rs : Ranges) (c : Char) : Bool :=
  rs.any fun (low, high) => low ≤ c.toNat && c.toNat ≤ high

theorem Ranges.contains_iff {rs : Ranges} {c : Char} :
    rs.contains c = true ↔ ∃ low high, (low, high) ∈ rs ∧ low ≤ c.toNat ∧ c.toNat ≤ high := by
  simp [Ranges.contains]

end Pseudocode.Text
