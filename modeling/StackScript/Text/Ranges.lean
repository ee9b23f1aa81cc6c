/-!
# StackScript.Text.Ranges — sets of characters given by ranges of code points

The character properties of the library are tables of closed ranges, in ascending order.  This
module holds the table type and its membership test.  No table here.
-/

namespace StackScript.Text

/-- Closed ranges of code points, ascending and apart. -/
abbrev Ranges := List (Nat × Nat)

/-- `n` lies in one of the ranges. -/
def Ranges.has (rs : Ranges) (n : Nat) : Bool :=
  rs.any fun r => decide (r.1 ≤ n) && decide (n ≤ r.2)

theorem Ranges.has_iff {rs : Ranges} {n : Nat} :
    rs.has n = true ↔ ∃ r ∈ rs, r.1 ≤ n ∧ n ≤ r.2 := by
  simp [Ranges.has]

end StackScript.Text
