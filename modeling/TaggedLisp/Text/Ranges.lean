/-!
# Character classes given by ranges

A class of characters beyond ASCII is a table of closed intervals of code points, in increasing
order. Membership is one scan; the callers answer for ASCII before they look here, so the scan is
rare and its cost does not matter.
-/

namespace TaggedLisp.Text

/-- Closed intervals of code points, in increasing order. -/
abbrev Ranges := Array (Nat × Nat)

namespace Ranges

/-- Whether some interval of the table holds the code point of `c`. -/
def has (table : Ranges) (c : Char) : Bool :=
  table.any fun r ↦ r.1 ≤ c.toNat && c.toNat ≤ r.2

theorem has_eq_true_iff {table : Ranges} {c : Char} :
    table.has c = true ↔ ∃ r ∈ table, r.1 ≤ c.toNat ∧ c.toNat ≤ r.2 := by
  rw [has, Array.any_eq_true']
  simp only [Bool.and_eq_true, decide_eq_true_eq]

end Ranges

end TaggedLisp.Text
