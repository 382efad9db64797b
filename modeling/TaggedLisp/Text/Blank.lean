import TaggedLisp.Text.Ranges

/-!
# Blank characters

The blank characters are those with the Unicode property `White_Space`. The four ASCII separators
`U+001C` to `U+001F` and the zero-width space are not among them.
-/

namespace TaggedLisp.Text

/-- Blank characters beyond ASCII. -/
def blankRanges : Ranges := #[
  (0x85, 0x85), (0xA0, 0xA0), (0x1680, 0x1680), (0x2000, 0x200A), (0x2028, 0x2029),
  (0x202F, 0x202F), (0x205F, 0x205F), (0x3000, 0x3000)]

/-- Whether `c` is a blank character. -/
def isBlank (c : Char) : Bool :=
  if c.toNat < 128 then c == ' ' || (9 ≤ c.toNat && c.toNat ≤ 13) else blankRanges.has c

/-- Every character that core counts as white space is blank. -/
theorem isBlank_of_isWhitespace {c : Char} (h : c.isWhitespace = true) : isBlank c = true := by
  simp only [Char.isWhitespace, Bool.or_eq_true, decide_eq_true_eq] at h
  rcases h with ((h | h) | h) | h <;> subst h <;> decide

theorem isBlank_newline : isBlank '\n' = true := by decide

end TaggedLisp.Text
