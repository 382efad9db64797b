import TaggedLisp.Text.Printable

/-!
# Quoted text

A text between double quotes, on one line, in which every character can be seen: quotes,
backslashes, tabs, line ends and the null character have a two-character escape, and whatever else
cannot be shown as it is, or would attach itself to its neighbour, is written by its code point.
-/

namespace TaggedLisp.Text

/-- The code point of `c` in lower-case hexadecimal, between braces. -/
def escapeCodePoint (c : Char) : List Char :=
  "\\u\x7b".toList ++ Nat.toDigits 16 c.toNat ++ ['\x7d']

/-- One character inside quoted text. -/
def quoteChar (c : Char) : List Char :=
  if c = '\x00' then ['\\', '0']
  else if c = '\t' then ['\\', 't']
  else if c = '\n' then ['\\', 'n']
  else if c = '\r' then ['\\', 'r']
  else if c = '"' then ['\\', '"']
  else if c = '\\' then ['\\', '\\']
  else if isPrintable c && !extendsGrapheme c then [c]
  else escapeCodePoint c

/-- The characters of `cs` between double quotes. -/
def quoteChars (cs : List Char) : List Char :=
  '"' :: (cs.flatMap quoteChar ++ ['"'])

/-- `s` between double quotes. -/
def quote (s : String) : String := String.ofList (quoteChars s.toList)

end TaggedLisp.Text
