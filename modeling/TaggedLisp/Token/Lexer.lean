import TaggedLisp.Fault
import TaggedLisp.Text.Alphanumeric
import TaggedLisp.Text.Blank
import TaggedLisp.Token

/-!
# From text to tokens

Between tokens stand blanks, commas and comments; a comment runs from a semicolon to the end of its
line. A token is a bracket, a quote mark, a string, or a maximal run of symbol characters. Such a
run is one of the words `true`, `false` and `nil`, a numeral, or a symbol.

`lex` reads a whole text. It ends with the reason why it could go no further, which is the end of
the text or a fault, so a reader of the tokens learns of a fault only when it has used up the tokens
before it.
-/

namespace TaggedLisp

/-- A position in a text: the characters still to come and the line they start on. -/
structure Cursor where
  line : Nat
  rest : List Char
  deriving DecidableEq, Repr, Inhabited

/-- The line after `c` was read on line `line`. -/
def lineAfter (line : Nat) (c : Char) : Nat := if c = '\n' then line + 1 else line

/-! ## Between tokens -/

/-- Skips blanks, commas and comments. The flag says whether a comment is being read. -/
def skipTrivia : (inComment : Bool) → (line : Nat) → List Char → Cursor
  | _, line, [] => ⟨line, []⟩
  | true, line, c :: cs => skipTrivia (c != '\n') (lineAfter line c) cs
  | false, line, c :: cs =>
    if c = ';' then skipTrivia true line cs
    else if Text.isBlank c || c == ',' then skipTrivia false (lineAfter line c) cs
    else ⟨line, c :: cs⟩

theorem skipTrivia_length_le (b : Bool) (line : Nat) (cs : List Char) :
    (skipTrivia b line cs).rest.length ≤ cs.length := by
  induction cs generalizing b line with
  | nil => simp [skipTrivia]
  | cons c cs ih =>
    cases b with
    | true => simpa [skipTrivia] using Nat.le_succ_of_le (ih _ _)
    | false =>
      simp only [skipTrivia]
      split
      · exact Nat.le_succ_of_le (ih _ _)
      · split
        · exact Nat.le_succ_of_le (ih _ _)
        · exact Nat.le_refl _

/-! ## Words -/

/-- The characters that symbols and numerals are made of. -/
def isSymbolChar (c : Char) : Bool :=
  Text.isAlphanumeric c
    || ['_', '+', '-', '*', '/', '=', '<', '>', '!', '&', '?', '%', '.'].contains c

/-- Whether `cs` is one or more ASCII digits. -/
def isDigits (cs : List Char) : Bool := !cs.isEmpty && cs.all Char.isDigit

/-- Whether `cs` is a numeral: digits, after at most one minus sign. -/
def isNumeral : List Char → Bool
  | '-' :: cs => isDigits cs
  | cs => isDigits cs

/-- What a run of symbol characters is. -/
def wordKind (cs : List Char) : TokenKind :=
  if cs = ['t', 'r', 'u', 'e'] then .boolean true
  else if cs = ['f', 'a', 'l', 's', 'e'] then .boolean false
  else if cs = ['n', 'i', 'l'] then .nil
  else if isNumeral cs then .number
  else .symbol

/-! ## Strings -/

/-- The character that a backslash and `c` stand for. -/
def unescape : Char → Option Char
  | 'n' => some '\n'
  | 't' => some '\t'
  | '"' => some '"'
  | '\\' => some '\\'
  | _ => none

/-- Reads a string up to its closing quote. A string that has no end is blamed on the line `start`
that it began on, a bad escape on the line after it. -/
def scanString (start : Nat) : (line : Nat) → List Char → Except Fault (List Char × Cursor)
  | _, [] => .error ⟨.unterminatedString, start⟩
  | line, c :: cs =>
    if c = '"' then .ok ([], ⟨line, cs⟩)
    else if c = '\\' then
      match cs with
      | [] => .error ⟨.unterminatedString, start⟩
      | e :: cs =>
        match unescape e with
        | none => .error ⟨.unexpectedChar e, lineAfter line e⟩
        | some d =>
          match scanString start line cs with
          | .error f => .error f
          | .ok (text, cur) => .ok (d :: text, cur)
    else
      match scanString start (lineAfter line c) cs with
      | .error f => .error f
      | .ok (text, cur) => .ok (c :: text, cur)

theorem scanString_length_lt {start line : Nat} {cs text : List Char} {cur : Cursor}
    (h : scanString start line cs = .ok (text, cur)) : cur.rest.length < cs.length := by
  fun_induction scanString start line cs generalizing text cur with
  | case1 | case3 | case4 | case5 | case7 => cases h
  | case2 => cases h; simp
  | case6 =>
    rename_i heq _ ih
    cases h
    have := ih heq
    simp only [List.length_cons]
    omega
  | case8 =>
    rename_i heq ih
    cases h
    have := ih heq
    simp only [List.length_cons]
    omega

/-! ## Tokens -/

/-- What stands at a cursor once trivia is skipped. -/
inductive Scan where
  | finished (line : Nat)
  | token (token : Token) (next : Cursor)
  deriving Repr, Inhabited

/-- The token that starts with `c` on line `line` and goes on in `cs`. -/
def scanToken (line : Nat) (c : Char) (cs : List Char) : Except Fault Scan :=
  match c with
  | '(' => .ok (.token ⟨.opening .list, "(", line⟩ ⟨line, cs⟩)
  | ')' => .ok (.token ⟨.closing .list, ")", line⟩ ⟨line, cs⟩)
  | '[' => .ok (.token ⟨.opening .vector, "[", line⟩ ⟨line, cs⟩)
  | ']' => .ok (.token ⟨.closing .vector, "]", line⟩ ⟨line, cs⟩)
  | '\'' => .ok (.token ⟨.quote, "'", line⟩ ⟨line, cs⟩)
  | '"' =>
    match scanString line line cs with
    | .error f => .error f
    | .ok (text, cur) => .ok (.token ⟨.string, String.ofList text, line⟩ cur)
  | c =>
    if isSymbolChar c then
      let word := c :: cs.takeWhile isSymbolChar
      .ok (.token ⟨wordKind word, String.ofList word, line⟩ ⟨line, cs.dropWhile isSymbolChar⟩)
    else .error ⟨.unexpectedChar c, line⟩

/-- The next token after the cursor. -/
def Cursor.next (cur : Cursor) : Except Fault Scan :=
  match skipTrivia false cur.line cur.rest with
  | ⟨line, []⟩ => .ok (.finished line)
  | ⟨line, c :: cs⟩ => scanToken line c cs

theorem scanToken_length_le {line : Nat} {c : Char} {cs : List Char} {t : Token} {cur : Cursor}
    (h : scanToken line c cs = .ok (.token t cur)) : cur.rest.length ≤ cs.length := by
  unfold scanToken at h
  split at h
  iterate 5 (cases h; exact Nat.le_refl _)
  · split at h
    · cases h
    · rename_i heq
      cases h
      exact Nat.le_of_lt (scanString_length_lt heq)
  · split at h
    · cases h
      exact (List.dropWhile_suffix _).length_le
    · cases h

/-- A token takes at least one character. -/
theorem Cursor.next_length_lt {cur next : Cursor} {t : Token}
    (h : cur.next = .ok (.token t next)) : next.rest.length < cur.rest.length := by
  have hskip := skipTrivia_length_le false cur.line cur.rest
  unfold Cursor.next at h
  split at h
  · cases h
  · rename_i heq
    have := scanToken_length_le h
    rw [heq] at hskip
    simp only [List.length_cons] at hskip
    omega

/-! ## Whole texts -/

/-- Why reading tokens came to an end. -/
inductive Stop where
  | endOfText (line : Nat)
  | fault (fault : Fault)
  deriving Repr, Inhabited

/-- The tokens of a text and why there are no more. -/
structure Lexed where
  tokens : List Token
  stop : Stop
  deriving Repr, Inhabited

/-- All tokens after the cursor. -/
def Cursor.lex (cur : Cursor) : Lexed :=
  match _h : cur.next with
  | .error f => ⟨[], .fault f⟩
  | .ok (.finished line) => ⟨[], .endOfText line⟩
  | .ok (.token t next) =>
    let tail := next.lex
    ⟨t :: tail.tokens, tail.stop⟩
termination_by cur.rest.length
decreasing_by exact Cursor.next_length_lt _h

/-- All tokens of a text, whose first line is line one. -/
def lex (source : String) : Lexed := Cursor.lex ⟨1, source.toList⟩

end TaggedLisp
