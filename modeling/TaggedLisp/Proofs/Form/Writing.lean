import TaggedLisp.Proofs.Form.Scanning

/-!
# Written tokens are read

Tokens can be written in many ways. The characters of a string are written as they are or with
escapes, and before, between and behind tokens stands any trivia, of which there must be some only
between two words. All of them are read alike: `lex_written` says that reading gives these tokens,
each on the line of its first character, and then the end of the text.

What can be written is said without the scanner: `Trivia`, `WritesText` and `Lexeme` follow the
rules of the notation, and a `WrittenToken` is a token as it is written, with the trivia before it.
-/

namespace TaggedLisp

/-! ## What can be written -/

/-- Blanks, commas and comments; a comment goes on to the end of its line. -/
inductive Trivia : List Char → Prop where
  | nil : Trivia []
  | blank {c cs} (hc : Text.isBlank c = true ∨ c = ',') (h : Trivia cs) : Trivia (c :: cs)
  | comment {text cs} (htext : '\n' ∉ text) (h : Trivia cs) : Trivia (';' :: (text ++ '\n' :: cs))

/-- The ways to write a character of a string. A quote and a backslash are always escaped, the end
of a line and a tab may be. -/
inductive WritesChar : Char → List Char → Prop where
  | itself {c} (hquote : c ≠ '"') (hbackslash : c ≠ '\\') : WritesChar c [c]
  | quote : WritesChar '"' ['\\', '"']
  | backslash : WritesChar '\\' ['\\', '\\']
  | newline : WritesChar '\n' ['\\', 'n']
  | tab : WritesChar '\t' ['\\', 't']

/-- The ways to write what stands between the quotes of a string. -/
inductive WritesText : List Char → List Char → Prop where
  | nil : WritesText [] []
  | cons {c cs text written} (hc : WritesChar c cs) (h : WritesText text written) :
      WritesText (c :: text) (cs ++ written)

/-- One or more digits, perhaps after a minus sign. -/
inductive Numeral : List Char → Prop where
  | plain {ds} (hne : ds ≠ []) (hds : ∀ d ∈ ds, d.isDigit = true) : Numeral ds
  | negative {ds} (hne : ds ≠ []) (hds : ∀ d ∈ ds, d.isDigit = true) : Numeral ('-' :: ds)

/-- The words that mean the same in every program. -/
def keywords : List (List Char) :=
  [['t', 'r', 'u', 'e'], ['f', 'a', 'l', 's', 'e'], ['n', 'i', 'l']]

/-- The words of each kind: keywords, numerals, and all other runs of symbol characters. -/
inductive Lexeme : TokenKind → List Char → Prop where
  | boolean (b : Bool) : Lexeme (.boolean b) (toString b).toList
  | nil : Lexeme .nil "nil".toList
  | number {cs} (h : Numeral cs) : Lexeme .number cs
  | symbol {cs} (hne : cs ≠ []) (hchars : ∀ c ∈ cs, isSymbolChar c = true) (hnumeral : ¬Numeral cs)
      (hkeyword : cs ∉ keywords) : Lexeme .symbol cs

/-- The ways to write a token. -/
inductive Writes : Spelling → List Char → Prop where
  | opening (s : Shape) : Writes s.opening [s.opener]
  | closing (s : Shape) : Writes s.closing [s.closer]
  | quote : Writes quoteMark ['\'']
  | string {text written} (h : WritesText text.toList written) :
      Writes (.string, text) ('"' :: (written ++ ['"']))
  | word {kind lexeme} (h : Lexeme kind lexeme.toList) : Writes (kind, lexeme) lexeme.toList

/-- Whether tokens of the kind are words. -/
def TokenKind.IsWord : TokenKind → Prop
  | symbol | number | boolean _ | nil => True
  | opening _ | closing _ | quote | string => False

/-- A token as it is written, with the trivia before it. -/
structure WrittenToken where
  gap : List Char
  token : Spelling
  text : List Char
  trivia : Trivia gap
  writes : Writes token text

namespace WrittenToken

/-- All that is written. -/
def whole (p : WrittenToken) : List Char := p.gap ++ p.text

/-- Trivia stands between the two if both are words. -/
def Apart (p q : WrittenToken) : Prop := p.token.1.IsWord → q.token.1.IsWord → q.gap ≠ []

end WrittenToken

/-! ## Trivia -/

theorem lineAfter_eq (line : Nat) (c : Char) : lineAfter line c = line + [c].count '\n' := by
  rw [lineAfter, List.count_singleton]
  by_cases hc : c = '\n' <;> simp [hc]

/-- A comment is skipped to the end of its line. -/
theorem skipTrivia_comment {text : List Char} (h : '\n' ∉ text) (line : Nat) (rest : List Char) :
    skipTrivia true line (text ++ '\n' :: rest) = skipTrivia false (line + 1) rest := by
  induction text with
  | nil => rfl
  | cons c text ih =>
    have hc : c ≠ '\n' := (List.ne_of_not_mem_cons h).symm
    have htext : '\n' ∉ text := List.not_mem_of_not_mem_cons h
    rw [List.cons_append, skipTrivia, bne_iff_ne.mpr hc, lineAfter, if_neg hc, ih htext]

theorem Trivia.skip {cs : List Char} (h : Trivia cs) (line : Nat) (rest : List Char) :
    skipTrivia false line (cs ++ rest) = skipTrivia false (line + cs.count '\n') rest := by
  induction h generalizing line with
  | nil => rfl
  | @blank c cs hc _ ih =>
    have hsemicolon : c ≠ ';' := by
      rintro rfl
      exact absurd hc (by decide)
    have hblank : (Text.isBlank c || c == ',') = true := by simpa using hc
    rw [List.cons_append, skipTrivia, if_neg hsemicolon, if_pos hblank, ih, lineAfter_eq,
      Nat.add_assoc, ← List.count_append, List.singleton_append]
  | @comment text cs htext _ ih =>
    have hcount : (';' :: (text ++ '\n' :: cs)).count '\n' = 1 + cs.count '\n' := by
      simp [List.count_append, List.count_eq_zero.mpr htext, Nat.add_comm]
    rw [hcount, ← Nat.add_assoc, ← ih, List.cons_append, List.append_assoc, skipTrivia, if_pos rfl,
      List.cons_append, skipTrivia_comment htext]

theorem Trivia.next {cs : List Char} (h : Trivia cs) (line : Nat) (rest : List Char) :
    (Cursor.mk line (cs ++ rest)).next = (Cursor.mk (line + cs.count '\n') rest).next := by
  simp only [Cursor.next, h.skip]

/-- A word does not go on with trivia. -/
theorem Trivia.ends {cs : List Char} (h : Trivia cs) (hne : cs ≠ []) (rest : List Char) :
    Ends (cs ++ rest) := by
  cases h with
  | nil => exact absurd rfl hne
  | blank hc _ =>
    rw [List.cons_append, ends_cons]
    rcases hc with hc | rfl
    · exact isSymbolChar_eq_false_of_isBlank hc
    · decide
  | comment _ _ =>
    rw [List.cons_append, ends_cons]
    decide

theorem Trivia.ends_alone {cs : List Char} (h : Trivia cs) : Ends cs := by
  by_cases hne : cs = []
  · exact hne ▸ ends_nil
  · simpa using h.ends hne []

/-! ## Strings and words -/

/-- An escape stands on one line. -/
theorem count_escape {c e : Char} (h : unescape e = some c) (cs : List Char) :
    (['\\', e] ++ cs).count '\n' = cs.count '\n' := by
  have hnewline : e ≠ '\n' := by
    rintro rfl
    cases h
  simp [hnewline]

/-- The scanner gets through what is written of a string, whatever follows. -/
theorem scanString_append {text written : List Char} (h : WritesText text written)
    (start line : Nat) (rest : List Char) : scanString start line (written ++ rest)
      = (scanString start (line + written.count '\n') rest).map fun p ↦ (text ++ p.1, p.2) := by
  induction h generalizing line with
  | nil =>
    rw [List.nil_append, List.count_nil, Nat.add_zero]
    cases scanString start line rest <;> rfl
  | @cons c cs text written hc _ ih =>
    have hcons : ∀ line', ((scanString start line' rest).map fun p ↦ (text ++ p.1, p.2)).map
        (fun p ↦ (c :: p.1, p.2)) =
          (scanString start line' rest).map fun p ↦ (c :: text ++ p.1, p.2) := fun line' ↦ by
      cases scanString start line' rest <;> rfl
    have hescape : ∀ e, unescape e = some c →
        scanString start line (['\\', e] ++ written ++ rest)
          = (scanString start (line + (['\\', e] ++ written).count '\n') rest).map
              fun p ↦ (c :: text ++ p.1, p.2) := by
      intro e he
      rw [count_escape he, ← hcons, ← ih]
      exact scanString_escape start line (written ++ rest) he
    cases hc with
    | itself hquote hbackslash =>
      rw [List.singleton_append, List.cons_append, scanString_char start line _ hquote hbackslash,
        ih, hcons, lineAfter_eq, Nat.add_assoc, ← List.count_append, List.singleton_append]
    | quote => exact hescape '"' rfl
    | backslash => exact hescape '\\' rfl
    | newline => exact hescape 'n' rfl
    | tab => exact hescape 't' rfl

theorem scanString_written {text written : List Char} (h : WritesText text written)
    (start line : Nat) (rest : List Char) : scanString start line (written ++ '"' :: rest)
      = .ok (text, ⟨line + written.count '\n', rest⟩) := by
  rw [scanString_append h, scanString_close]
  exact congrArg (fun cs ↦ Except.ok (cs, _)) (List.append_nil text)

theorem isNumeral_iff {cs : List Char} : isNumeral cs = true ↔ Numeral cs := by
  have hdigits : ∀ ds, isDigits ds = true ↔ ds ≠ [] ∧ ∀ d ∈ ds, d.isDigit = true := fun ds ↦ by
    simp [isDigits]
  constructor
  · intro h
    unfold isNumeral at h
    split at h
    · exact .negative ((hdigits _).mp h).1 ((hdigits _).mp h).2
    · exact .plain ((hdigits _).mp h).1 ((hdigits _).mp h).2
  · rintro (⟨hne, hds⟩ | ⟨hne, hds⟩)
    · unfold isNumeral
      split
      · exact absurd (hds '-' List.mem_cons_self) (by decide)
      · exact (hdigits _).mpr ⟨hne, hds⟩
    · exact (hdigits _).mpr ⟨hne, hds⟩

instance (cs : List Char) : Decidable (Numeral cs) := decidable_of_iff _ isNumeral_iff

theorem Numeral.isSymbolChar {cs : List Char} (h : Numeral cs) :
    ∀ c ∈ cs, TaggedLisp.isSymbolChar c = true := by
  cases h with
  | plain _ hds => exact fun c hc ↦ isSymbolChar_of_isDigit (hds c hc)
  | negative _ hds =>
    exact List.forall_mem_cons.mpr ⟨by decide, fun c hc ↦ isSymbolChar_of_isDigit (hds c hc)⟩

theorem Lexeme.kind_isWord {kind : TokenKind} {cs : List Char} (h : Lexeme kind cs) :
    kind.IsWord := by
  cases h <;> trivial

theorem wordKind_of_notMem_keywords {cs : List Char} (hkeyword : cs ∉ keywords)
    (hnumeral : ¬Numeral cs) : wordKind cs = .symbol := by
  simp only [keywords, List.mem_cons, List.not_mem_nil, or_false, not_or] at hkeyword
  obtain ⟨htrue, hfalse, hnil⟩ := hkeyword
  rw [wordKind, if_neg htrue, if_neg hfalse, if_neg hnil, if_neg (mt isNumeral_iff.mp hnumeral)]

theorem Lexeme.isWord {kind : TokenKind} {cs : List Char} (h : Lexeme kind cs) :
    IsWord kind cs := by
  cases h with
  | boolean b => exact isWord_boolean b
  | nil => exact isWord_nil
  | number h =>
    refine ⟨?_, h.isSymbolChar, wordKind_of_isNumeral (isNumeral_iff.mpr h)⟩
    rintro rfl
    exact absurd (isNumeral_iff.mpr h) (by decide)
  | symbol hne hchars hnumeral hkeyword =>
    exact ⟨hne, hchars, wordKind_of_notMem_keywords hkeyword hnumeral⟩

theorem IsWord.lexeme {kind : TokenKind} {cs : List Char} (h : IsWord kind cs) :
    Lexeme kind cs := by
  obtain ⟨hne, hchars, rfl⟩ := h
  by_cases hkeyword : cs ∈ keywords
  · simp only [keywords, List.mem_cons, List.not_mem_nil, or_false] at hkeyword
    rcases hkeyword with rfl | rfl | rfl
    · exact .boolean true
    · exact .boolean false
    · exact .nil
  by_cases hnumeral : Numeral cs
  · rw [wordKind_of_isNumeral (isNumeral_iff.mpr hnumeral)]
    exact .number hnumeral
  · rw [wordKind_of_notMem_keywords hkeyword hnumeral]
    exact .symbol hne hchars hnumeral hkeyword

/-- Words stand on one line. -/
theorem IsWord.count_newline {kind : TokenKind} {cs : List Char} (h : IsWord kind cs) :
    cs.count '\n' = 0 := by
  rw [List.count_eq_zero]
  exact fun hmem ↦ absurd (h.2.1 '\n' hmem) (by decide)

/-! ## Tokens -/

/-- The next token is the one that is written, unless it is a word that goes on. -/
theorem Writes.next {w : Spelling} {text rest : List Char} (h : Writes w text)
    (hrest : w.1.IsWord → Ends rest) (line : Nat) : (Cursor.mk line (text ++ rest)).next
      = .ok (.token ⟨w.1, w.2, line⟩ ⟨line + text.count '\n', rest⟩) := by
  cases h with
  | opening s | closing s => cases s <;> rfl
  | quote => rfl
  | @string s written h =>
    have hcount : ('"' :: (written ++ ['"'])).count '\n' = written.count '\n' := by
      simp
    rw [List.cons_append, List.append_assoc, hcount]
    simp only [next_string, List.singleton_append, scanString_written h, String.ofList_toList]
  | @word kind lexeme h =>
    have hends : Ends rest := hrest h.kind_isWord
    rw [h.isWord.count_newline]
    exact next_word h.isWord hends line

/-- What is written of a token that is no word ends a word before it. -/
theorem Writes.ends {w : Spelling} {text : List Char} (h : Writes w text) (hw : ¬w.1.IsWord)
    (rest : List Char) : Ends (text ++ rest) := by
  cases h with
  | opening s | closing s => cases s <;> exact ends_cons.mpr (by decide)
  | quote | string => exact ends_cons.mpr (by decide)
  | word h => exact absurd h.kind_isWord hw

/-! ## Sequences of tokens -/

namespace WrittenToken

variable {p q : WrittenToken} {ps : List WrittenToken} {last : List Char}

/-- The token is the next one, on the line that its first character stands on. -/
theorem next (p : WrittenToken) {rest : List Char} (hrest : p.token.1.IsWord → Ends rest)
    (line : Nat) : (Cursor.mk line (p.whole ++ rest)).next
      = .ok (.token ⟨p.token.1, p.token.2, line + p.gap.count '\n'⟩
          ⟨line + p.whole.count '\n', rest⟩) := by
  rw [whole, List.append_assoc, p.trivia.next, p.writes.next hrest, List.count_append,
    Nat.add_assoc]

/-- A word before a token that stands apart from it ends there. -/
theorem Apart.ends (h : p.Apart q) (hp : p.token.1.IsWord) (rest : List Char) :
    Ends (q.whole ++ rest) := by
  rw [whole, List.append_assoc]
  by_cases hgap : q.gap = []
  · rw [hgap, List.nil_append]
    exact q.writes.ends (fun hq ↦ h hp hq hgap) rest
  · exact q.trivia.ends hgap _

theorem ends_flatMap {rest : List Char} (hps : (p :: ps).IsChain Apart) (hrest : Ends rest)
    (hp : p.token.1.IsWord) : Ends (ps.flatMap whole ++ rest) := by
  cases ps with
  | nil => exact hrest
  | cons q ps =>
    rw [List.flatMap_cons, List.append_assoc]
    exact (List.isChain_cons_cons.mp hps).1.ends hp _

end WrittenToken

open WrittenToken in
/-- Tokens that are written after each other are read from any line on, and then reading goes on
with what follows, if no word goes on there. -/
theorem Cursor.lex_append_of_written {ps : List WrittenToken} {rest : List Char}
    (hps : ps.IsChain Apart) (hrest : Ends rest) (line : Nat) :
    (Cursor.mk line (ps.flatMap whole ++ rest)).lex
      = ⟨(ps.mapIdx fun i p ↦ ⟨p.token.1, p.token.2,
          line + ((ps.take i).flatMap whole ++ p.gap).count '\n'⟩)
            ++ (Cursor.mk (line + (ps.flatMap whole).count '\n') rest).lex.tokens,
        (Cursor.mk (line + (ps.flatMap whole).count '\n') rest).lex.stop⟩ := by
  induction ps generalizing line with
  | nil => rfl
  | cons p ps ih =>
    have hnext := p.next (ends_flatMap hps hrest) line
    rw [List.flatMap_cons, List.append_assoc, lex_of_token hnext,
      ih hps.of_cons (line + p.whole.count '\n'), List.mapIdx_cons]
    simp [List.count_append, Nat.add_assoc]

open WrittenToken in
/-- Tokens that are written after each other are read from any line on. -/
theorem Cursor.lex_of_written {ps : List WrittenToken} {last : List Char} (hlast : Trivia last)
    (hps : ps.IsChain Apart) (line : Nat) :
    (Cursor.mk line (ps.flatMap whole ++ last)).lex
      = ⟨ps.mapIdx fun i p ↦ ⟨p.token.1, p.token.2,
          line + ((ps.take i).flatMap whole ++ p.gap).count '\n'⟩,
        .endOfText (line + (ps.flatMap whole ++ last).count '\n')⟩ := by
  have hend : ∀ line, (Cursor.mk line last).lex
      = ⟨[], .endOfText (line + last.count '\n')⟩ := fun line ↦ by
    refine lex_of_finished ?_
    have hskip := hlast.skip line []
    rw [List.append_nil] at hskip
    simp only [Cursor.next, hskip, skipTrivia]
  rw [lex_append_of_written hps hlast.ends_alone line, hend, List.append_nil,
    List.count_append, Nat.add_assoc]

open WrittenToken in
/-- Tokens that are written after each other, with trivia between words, are read as they are, each
on the line of its first character; then the text ends. -/
theorem lex_written {ps : List WrittenToken} {last : List Char} (hlast : Trivia last)
    (hps : ps.IsChain Apart) :
    lex (String.ofList (ps.flatMap whole ++ last))
      = ⟨ps.mapIdx fun i p ↦ ⟨p.token.1, p.token.2,
          1 + ((ps.take i).flatMap whole ++ p.gap).count '\n'⟩,
        .endOfText (1 + (ps.flatMap whole ++ last).count '\n')⟩ := by
  rw [lex, String.toList_ofList, Cursor.lex_of_written hlast hps]

/-- A comment with a bracket in it, a string over two lines, a numeral right behind it, a symbol
that starts like that numeral, and a quoted word. -/
def note : List WrittenToken :=
  [ ⟨[';', '(', '\n'], Shape.list.opening, _, .comment (show '\n' ∉ ['('] by decide) .nil,
      .opening .list⟩,
    ⟨[], (.string, "a\n\"\t"), _, .nil, .string
      (show WritesText "a\n\"\t".toList ['a', '\n', '\\', '"', '\\', 't'] from
        .cons (.itself (by decide) (by decide)) (.cons (.itself (by decide) (by decide))
          (.cons .quote (.cons .tab .nil))))⟩,
    ⟨[], (.number, "-1"), _, .nil, .word (.number (by decide))⟩,
    ⟨[','], (.symbol, "-1x"), _, .blank (.inr rfl) .nil,
      .word (.symbol (by decide) (List.all_eq_true.mp (by decide)) (by decide) (by decide))⟩,
    ⟨[], quoteMark, _, .nil, .quote⟩,
    ⟨[], (.nil, "nil"), _, .nil, .word .nil⟩,
    ⟨[' ', '\n'], Shape.list.closing, _, .blank (.inl rfl) (.blank (.inl rfl) .nil),
      .closing .list⟩ ]

/-- The closing bracket stands on line four, since the comment and the string go over a line. -/
theorem lex_note :
    lex ";(\n(\"a\n\\\"\\t\"-1,-1x'nil \n);\n" =
      ⟨[⟨.opening .list, "(", 2⟩, ⟨.string, "a\n\"\t", 2⟩, ⟨.number, "-1", 3⟩, ⟨.symbol, "-1x", 3⟩,
        ⟨.quote, "'", 3⟩, ⟨.nil, "nil", 3⟩, ⟨.closing .list, ")", 4⟩], .endOfText 5⟩ := by
  have hlast : Trivia [';', '\n'] := .comment (show '\n' ∉ [] by decide) .nil
  have hnote : note.IsChain WrittenToken.Apart := by
    simp [note, WrittenToken.Apart, TokenKind.IsWord, Shape.opening, Shape.closing, quoteMark]
  have hsource : ";(\n(\"a\n\\\"\\t\"-1,-1x'nil \n);\n"
      = String.ofList (note.flatMap WrittenToken.whole ++ [';', '\n']) := by
    decide +kernel
  rw [hsource, lex_written hlast hnote]
  rfl

end TaggedLisp
