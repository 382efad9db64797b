import TaggedLisp.Proofs.Form.Grammar
import TaggedLisp.Proofs.Layout
import TaggedLisp.Text.Quoted

/-!
# Reading back what was written

`Spelt` says which tokens a piece of text stands for, on whatever line and before whatever text. It
composes along a text, and it holds of gaps, brackets, words, numerals and quoted strings. A quoted
string is read back as it was when each of its characters is written as it is or with an escape that
the reader knows (`Text.Plain`); another escape is a fault, whatever follows (`Spoils`).
-/

namespace TaggedLisp

/-! ## Characters -/

theorem Text.Ranges.has_eq_false_of_disjoint {table table' : Ranges} {c : Char}
    (h : ∀ r ∈ table.toList, ∀ s ∈ table'.toList, r.2 < s.1 ∨ s.2 < r.1) (hc : table.has c = true) :
    table'.has c = false := by
  rw [Bool.eq_false_iff]
  intro hc'
  obtain ⟨r, hr, hle, hge⟩ := has_eq_true_iff.mp hc
  obtain ⟨s, hs, hle', hge'⟩ := has_eq_true_iff.mp hc'
  have := h r hr.val s hs.val
  omega

theorem Text.blankRanges_disjoint :
    ∀ r ∈ blankRanges.toList, ∀ s ∈ alphanumericRanges.toList, r.2 < s.1 ∨ s.2 < r.1 := by
  decide +kernel

theorem isSymbolChar_eq_false_of_isBlank {c : Char} (h : Text.isBlank c = true) :
    isSymbolChar c = false := by
  by_cases hascii : c.toNat < 128
  · have hall : ∀ n < 128, Text.isBlank (Char.ofNat n) = true →
        isSymbolChar (Char.ofNat n) = false := by
      decide +kernel
    have := hall c.toNat hascii
    rw [Char.ofNat_toNat] at this
    exact this h
  · rw [Text.isBlank, if_neg hascii] at h
    rw [isSymbolChar, Text.isAlphanumeric, if_neg hascii,
      Text.Ranges.has_eq_false_of_disjoint Text.blankRanges_disjoint h, Bool.false_or,
      List.contains_eq_mem, decide_eq_false_iff_not]
    -- the other symbol characters are ASCII
    have hsymbols : ['_', '+', '-', '*', '/', '=', '<', '>', '!', '&', '?', '%', '.'].all
        (·.toNat < 128) = true := by
      decide
    exact fun hc ↦ hascii (of_decide_eq_true (List.all_eq_true.mp hsymbols c hc))

/-- A word that stands before `rest` goes no further. -/
def Ends (rest : List Char) : Prop := ∀ c ∈ rest.head?, isSymbolChar c = false

theorem ends_nil : Ends [] := by simp [Ends]

theorem ends_cons {c : Char} {cs : List Char} : Ends (c :: cs) ↔ isSymbolChar c = false := by
  simp [Ends]

/-! ## Pieces of text -/

/-- On any line, the text `cs` before `rest` stands for the tokens that `ws` says, and reading goes
on with `rest`. -/
def Spelt (cs : List Char) (ws : List Spelling) (rest : List Char) : Prop :=
  ∀ line, ∃ line' ts, ts.map Token.spelling = ws ∧
    Cursor.lex ⟨line, cs ++ rest⟩ =
      ⟨ts ++ (Cursor.lex ⟨line', rest⟩).tokens, (Cursor.lex ⟨line', rest⟩).stop⟩

/-- On any line, reading the text `cs` before `rest` ends with a fault. -/
def Spoils (cs rest : List Char) : Prop :=
  ∀ line, ∃ f, (Cursor.lex ⟨line, cs ++ rest⟩).stop = .fault f

theorem Cursor.lex_congr {cur cur' : Cursor} (h : cur.next = cur'.next) : cur.lex = cur'.lex := by
  rcases hnext : cur.next with f | line | ⟨t, next⟩ <;> have hnext' := h ▸ hnext
  · rw [lex_of_error hnext, lex_of_error hnext']
  · rw [lex_of_finished hnext, lex_of_finished hnext']
  · rw [lex_of_token hnext, lex_of_token hnext']

namespace Spelt

variable {cs ds rest : List Char} {ws us : List Spelling}

theorem nil : Spelt [] [] rest := fun line ↦ ⟨line, [], rfl, rfl⟩

theorem append (h : Spelt cs ws (ds ++ rest)) (h' : Spelt ds us rest) :
    Spelt (cs ++ ds) (ws ++ us) rest := by
  intro line
  obtain ⟨line₁, ts, rfl, hlex⟩ := h line
  obtain ⟨line₂, ts', rfl, hlex'⟩ := h' line₁
  refine ⟨line₂, ts ++ ts', List.map_append, ?_⟩
  rw [List.append_assoc, hlex, hlex', List.append_assoc]

theorem spoils (h : Spelt cs ws (ds ++ rest)) (h' : Spoils ds rest) : Spoils (cs ++ ds) rest := by
  intro line
  obtain ⟨line', ts, -, hlex⟩ := h line
  obtain ⟨f, hf⟩ := h' line'
  exact ⟨f, by rw [List.append_assoc, hlex]; exact hf⟩

/-- A text is skipped when the next token is the one after it. -/
theorem of_skip
    (h : ∀ line, ∃ line', (Cursor.mk line (cs ++ rest)).next = Cursor.next ⟨line', rest⟩) :
    Spelt cs [] rest := by
  intro line
  obtain ⟨line', hnext⟩ := h line
  exact ⟨line', [], rfl, Cursor.lex_congr hnext⟩

/-- A text is one token when the scanner finds this token and stops behind the text. -/
theorem of_token {w : Spelling} (h : ∀ line, ∃ line' t, t.spelling = w ∧
    (Cursor.mk line (cs ++ rest)).next = .ok (.token t ⟨line', rest⟩)) : Spelt cs [w] rest := by
  intro line
  obtain ⟨line', t, rfl, hnext⟩ := h line
  exact ⟨line', [t], rfl, Cursor.lex_of_token hnext⟩

end Spelt

theorem Spoils.append {cs ds rest : List Char} (h : Spoils cs (ds ++ rest)) :
    Spoils (cs ++ ds) rest := by
  intro line
  rw [List.append_assoc]
  exact h line

/-- A text at which the scanner fails is at fault. -/
theorem Spoils.of_error {cs rest : List Char}
    (h : ∀ line, ∃ f, (Cursor.mk line (cs ++ rest)).next = .error f) : Spoils cs rest := by
  intro line
  obtain ⟨f, hnext⟩ := h line
  exact ⟨f, congrArg Lexed.stop (Cursor.lex_of_error hnext)⟩

/-! ## Gaps, brackets and words -/

theorem skipTrivia_spaces (n line : Nat) (rest : List Char) :
    skipTrivia false line (List.replicate n ' ' ++ rest) = skipTrivia false line rest := by
  induction n with
  | zero => rfl
  | succ n ih => exact ih

theorem spelt_gap {cs rest : List Char} (h : Doc.Sets .line cs) : Spelt cs [] rest := by
  cases h with
  | space => exact .of_skip fun line ↦ ⟨line, rfl⟩
  | newline indent =>
    refine .of_skip fun line ↦ ⟨line + 1, ?_⟩
    have hskip : skipTrivia false line ('\n' :: List.replicate indent ' ' ++ rest) =
        skipTrivia false (line + 1) rest := skipTrivia_spaces indent (line + 1) rest
    simp only [Cursor.next, hskip]

theorem spelt_opener (s : Shape) (rest : List Char) : Spelt [s.opener] [s.opening] rest := by
  refine .of_token fun line ↦ ?_
  cases s with
  | list => exact ⟨line, _, rfl, rfl⟩
  | vector => exact ⟨line, _, rfl, rfl⟩

theorem spelt_closer (s : Shape) (rest : List Char) : Spelt [s.closer] [s.closing] rest := by
  refine .of_token fun line ↦ ?_
  cases s with
  | list => exact ⟨line, _, rfl, rfl⟩
  | vector => exact ⟨line, _, rfl, rfl⟩

/-- No text between tokens starts with a symbol character. -/
theorem skipTrivia_of_isSymbolChar {line : Nat} {c : Char} {cs : List Char}
    (hc : isSymbolChar c = true) : skipTrivia false line (c :: cs) = ⟨line, c :: cs⟩ := by
  have hsemicolon : c ≠ ';' := by
    rintro rfl
    exact absurd hc (by decide)
  have hcomma : c ≠ ',' := by
    rintro rfl
    exact absurd hc (by decide)
  have hblank : Text.isBlank c = false := by
    rw [Bool.eq_false_iff]
    intro hblank
    rw [isSymbolChar_eq_false_of_isBlank hblank] at hc
    exact absurd hc (by decide)
  simp [skipTrivia, hsemicolon, hcomma, hblank]

theorem scanToken_of_isSymbolChar {line : Nat} {c : Char} {cs : List Char}
    (hc : isSymbolChar c = true) :
    scanToken line c cs = .ok (.token ⟨wordKind (c :: cs.takeWhile isSymbolChar),
      String.ofList (c :: cs.takeWhile isSymbolChar), line⟩ ⟨line, cs.dropWhile isSymbolChar⟩) := by
  unfold scanToken
  split
  iterate 6 exact absurd hc (by decide)
  rw [if_pos hc]

/-- A word is the next token when what stands behind it goes on with no symbol character. -/
theorem next_word {kind : TokenKind} {word : String} {rest : List Char}
    (h : IsWord kind word.toList) (hrest : Ends rest) (line : Nat) :
    (Cursor.mk line (word.toList ++ rest)).next = .ok (.token ⟨kind, word, line⟩ ⟨line, rest⟩) := by
  obtain ⟨hne, hchars, rfl⟩ := h
  rw [← String.ofList_toList (s := word)]
  generalize word.toList = cs at *
  rw [String.toList_ofList]
  obtain ⟨c, cs, rfl⟩ := List.exists_cons_of_ne_nil hne
  obtain ⟨hc, hcs⟩ := List.forall_mem_cons.mp hchars
  have htake : rest.takeWhile isSymbolChar = [] := by
    cases rest with
    | nil => rfl
    | cons d rest => rw [List.takeWhile_cons_of_neg (by simp [ends_cons.mp hrest])]
  have hdrop : rest.dropWhile isSymbolChar = rest := by
    cases rest with
    | nil => rfl
    | cons d rest => rw [List.dropWhile_cons_of_neg (by simp [ends_cons.mp hrest])]
  simp only [Cursor.next, List.cons_append, skipTrivia_of_isSymbolChar hc,
    scanToken_of_isSymbolChar hc, List.takeWhile_append_of_pos hcs,
    List.dropWhile_append_of_pos hcs, htake, hdrop, List.append_nil]

theorem spelt_word {kind : TokenKind} {word : String} {rest : List Char}
    (h : IsWord kind word.toList) (hrest : Ends rest) : Spelt word.toList [(kind, word)] rest :=
  .of_token fun line ↦ ⟨line, ⟨kind, word, line⟩, rfl, next_word h hrest line⟩

/-! ## Numerals -/

theorem wordKind_of_isNumeral {cs : List Char} (h : isNumeral cs = true) :
    wordKind cs = .number := by
  unfold wordKind
  iterate 3
    rw [if_neg (by rintro rfl; exact absurd h (by decide))]
  rw [if_pos h]

theorem isSymbolChar_of_isDigit {c : Char} (h : c.isDigit = true) : isSymbolChar c = true := by
  have hascii : c.toNat < 128 := by
    simp only [Char.isDigit, Bool.and_eq_true, decide_eq_true_eq] at h
    have := UInt32.le_iff_toNat_le.mp h.2
    simp only [Char.toNat]
    exact Nat.lt_of_le_of_lt this (by decide)
  simp [isSymbolChar, Text.isAlphanumeric_of_ascii hascii, Char.isAlphanum, h]

theorem numeral_toDigits (n : Nat) : isDigits (Nat.toDigits 10 n) = true ∧
    digitsValue (Nat.toDigits 10 n) = n ∧ (Nat.toDigits 10 n).head? ≠ some '-' := by
  have hdigits : ∀ c ∈ Nat.toDigits 10 n, c.isDigit = true := fun c hc ↦
    Nat.isDigit_of_mem_toDigits (by decide) (by decide) hc
  refine ⟨?_, Nat.ofDigitChars_toDigits (by decide) (by decide), ?_⟩
  · simpa [isDigits, Nat.toDigits_ne_nil] using hdigits
  · intro h
    exact absurd (hdigits '-' (List.mem_of_mem_head? h)) (by decide)

/-- An integer is written as a numeral that stands for it. -/
theorem numeral_toString (i : Int) :
    isNumeral (toString i).toList = true ∧ numeralValue (toString i).toList = i := by
  cases i with
  | ofNat n =>
    obtain ⟨hdigits, hvalue, hhead⟩ := numeral_toDigits n
    have htext : (toString (Int.ofNat n)).toList = Nat.toDigits 10 n := Nat.toList_repr
    rw [htext]
    generalize Nat.toDigits 10 n = cs at *
    unfold isNumeral numeralValue
    constructor
    · split
      · simp at hhead
      · exact hdigits
    · split
      · simp at hhead
      · rw [hvalue]
        rfl
  | negSucc n =>
    obtain ⟨hdigits, hvalue, -⟩ := numeral_toDigits (n + 1)
    have htext : (toString (Int.negSucc n)).toList = '-' :: Nat.toDigits 10 (n + 1) := by
      change ("-" ++ (n + 1).repr).toList = _
      rw [String.toList_append, Nat.toList_repr]
      rfl
    rw [htext]
    refine ⟨hdigits, ?_⟩
    rw [numeralValue, hvalue]
    rfl

theorem atom?_numeral (n : Int64) : atom? (.number, toString n.toInt) = some (.number n) := by
  have hrange : Int64.minValue.toInt ≤ n.toInt ∧ n.toInt ≤ Int64.maxValue.toInt :=
    ⟨n.minValue_le_toInt, n.toInt_le⟩
  simp only [atom?, numeralWord?, (numeral_toString n.toInt).2, if_pos hrange, Int64.ofInt_toInt,
    Option.map_some]

theorem isWord_numeral (i : Int) : IsWord .number (toString i).toList := by
  have hnumeral := (numeral_toString i).1
  refine ⟨?_, ?_, wordKind_of_isNumeral hnumeral⟩
  · rintro h
    rw [h] at hnumeral
    exact absurd hnumeral (by decide)
  · have hchars : ∀ cs, isDigits cs = true → ∀ c ∈ cs, isSymbolChar c = true := by
      intro cs hcs c hc
      simp only [isDigits, Bool.and_eq_true, List.all_eq_true] at hcs
      exact isSymbolChar_of_isDigit (hcs.2 c hc)
    unfold isNumeral at hnumeral
    split at hnumeral
    · next cs hcs =>
      rw [hcs]
      exact List.forall_mem_cons.mpr ⟨by decide, hchars cs hnumeral⟩
    · exact hchars _ hnumeral

/-! ## Quoted strings -/

/-- The character is written as it is or with an escape that the reader knows. -/
def Text.Plain (c : Char) : Prop :=
  quoteChar c = [c] ∨ quoteChar c ∈ [['\\', 'n'], ['\\', 't'], ['\\', '"'], ['\\', '\\']]

instance (c : Char) : Decidable (Text.Plain c) := inferInstanceAs (Decidable (_ ∨ _))

/-- How a character is written in quoted text: as it is, with an escape that is read back, or with
an escape that the reader refuses. -/
inductive Text.Written (c : Char) : Prop where
  | itself (h : quoteChar c = [c]) (hquote : c ≠ '"') (hbackslash : c ≠ '\\')
  | escaped (e : Char) (h : quoteChar c = ['\\', e]) (hplain : Plain c) (he : unescape e = some c)
  | foreign (e : Char) (cs : List Char) (h : quoteChar c = '\\' :: e :: cs) (hplain : ¬Plain c)
      (he : unescape e = none)

theorem Text.written (c : Char) : Written c := by
  have hcode : escapeCodePoint c =
      '\\' :: 'u' :: ('\x7b' :: Nat.toDigits 16 c.toNat ++ ['\x7d']) := rfl
  by_cases hspecial : c ∈ ['\x00', '\t', '\n', '\r', '"', '\\']
  · simp only [List.mem_cons, List.not_mem_nil, or_false] at hspecial
    rcases hspecial with rfl | rfl | rfl | rfl | rfl | rfl
    · exact .foreign '0' [] rfl (by decide) rfl
    · exact .escaped 't' rfl (by decide) rfl
    · exact .escaped 'n' rfl (by decide) rfl
    · exact .foreign 'r' [] rfl (by decide) rfl
    · exact .escaped '"' rfl (by decide) rfl
    · exact .escaped '\\' rfl (by decide) rfl
  · simp only [List.mem_cons, List.not_mem_nil, or_false, not_or] at hspecial
    obtain ⟨h0, ht, hn, hr, hquote, hbackslash⟩ := hspecial
    have hchar : quoteChar c =
        if isPrintable c && !extendsGrapheme c then [c] else escapeCodePoint c := by
      simp [quoteChar, h0, ht, hn, hr, hquote, hbackslash]
    split at hchar
    · exact .itself hchar hquote hbackslash
    · rw [hcode] at hchar
      refine .foreign 'u' _ hchar ?_ rfl
      simp [Plain, hchar]

section

variable (start line : Nat) (cs : List Char)

theorem scanString_close : scanString start line ('"' :: cs) = .ok ([], ⟨line, cs⟩) := by
  rw [scanString.eq_def]
  rfl

theorem scanString_char {c : Char} (hquote : c ≠ '"') (hbackslash : c ≠ '\\') :
    scanString start line (c :: cs) =
      (scanString start (lineAfter line c) cs).map fun p ↦ (c :: p.1, p.2) := by
  rw [scanString.eq_def]
  simp only [if_neg hquote, if_neg hbackslash]
  cases scanString start (lineAfter line c) cs <;> rfl

theorem scanString_escape {e d : Char} (he : unescape e = some d) :
    scanString start line ('\\' :: e :: cs) =
      (scanString start line cs).map fun p ↦ (d :: p.1, p.2) := by
  rw [scanString.eq_def]
  simp only [he]
  cases scanString start line cs <;> rfl

theorem scanString_badEscape {e : Char} (he : unescape e = none) :
    scanString start line ('\\' :: e :: cs) = .error ⟨.unexpectedChar e, lineAfter line e⟩ := by
  rw [scanString.eq_def]
  simp only [he]
  rfl

end

/-- The scanner gets through a plain character of quoted text. -/
theorem scanString_plain {c : Char} (h : Text.Plain c) (start line : Nat) (rest : List Char) :
    ∃ line', scanString start line (Text.quoteChar c ++ rest) =
      (scanString start line' rest).map fun p ↦ (c :: p.1, p.2) := by
  cases Text.written c with
  | itself hc hquote hbackslash =>
    exact ⟨lineAfter line c, by rw [hc]; exact scanString_char _ _ _ hquote hbackslash⟩
  | escaped e hc _ he => exact ⟨line, by rw [hc]; exact scanString_escape _ _ _ he⟩
  | foreign _ _ _ hplain => exact absurd h hplain

/-- The scanner stops at a character of quoted text that is not plain. -/
theorem scanString_foreign {c : Char} (h : ¬Text.Plain c) (start line : Nat) (rest : List Char) :
    ∃ f, scanString start line (Text.quoteChar c ++ rest) = .error f := by
  cases Text.written c with
  | itself hc => exact absurd (Or.inl hc) h
  | escaped _ _ hplain => exact absurd hplain h
  | foreign e cs hc _ he =>
    rw [hc]
    exact ⟨_, scanString_badEscape _ _ _ he⟩

theorem scanString_quoted {cs : List Char} (h : ∀ c ∈ cs, Text.Plain c) (start line : Nat)
    (rest : List Char) : ∃ line', scanString start line (cs.flatMap Text.quoteChar ++ '"' :: rest) =
      .ok (cs, ⟨line', rest⟩) := by
  induction cs generalizing line with
  | nil => exact ⟨line, scanString_close _ _ _⟩
  | cons c cs ih =>
    obtain ⟨hc, hcs⟩ := List.forall_mem_cons.mp h
    rw [List.flatMap_cons, List.append_assoc]
    obtain ⟨line₁, hfirst⟩ :=
      scanString_plain hc start line (cs.flatMap Text.quoteChar ++ '"' :: rest)
    obtain ⟨line₂, hrest⟩ := ih hcs line₁
    exact ⟨line₂, by rw [hfirst, hrest]; rfl⟩

theorem scanString_spoiled {cs : List Char} (h : ∃ c ∈ cs, ¬Text.Plain c) (start line : Nat)
    (rest : List Char) : ∃ f, scanString start line (cs.flatMap Text.quoteChar ++ rest) =
      .error f := by
  induction cs generalizing line with
  | nil => simp at h
  | cons c cs ih =>
    rw [List.flatMap_cons, List.append_assoc]
    by_cases hc : Text.Plain c
    · obtain ⟨line₁, hfirst⟩ := scanString_plain hc start line (cs.flatMap Text.quoteChar ++ rest)
      obtain ⟨f, hrest⟩ := ih (by simpa [hc] using h) line₁
      exact ⟨f, by rw [hfirst, hrest]; rfl⟩
    · exact scanString_foreign hc start line _

/-- A token that starts with a quote is a string. -/
theorem next_string (line : Nat) (cs : List Char) : (Cursor.mk line ('"' :: cs)).next =
    match scanString line line cs with
    | .error f => .error f
    | .ok (text, cur) => .ok (.token ⟨.string, String.ofList text, line⟩ cur) := rfl

theorem next_quoted (line : Nat) (cs rest : List Char) :
    (Cursor.mk line (Text.quoteChars cs ++ rest)).next =
      match scanString line line (cs.flatMap Text.quoteChar ++ '"' :: rest) with
      | .error f => .error f
      | .ok (text, cur) => .ok (.token ⟨.string, String.ofList text, line⟩ cur) := by
  rw [Text.quoteChars, List.cons_append, List.append_assoc]
  exact next_string line _

theorem spelt_quote {s : String} (h : ∀ c ∈ s.toList, Text.Plain c) (rest : List Char) :
    Spelt (Text.quote s).toList [(.string, s)] rest := by
  rw [Text.quote, String.toList_ofList]
  refine .of_token fun line ↦ ?_
  obtain ⟨line', hscan⟩ := scanString_quoted h line line rest
  refine ⟨line', ⟨.string, s, line⟩, rfl, ?_⟩
  simp only [next_quoted, hscan, String.ofList_toList]

theorem spoils_quote {s : String} (h : ∃ c ∈ s.toList, ¬Text.Plain c) (rest : List Char) :
    Spoils (Text.quote s).toList rest := by
  rw [Text.quote, String.toList_ofList]
  refine .of_error fun line ↦ ?_
  obtain ⟨f, hscan⟩ := scanString_spoiled h line line ('"' :: rest)
  exact ⟨f, by rw [next_quoted, hscan]⟩

end TaggedLisp
