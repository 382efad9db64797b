import TaggedLisp.Proofs.Form.Writing

/-!
# Unexpected characters

Whatever the scanner gets through can be written: it is trivia and then a token, as the notation has
them (`Cursor.written_of_next`). So there are two places where it stops at a character (`Blamed`):
behind trivia, where nothing begins with that character, and behind a backslash in a string, where
it is no escape. `StopsAt` says that reading comes to such a place.

`read_unexpectedChar_iff` says when a text is refused for a character and which line is named. That
is the line on which the text goes on behind the character. It is the line of the character itself,
unless the character is the end of a line. Between tokens the end of a line is skipped, but it may
stand behind a backslash, and then the fault names the line after the one on which the escape
stands (`read_unexpectedChar_line`).
-/

namespace TaggedLisp

variable {line line' : Nat} {c : Char} {cs after rest : List Char}

/-! ## Where scanning stops -/

/-- Neither a token nor trivia begins with the character. -/
def Stray (c : Char) : Prop :=
  isSymbolChar c = false ∧ Text.isBlank c = false ∧ c ∉ [',', ';', '(', ')', '[', ']', '\'', '"']

/-- The character cannot stand behind `before`, where the last token has ended. -/
inductive Blamed : (before : List Char) → Char → Prop where
  | stray {gap c} (hgap : Trivia gap) (hc : Stray c) : Blamed gap c
  | escape {gap text written c} (hgap : Trivia gap) (hwritten : WritesText text written)
      (hc : unescape c = none) : Blamed (gap ++ '"' :: (written ++ ['\\'])) c

open WrittenToken in
/-- Reading the text stops at the character `c` behind `consumed`: first there are written tokens
that the reader gets through, and behind the last of them the character is blamed. -/
def StopsAt (source : String) (consumed : List Char) (c : Char) : Prop :=
  ∃ (ps : List WrittenToken) (before after : List Char), ps.IsChain Apart ∧
    (∃ r, Reading.start.steps (lex (String.ofList (ps.flatMap whole))).tokens = .ok r) ∧
    Blamed before c ∧ consumed = ps.flatMap whole ++ before ∧ source.toList = consumed ++ c :: after

/-! ## Trivia that is skipped -/

/-- What `skipTrivia` skips, in a comment or not. -/
def Skipped : (inComment : Bool) → List Char → Prop
  | true, cs => Trivia (';' :: cs)
  | false, cs => Trivia cs

/-- A comment goes on until its line ends. -/
theorem Trivia.comment_cons (h : Trivia (';' :: cs)) (hc : c ≠ '\n') : Trivia (';' :: c :: cs) := by
  cases h with
  | blank hc _ => exact absurd hc (by decide)
  | @comment text cs htext h =>
    exact .comment (List.not_mem_cons_of_ne_of_not_mem hc.symm htext) h

/-- Trivia is skipped up to a character that it does not begin with. -/
theorem skipped_of_skipTrivia {b : Bool} (h : skipTrivia b line cs = ⟨line', c :: after⟩) :
    ∃ gap, Skipped b gap ∧ cs = gap ++ c :: after ∧ line' = line + gap.count '\n' ∧
      c ≠ ';' ∧ Text.isBlank c = false ∧ c ≠ ',' := by
  fun_induction skipTrivia b line cs with
  | case1 => cases h
  | case2 line d cs ih =>
    obtain ⟨gap, hgap, rfl, rfl, hc⟩ := ih h
    refine ⟨d :: gap, ?_, rfl, ?_, hc⟩
    · by_cases hd : d = '\n'
      · subst hd
        exact .comment (show '\n' ∉ [] by decide) hgap
      · rw [bne_iff_ne.mpr hd] at hgap
        exact hgap.comment_cons hd
    · rw [lineAfter_eq, Nat.add_assoc, ← List.count_append]
      rfl
  | case3 line cs ih =>
    obtain ⟨gap, hgap, rfl, rfl, hc⟩ := ih h
    exact ⟨';' :: gap, hgap, rfl, by simp, hc⟩
  | case4 line d cs hd hblank ih =>
    obtain ⟨gap, hgap, rfl, rfl, hc⟩ := ih h
    refine ⟨d :: gap, .blank (by simpa using hblank) hgap, rfl, ?_, hc⟩
    rw [lineAfter_eq, Nat.add_assoc, ← List.count_append]
    rfl
  | case5 line d cs hd hblank =>
    cases h
    simp only [Bool.or_eq_true, beq_iff_eq, not_or, Bool.not_eq_true] at hblank
    exact ⟨[], .nil, rfl, rfl, hd, hblank.1, hblank.2⟩

/-! ## Strings that are scanned -/

theorem writesChar_of_unescape {e : Char} (h : unescape e = some c) : WritesChar c ['\\', e] := by
  unfold unescape at h
  split at h <;> cases h
  · exact .newline
  · exact .tab
  · exact .quote
  · exact .backslash

/-- A string that is scanned was written. -/
theorem writes_of_scanString {start : Nat} {text : List Char} {next : Cursor}
    (h : scanString start line cs = .ok (text, next)) :
    ∃ written, WritesText text written ∧ cs = written ++ '"' :: next.rest ∧
      next.line = line + written.count '\n' := by
  fun_induction scanString start line cs generalizing text next with
  | case1 | case3 | case4 | case5 | case7 => cases h
  | case2 => cases h; exact ⟨[], .nil, rfl, rfl⟩
  | case6 line e cs d he text next heq _ ih =>
    cases h
    obtain ⟨written, hwritten, rfl, hline⟩ := ih heq
    refine ⟨['\\', e] ++ written, .cons (writesChar_of_unescape he) hwritten, rfl, ?_⟩
    rw [hline, count_escape he]
  | case8 line c cs hquote hbackslash text next heq ih =>
    cases h
    obtain ⟨written, hwritten, rfl, hline⟩ := ih heq
    refine ⟨[c] ++ written, .cons (.itself hquote hbackslash) hwritten, rfl, ?_⟩
    rw [hline, lineAfter_eq, Nat.add_assoc, ← List.count_append]

/-- Scanning a string stops at a character that is no escape, behind a backslash, and is on the
line that goes on behind that character. -/
theorem escape_of_scanString {start : Nat}
    (h : scanString start line cs = .error ⟨.unexpectedChar c, line'⟩) :
    ∃ text written after, WritesText text written ∧ cs = written ++ '\\' :: c :: after ∧
      unescape c = none ∧ line' = line + (written ++ ['\\', c]).count '\n' := by
  fun_induction scanString start line cs with
  | case1 | case2 | case3 | case6 | case8 => cases h
  | case4 line e cs he _ =>
    cases h
    exact ⟨[], [], cs, .nil, rfl, he, by rw [lineAfter_eq]; simp⟩
  | case5 line e cs d he f heq _ ih =>
    cases h
    obtain ⟨text, written, after, hwritten, rfl, hc, rfl⟩ := ih heq
    refine ⟨_, ['\\', e] ++ written, after, .cons (writesChar_of_unescape he) hwritten, rfl, hc, ?_⟩
    rw [List.append_assoc, count_escape he]
  | case7 line d cs hquote hbackslash f heq ih =>
    cases h
    obtain ⟨text, written, after, hwritten, rfl, hc, rfl⟩ := ih heq
    refine ⟨_, [d] ++ written, after, .cons (.itself hquote hbackslash) hwritten, rfl, hc, ?_⟩
    rw [lineAfter_eq, Nat.add_assoc, ← List.count_append, List.append_assoc]

/-! ## Tokens that are scanned -/

/-- No word goes on behind a run of symbol characters. -/
theorem ends_dropWhile (cs : List Char) : Ends (cs.dropWhile isSymbolChar) := by
  intro c hc
  have hhead := List.head?_dropWhile_not isSymbolChar cs
  rwa [hc] at hhead

/-- A token that is scanned was written, and what stands behind a word does not go on with it. -/
theorem writes_of_scanToken {t : Token} {next : Cursor}
    (h : scanToken line c cs = .ok (.token t next)) :
    ∃ text, Writes t.spelling text ∧ c :: cs = text ++ next.rest ∧
      next.line = line + text.count '\n' ∧ (t.kind.IsWord → Ends next.rest) := by
  unfold scanToken at h
  split at h
  · cases h; exact ⟨_, .opening .list, rfl, rfl, nofun⟩
  · cases h; exact ⟨_, .closing .list, rfl, rfl, nofun⟩
  · cases h; exact ⟨_, .opening .vector, rfl, rfl, nofun⟩
  · cases h; exact ⟨_, .closing .vector, rfl, rfl, nofun⟩
  · cases h; exact ⟨_, .quote, rfl, rfl, nofun⟩
  · split at h
    · cases h
    · next text next heq =>
      cases h
      obtain ⟨written, hwritten, rfl, hline⟩ := writes_of_scanString heq
      refine ⟨_, .string (by rwa [String.toList_ofList]), by simp, by simp [hline], nofun⟩
  · split at h
    · next hc =>
      cases h
      have hword : IsWord (wordKind (c :: cs.takeWhile isSymbolChar))
          (String.ofList (c :: cs.takeWhile isSymbolChar)).toList := by
        rw [String.toList_ofList]
        exact isWord_run hc
      refine ⟨_, .word hword.lexeme, ?_, ?_, fun _ ↦ ends_dropWhile cs⟩
      · rw [String.toList_ofList, List.cons_append, List.takeWhile_append_dropWhile]
      · rw [hword.count_newline, Nat.add_zero]
    · cases h

/-- What the scanner gets through is a token that was written, and what stands behind a word does
not go on with it. -/
theorem Cursor.written_of_next {cur next : Cursor} {t : Token}
    (h : cur.next = .ok (.token t next)) :
    ∃ p : WrittenToken, cur.rest = p.whole ++ next.rest ∧
      next.line = cur.line + p.whole.count '\n' ∧ (p.token.1.IsWord → Ends next.rest) := by
  unfold Cursor.next at h
  split at h
  · cases h
  · next line c cs hskip =>
    obtain ⟨gap, hgap, hrest, rfl, -⟩ := skipped_of_skipTrivia hskip
    obtain ⟨text, htext, hcs, hline, hends⟩ := writes_of_scanToken h
    refine ⟨⟨gap, t.spelling, text, hgap, htext⟩, ?_, ?_, hends⟩
    · rw [hrest, hcs, WrittenToken.whole, List.append_assoc]
    · rw [hline, WrittenToken.whole, List.count_append, Nat.add_assoc]

/-- A word before which the scanner stopped stands apart from the token before it. -/
theorem WrittenToken.apart_of_ends {p q : WrittenToken}
    (h : p.token.1.IsWord → Ends (q.whole ++ rest)) : p.Apart q := by
  intro hp hq hgap
  obtain ⟨gap, token, text, htrivia, hwrites⟩ := q
  obtain rfl : gap = [] := hgap
  cases hwrites with
  | opening | closing | quote | string => exact hq
  | @word kind lexeme hlexeme =>
    obtain ⟨hne, hchars, -⟩ := hlexeme.isWord
    obtain ⟨c, cs, hcs⟩ := List.exists_cons_of_ne_nil hne
    have hends := h hp
    simp only [whole, List.nil_append, hcs, List.cons_append, ends_cons] at hends
    rw [hchars c (hcs ▸ List.mem_cons_self)] at hends
    cases hends

/-! ## Faults of the scanner -/

/-- The end of a line is trivia. -/
theorem Stray.count_append (h : Stray c) (cs : List Char) :
    (cs ++ [c]).count '\n' = cs.count '\n' := by
  have hnewline : c ≠ '\n' := by
    rintro rfl
    exact absurd h.2.1 (by decide)
  rw [List.count_append, List.count_singleton, beq_eq_false_iff_ne.mpr hnewline]
  rfl

theorem Stray.next (h : Stray c) (line : Nat) (cs : List Char) :
    (Cursor.mk line (c :: cs)).next = .error ⟨.unexpectedChar c, line⟩ := by
  obtain ⟨hsymbol, hblank, hmem⟩ := h
  simp only [List.mem_cons, List.not_mem_nil, or_false, not_or] at hmem
  obtain ⟨hcomma, hsemicolon, h₁, h₂, h₃, h₄, h₅, h₆⟩ := hmem
  have hskip : skipTrivia false line (c :: cs) = ⟨line, c :: cs⟩ := by
    simp [skipTrivia, hcomma, hsemicolon, hblank]
  have hscan : scanToken line c cs = .error ⟨.unexpectedChar c, line⟩ := by
    unfold scanToken
    split
    iterate 6 contradiction
    rw [hsymbol]
    rfl
  simp only [Cursor.next, hskip, hscan]

/-- No word goes on with what leads up to a character that is blamed. -/
theorem Blamed.ends {before : List Char} (h : Blamed before c) (after : List Char) :
    Ends (before ++ c :: after) := by
  cases h with
  | stray hgap hc =>
    by_cases hne : before = []
    · rw [hne, List.nil_append, ends_cons]
      exact hc.1
    · exact hgap.ends hne _
  | @escape gap text written c hgap _ _ =>
    rw [List.append_assoc]
    by_cases hne : gap = []
    · rw [hne, List.nil_append, List.cons_append, ends_cons]
      decide
    · exact hgap.ends hne _

/-- The scanner stops at a character that is blamed, and names the line that it is on behind it. -/
theorem Blamed.next {before : List Char} (h : Blamed before c) (line : Nat) (after : List Char) :
    (Cursor.mk line (before ++ c :: after)).next
      = .error ⟨.unexpectedChar c, line + (before ++ [c]).count '\n'⟩ := by
  cases h with
  | stray hgap hc =>
    rw [hgap.next, hc.next, hc.count_append]
  | @escape gap text written c hgap hwritten hc =>
    have hstring : ∀ line, scanString line line (written ++ '\\' :: c :: after)
        = .error ⟨.unexpectedChar c, lineAfter (line + written.count '\n') c⟩ := fun line ↦ by
      rw [scanString_append hwritten, scanString_badEscape _ _ _ hc]
      rfl
    rw [List.append_assoc, hgap.next, List.cons_append, List.append_assoc, List.singleton_append]
    simp only [next_string, hstring]
    simp [lineAfter_eq, Nat.add_assoc]

/-- Where the scanner stops at a character, that character is blamed. -/
theorem Cursor.blamed_of_next {cur : Cursor} (h : cur.next = .error ⟨.unexpectedChar c, line⟩) :
    ∃ before after, Blamed before c ∧ cur.rest = before ++ c :: after ∧
      line = cur.line + (before ++ [c]).count '\n' := by
  unfold Cursor.next at h
  split at h
  · cases h
  · next line' d cs hskip =>
    obtain ⟨gap, hgap, hrest, rfl, hsemicolon, hblank, hcomma⟩ := skipped_of_skipTrivia hskip
    unfold scanToken at h
    split at h
    iterate 5 cases h
    · split at h
      · next f heq =>
        cases h
        obtain ⟨text, written, after, hwritten, rfl, hc, rfl⟩ := escape_of_scanString heq
        refine ⟨_, after, .escape hgap hwritten hc, by simp [hrest], ?_⟩
        simp [Nat.add_assoc]
      · cases h
    · split at h
      · cases h
      · next h₁ h₂ h₃ h₄ h₅ h₆ hsymbol =>
        cases h
        have hmem : c ∉ [',', ';', '(', ')', '[', ']', '\'', '"'] := by
          simp only [List.mem_cons, List.not_mem_nil, or_false, not_or]
          exact ⟨hcomma, hsemicolon, h₁, h₂, h₃, h₄, h₅, h₆⟩
        have hstray : Stray c := ⟨Bool.eq_false_iff.mpr hsymbol, hblank, hmem⟩
        exact ⟨gap, cs, .stray hgap hstray, hrest, by rw [hstray.count_append]⟩

/-! ## Faults of the reader -/

open WrittenToken in
/-- Written tokens come before a character at which reading tokens stops. -/
theorem Cursor.written_of_lex {cur : Cursor}
    (h : cur.lex.stop = .fault ⟨.unexpectedChar c, line⟩) :
    ∃ (ps : List WrittenToken) (before after : List Char), ps.IsChain Apart ∧ Blamed before c ∧
      cur.rest = ps.flatMap whole ++ (before ++ c :: after) ∧
      line = cur.line + (ps.flatMap whole ++ (before ++ [c])).count '\n' := by
  induction hts : cur.lex.tokens generalizing cur with
  | nil =>
    rcases hnext : cur.next with f | line' | ⟨t, next⟩
    · rw [lex_of_error hnext] at h
      obtain rfl := Stop.fault.inj h
      obtain ⟨before, after, hblamed, hrest, hline⟩ := blamed_of_next hnext
      exact ⟨[], before, after, .nil, hblamed, hrest, hline⟩
    · rw [lex_of_finished hnext] at h
      cases h
    · rw [lex_of_token hnext] at hts
      cases hts
  | cons t ts ih =>
    rcases hnext : cur.next with f | line' | ⟨t', next⟩
    · rw [lex_of_error hnext] at hts
      cases hts
    · rw [lex_of_finished hnext] at hts
      cases hts
    · rw [lex_of_token hnext] at h hts
      obtain ⟨ps, before, after, hps, hblamed, hrest, hline⟩ := ih h (List.cons.inj hts).2
      obtain ⟨p, hp, hpline, hends⟩ := written_of_next hnext
      refine ⟨p :: ps, before, after, ?_, hblamed, ?_, ?_⟩
      · cases ps with
        | nil => exact .singleton p
        | cons q ps =>
          rw [hrest, List.flatMap_cons, List.append_assoc] at hends
          exact List.isChain_cons_cons.mpr ⟨apart_of_ends hends, hps⟩
      · rw [hp, hrest, List.flatMap_cons, List.append_assoc]
      · simp only [hline, hpline, List.flatMap_cons, List.count_append, Nat.add_assoc]

open WrittenToken in
/-- Reading tokens stops at a character that is blamed behind written tokens. -/
theorem Cursor.lex_of_blamed {ps : List WrittenToken} {before : List Char}
    (hps : ps.IsChain Apart) (h : Blamed before c) (line : Nat) (after : List Char) :
    (Cursor.mk line (ps.flatMap whole ++ (before ++ c :: after))).lex =
      ⟨(Cursor.mk line (ps.flatMap whole)).lex.tokens,
        .fault ⟨.unexpectedChar c, line + (ps.flatMap whole ++ (before ++ [c])).count '\n'⟩⟩ := by
  have htokens := lex_of_written .nil hps line
  rw [List.append_nil] at htokens
  rw [lex_append_of_written hps (h.ends after), lex_of_error (h.next _ after), htokens,
    List.append_nil, Nat.add_assoc, ← List.count_append]

/-- Only the scanner finds a character unexpected. -/
theorem Reading.step_unexpectedChar (r : Reading) (t : Token) :
    r.step t ≠ .error ⟨.unexpectedChar c, line⟩ := by
  intro h
  rcases t with ⟨kind, lexeme, line⟩
  cases kind with
  | opening | quote | symbol | string | boolean | nil => cases h
  | closing shape =>
    simp only [Reading.step, Reading.close] at h
    split at h
    · split at h <;> cases h
    · cases h
  | number =>
    simp only [Reading.step] at h
    split at h <;> cases h

theorem Reading.steps_unexpectedChar (r : Reading) (ts : List Token) :
    r.steps ts ≠ .error ⟨.unexpectedChar c, line⟩ := by
  intro h
  induction ts generalizing r with
  | nil => cases h
  | cons t ts ih =>
    rw [Reading.steps] at h
    split at h
    · next hstep =>
      cases h
      exact r.step_unexpectedChar t hstep
    · exact ih _ h

/-- A text is refused for a character when reading tokens stops at it and the reader has got through
the tokens before it. -/
theorem Lexed.forms_eq_unexpectedChar_iff {l : Lexed} :
    l.forms = .error ⟨.unexpectedChar c, line⟩ ↔
      (∃ r, Reading.start.steps l.tokens = .ok r) ∧
        l.stop = .fault ⟨.unexpectedChar c, line⟩ := by
  rw [Lexed.forms]
  cases hsteps : Reading.start.steps l.tokens with
  | error f =>
    constructor
    · intro hf
      cases hf
      exact absurd hsteps (Reading.start.steps_unexpectedChar l.tokens)
    · rintro ⟨⟨r, hr⟩, -⟩
      cases hr
  | ok r =>
    cases l.stop with
    | fault f => simp [Reading.finish]
    | endOfText line' =>
      simp only [Reading.finish, reduceCtorEq, and_false, iff_false]
      intro h
      split at h <;> cases h

/-- **A text is refused for a character** if and only if reading stops at it, and the fault names
the line on which the text goes on behind it. -/
theorem read_unexpectedChar_iff {source : String} :
    read source = .error ⟨.unexpectedChar c, line⟩ ↔
      ∃ consumed, StopsAt source consumed c ∧ line = 1 + (consumed ++ [c]).count '\n' := by
  rw [read, Lexed.forms_eq_unexpectedChar_iff]
  constructor
  · rintro ⟨hsteps, hstop⟩
    obtain ⟨ps, before, after, hps, hblamed, hsource, hline⟩ := Cursor.written_of_lex hstop
    change source.toList = _ at hsource
    rw [lex, hsource, Cursor.lex_of_blamed hps hblamed] at hsteps
    refine ⟨_, ⟨ps, before, after, hps, ?_, hblamed, rfl, ?_⟩, ?_⟩
    · rwa [lex, String.toList_ofList]
    · rw [hsource, List.append_assoc]
    · rw [hline, List.append_assoc]
  · rintro ⟨_, ⟨ps, before, after, hps, hsteps, hblamed, rfl, hsource⟩, rfl⟩
    rw [lex, String.toList_ofList] at hsteps
    rw [List.append_assoc] at hsource
    rw [lex, hsource, Cursor.lex_of_blamed hps hblamed, List.append_assoc]
    exact ⟨hsteps, rfl⟩

/-- The line is the one that the character stands on, unless the character ends this line: then it
is the next one. -/
theorem read_unexpectedChar_line {source : String}
    (h : read source = .error ⟨.unexpectedChar c, line⟩) :
    ∃ consumed, StopsAt source consumed c ∧
      line = 1 + consumed.count '\n' + if c = '\n' then 1 else 0 := by
  obtain ⟨consumed, hstops, rfl⟩ := read_unexpectedChar_iff.mp h
  refine ⟨consumed, hstops, ?_⟩
  simp only [List.count_append, List.count_singleton, beq_iff_eq, Nat.add_assoc]

/-- No backslash may stand at the end of a line, and it is the line after it that is named. -/
example : read "\"\\\n\"" = .error ⟨.unexpectedChar '\n', 2⟩ := by
  have hlex : lex (String.ofList []) = ⟨[], .endOfText 1⟩ := Cursor.lex_of_finished rfl
  have hsteps : ∃ r, Reading.start.steps (lex (String.ofList [])).tokens = .ok r :=
    ⟨.start, by rw [hlex]; rfl⟩
  exact read_unexpectedChar_iff.mpr
    ⟨['"', '\\'], ⟨[], _, ['"'], .nil, hsteps, .escape .nil .nil rfl, rfl, rfl⟩, rfl⟩

end TaggedLisp
