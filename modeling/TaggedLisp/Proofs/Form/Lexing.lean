import Mathlib.Data.List.TakeWhile
import TaggedLisp.Token.Lexer

/-!
# What the tokens of a text are

`Cursor.Lexes` says that asking for the next token again and again uses up the whole text, and which
tokens that gives; `lex` ends at the end of the text exactly then. The lexeme of a token agrees with
its kind (`Token.Genuine`): a bracket and a quote mark are their character, and a word is a nonempty
run of symbol characters of which the kind is what `wordKind` makes of it.
-/

namespace TaggedLisp

/-- What a token says, wherever it stands: its kind and its lexeme. -/
abbrev Spelling := TokenKind × String

/-- What the token says. -/
def Token.spelling (t : Token) : Spelling := (t.kind, t.lexeme)

/-- The token that opens a sequence. -/
def Shape.opening (s : Shape) : Spelling := (.opening s, String.singleton s.opener)

/-- The token that closes a sequence. -/
def Shape.closing (s : Shape) : Spelling := (.closing s, String.singleton s.closer)

/-- The token that quotes the form after it. -/
def quoteMark : Spelling := (.quote, "'")

/-! ## Whole texts -/

/-- One token after the other is found until the text is used up. -/
inductive Cursor.Lexes : Cursor → List Token → Prop where
  | finished {cur : Cursor} {line : Nat} (h : cur.next = .ok (.finished line)) : Lexes cur []
  | token {cur next : Cursor} {t : Token} {ts : List Token} (h : cur.next = .ok (.token t next))
      (rest : next.Lexes ts) : Lexes cur (t :: ts)

namespace Cursor

variable {cur : Cursor}

theorem lex_of_error {f : Fault} (h : cur.next = .error f) : cur.lex = ⟨[], .fault f⟩ := by
  rw [lex]
  split <;> simp_all

theorem lex_of_finished {line : Nat} (h : cur.next = .ok (.finished line)) :
    cur.lex = ⟨[], .endOfText line⟩ := by
  rw [lex]
  split <;> simp_all

theorem lex_of_token {t : Token} {next : Cursor} (h : cur.next = .ok (.token t next)) :
    cur.lex = ⟨t :: next.lex.tokens, next.lex.stop⟩ := by
  rw [lex]
  split <;> simp_all

/-- The whole text is used up exactly when reading tokens ends at the end of the text. -/
theorem lexes_iff {ts : List Token} : cur.Lexes ts ↔ ∃ line, cur.lex = ⟨ts, .endOfText line⟩ := by
  constructor
  · intro h
    induction h with
    | finished h => exact ⟨_, lex_of_finished h⟩
    | token h _ ih =>
      obtain ⟨line, ih⟩ := ih
      exact ⟨line, by rw [lex_of_token h, ih]⟩
  · rintro ⟨line, h⟩
    induction ts generalizing cur with
    | nil =>
      rcases hnext : cur.next with f | line' | ⟨t, next⟩
      · simp [lex_of_error hnext] at h
      · exact .finished hnext
      · simp [lex_of_token hnext] at h
    | cons t ts ih =>
      rcases hnext : cur.next with f | line' | ⟨t', next⟩
      · simp [lex_of_error hnext] at h
      · simp [lex_of_finished hnext] at h
      · rw [lex_of_token hnext, Lexed.mk.injEq, List.cons.injEq] at h
        obtain ⟨⟨rfl, hts⟩, hstop⟩ := h
        exact .token hnext (ih (by rw [← hts, ← hstop]))

end Cursor

/-! ## Tokens agree with their lexemes -/

/-- The word is a nonempty run of symbol characters that is a token of the kind. -/
def IsWord (kind : TokenKind) (cs : List Char) : Prop :=
  cs ≠ [] ∧ (∀ c ∈ cs, isSymbolChar c = true) ∧ wordKind cs = kind

instance (kind : TokenKind) (cs : List Char) : Decidable (IsWord kind cs) :=
  decidable_of_iff (cs ≠ [] ∧ cs.all isSymbolChar = true ∧ wordKind cs = kind)
    (by rw [IsWord, List.all_eq_true])

theorem isWord_nil : IsWord .nil "nil".toList := by decide +kernel

theorem isWord_boolean (b : Bool) : IsWord (.boolean b) (toString b).toList := by
  cases b <;> decide +kernel

theorem isWord_quote : IsWord .symbol "quote".toList := by decide +kernel

/-- The lexeme is one that a token of the kind can have. -/
def Token.Genuine (t : Token) : Prop :=
  match t.kind with
  | .opening s => t.spelling = s.opening
  | .closing s => t.spelling = s.closing
  | .quote => t.spelling = quoteMark
  | .string => True
  | kind => IsWord kind t.lexeme.toList

theorem wordKind_cases (cs : List Char) :
    wordKind cs = .boolean true ∨ wordKind cs = .boolean false ∨ wordKind cs = .nil ∨
      wordKind cs = .number ∨ wordKind cs = .symbol := by
  unfold wordKind
  grind

theorem Token.genuine_of_isWord {t : Token} (h : IsWord t.kind t.lexeme.toList) : t.Genuine := by
  have hkind := wordKind_cases t.lexeme.toList
  rw [h.2.2] at hkind
  unfold Genuine
  split
  iterate 3 simp_all
  · trivial
  · exact h

/-- The run of symbol characters that starts with `c` is a word. -/
theorem isWord_run {c : Char} {cs : List Char} (hc : isSymbolChar c = true) :
    IsWord (wordKind (c :: cs.takeWhile isSymbolChar)) (c :: cs.takeWhile isSymbolChar) := by
  refine ⟨List.cons_ne_nil _ _, ?_, rfl⟩
  rintro d (- | ⟨-, hd⟩)
  · exact hc
  · exact List.mem_takeWhile_imp hd

theorem genuine_of_scanToken {line : Nat} {c : Char} {cs : List Char} {t : Token} {next : Cursor}
    (h : scanToken line c cs = .ok (.token t next)) : t.Genuine := by
  unfold scanToken at h
  split at h
  iterate 5 (cases h; rfl)
  · split at h
    · cases h
    · cases h
      trivial
  · split at h
    · next hc =>
      cases h
      refine Token.genuine_of_isWord ?_
      rw [String.toList_ofList]
      exact isWord_run hc
    · cases h

theorem Cursor.genuine_of_next {cur next : Cursor} {t : Token}
    (h : cur.next = .ok (.token t next)) : t.Genuine := by
  unfold Cursor.next at h
  split at h
  · cases h
  · exact genuine_of_scanToken h

theorem Cursor.Lexes.genuine {cur : Cursor} {ts : List Token} (h : cur.Lexes ts) :
    ∀ t ∈ ts, t.Genuine := by
  induction h with
  | finished => simp
  | token h _ ih => exact List.forall_mem_cons.mpr ⟨genuine_of_next h, ih⟩

end TaggedLisp
