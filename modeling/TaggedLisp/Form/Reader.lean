import TaggedLisp.Form
import TaggedLisp.Token.Lexer

/-!
# From tokens to forms

The reader takes one token at a time and keeps what is still open: sequences that wait for their
closing bracket and quote marks that wait for a form. A completed form goes to the innermost open
construct, and a quote mark that receives its form is itself completed. All faults name the token
that brought them up, or the last line when the text ends too early.
-/

namespace TaggedLisp

/-- A construct that still waits for forms. -/
inductive Unclosed where
  /-- A sequence with the elements read so far, the last one first. -/
  | group (shape : Shape) (token : Token) (elems : List Form)
  /-- A quote mark whose form is still to come. -/
  | quote (mark : Token)
  deriving Repr, Inhabited

/-- How far reading has come: the open constructs, innermost first, and the finished forms, the last
one first. -/
structure Reading where
  pending : List Unclosed
  forms : List Form
  deriving Repr, Inhabited

namespace Reading

/-- Nothing read so far. -/
def start : Reading := ⟨[], []⟩

/-- Hands a completed form to the innermost open construct. -/
def deliver (f : Form) (forms : List Form) : List Unclosed → Reading
  | [] => ⟨[], f :: forms⟩
  | .quote mark :: rest => deliver (.quote mark f) forms rest
  | .group shape t elems :: rest => ⟨.group shape t (f :: elems) :: rest, forms⟩

/-- Adds an atom or any other completed form. -/
def add (r : Reading) (f : Form) : Reading := deliver f r.forms r.pending

/-- Closes the innermost construct, which must be a sequence of the given shape. -/
def close (r : Reading) (shape : Shape) (t : Token) : Except Fault Reading :=
  match r.pending with
  | .group s start elems :: rest =>
    if s = shape then .ok (deliver (.group s elems.reverse start) r.forms rest)
    else .error ⟨.unbalancedDelimiter shape.closer, t.line⟩
  | _ => .error ⟨.unbalancedDelimiter shape.closer, t.line⟩

end Reading

/-! ## Numerals -/

/-- The number that a sequence of decimal digits stands for. -/
def digitsValue (cs : List Char) : Nat :=
  cs.foldl (fun n c ↦ 10 * n + (c.toNat - '0'.toNat)) 0

/-- The integer that a numeral stands for. -/
def numeralValue : List Char → Int
  | '-' :: cs => -(digitsValue cs : Int)
  | cs => digitsValue cs

/-- The word that a numeral stands for, when it is a signed word of 64 bits. -/
def numeralWord? (cs : List Char) : Option Int64 :=
  let n := numeralValue cs
  if Int64.minValue.toInt ≤ n ∧ n ≤ Int64.maxValue.toInt then some (Int64.ofInt n) else none

/-! ## Reading -/

/-- Reads one token. -/
def Reading.step (r : Reading) (t : Token) : Except Fault Reading :=
  match t.kind with
  | .opening shape => .ok ⟨.group shape t [] :: r.pending, r.forms⟩
  | .closing shape => r.close shape t
  | .quote => .ok ⟨.quote t :: r.pending, r.forms⟩
  | .symbol => .ok (r.add (.atom (.symbol t.lexeme) t))
  | .string => .ok (r.add (.atom (.string t.lexeme) t))
  | .number =>
    match numeralWord? t.lexeme.toList with
    | some n => .ok (r.add (.atom (.number n) t))
    | none => .error ⟨.integerRange t.lexeme, t.line⟩
  | .boolean b => .ok (r.add (.atom (.boolean b) t))
  | .nil => .ok (r.add (.atom .nil t))

/-- Reads tokens until one of them is at fault. -/
def Reading.steps (r : Reading) : List Token → Except Fault Reading
  | [] => .ok r
  | t :: ts =>
    match r.step t with
    | .error f => .error f
    | .ok r => r.steps ts

/-- Reading a sequence of tokens in two parts is reading it whole. -/
theorem Reading.steps_append (r : Reading) (ts us : List Token) :
    r.steps (ts ++ us) =
      match r.steps ts with
      | .error f => .error f
      | .ok r => r.steps us := by
  induction ts generalizing r with
  | nil => rfl
  | cons t ts ih =>
    simp only [List.cons_append, steps]
    split
    · rfl
    · exact ih _

/-- The forms read once there are no more tokens. -/
def Reading.finish (r : Reading) : Stop → Except Fault (List Form)
  | .fault f => .error f
  | .endOfText line =>
    if r.pending.isEmpty then .ok r.forms.reverse else .error ⟨.unexpectedEnd, line⟩

/-- The forms that a sequence of tokens stands for. -/
def Lexed.forms (l : Lexed) : Except Fault (List Form) :=
  match Reading.start.steps l.tokens with
  | .error f => .error f
  | .ok r => r.finish l.stop

/-- The forms of a text. -/
def read (source : String) : Except Fault (List Form) := (lex source).forms

end TaggedLisp
