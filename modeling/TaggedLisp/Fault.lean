/-!
# Faults

Every way in which a program can be refused. A fault is a cause and the line of the token that
brought it up; what a reader of the message sees is decided in one place, `Fault.message`.
-/

namespace TaggedLisp

/-- How many arguments a function takes. -/
inductive Arity where
  | exactly (count : Nat)
  | atLeast (count : Nat)
  deriving DecidableEq, Repr, Inhabited

/-- Whether a call with `count` arguments fits. -/
def Arity.admits : Arity → (count : Nat) → Bool
  | exactly n, count => count == n
  | atLeast n, count => decide (n ≤ count)

/-- Where two types had to agree and did not. -/
inductive Meeting where
  /-- The two branches of a conditional. -/
  | branches
  /-- The argument at a position, counted from zero, of a call. -/
  | argument (position : Nat) (callee : String)
  /-- The operator of a call. -/
  | operator (callee : String)
  deriving DecidableEq, Repr, Inhabited

/-- What is wrong with the head of a function. -/
inductive ParamFlaw where
  | nameNotSymbol
  | notSymbols
  | restNotLast
  deriving DecidableEq, Repr, Inhabited

/-- What is wrong with the bindings of a `let`. -/
inductive BindingFlaw where
  | notPairs
  | nameNotSymbol
  deriving DecidableEq, Repr, Inhabited

/-- Why a program is refused. Types stand as they were displayed when the fault arose. -/
inductive Cause where
  | unexpectedChar (char : Char)
  | unterminatedString
  | unbalancedDelimiter (found : Char)
  | unexpectedEnd
  | integerRange (value : String)
  | unresolvedSymbol (name : String)
  | wrongArgCount (form : String) (got : Nat)
  | arityMismatch (callee : String) (expected : Arity) (got : Nat)
  | typeMismatch (meeting : Meeting) (expected actual : String)
  | frozenType (actual expected : String)
  | notAFunction (callee actual : String)
  | malformedParams (flaw : ParamFlaw)
  | malformedBindings (flaw : BindingFlaw)
  | defnNotTopLevel
  | badOperator
  deriving DecidableEq, Repr, Inhabited

/-- A cause and the line that brought it up. -/
structure Fault where
  cause : Cause
  line : Nat
  deriving DecidableEq, Repr, Inhabited

/-! ## Wording -/

/-- A count of arguments in words. -/
def Arity.describe : Arity → String
  | exactly n => toString n
  | atLeast n => "at least " ++ toString n

/-- A meeting in words; arguments are counted from one. -/
def Meeting.describe : Meeting → String
  | branches => "branches of if"
  | argument i callee => "argument " ++ toString (i + 1) ++ " to " ++ callee
  | operator callee => callee

def ParamFlaw.describe : ParamFlaw → String
  | nameNotSymbol => "function name must be a symbol"
  | notSymbols => "expected a vector of symbols for parameters"
  | restNotLast => "& must be followed by exactly one symbol"

def BindingFlaw.describe : BindingFlaw → String
  | notPairs => "expected an even number of forms in bindings vector"
  | nameNotSymbol => "expected a symbol in bindings vector"

/-- A cause in words. -/
def Cause.describe : Cause → String
  | unexpectedChar c => "unexpected character '" ++ c.toString ++ "'"
  | unterminatedString => "unterminated string literal"
  | unbalancedDelimiter c => "unbalanced delimiter '" ++ c.toString ++ "'"
  | unexpectedEnd => "unexpected end of input"
  | integerRange v => "integer literal " ++ v ++ " does not fit in a tagged word"
  | unresolvedSymbol name => "unable to resolve symbol " ++ name
  | wrongArgCount form got => "wrong number of args (" ++ toString got ++ ") passed to " ++ form
  | arityMismatch callee expected got =>
    callee ++ " requires " ++ expected.describe ++ " argument(s), got " ++ toString got
  | typeMismatch meeting expected actual =>
    meeting.describe ++ ": expected " ++ expected ++ ", got " ++ actual
  | frozenType actual expected => "cannot narrow frozen type " ++ actual ++ " to " ++ expected
  | notAFunction callee actual => callee ++ " is not a function (got " ++ actual ++ ")"
  | malformedParams flaw => "malformed parameters: " ++ flaw.describe
  | malformedBindings flaw => "malformed bindings: " ++ flaw.describe
  | defnNotTopLevel => "defn is only allowed at top level"
  | badOperator => "expected a symbol or list in operator position"

/-- A fault as its reader sees it: the line, then the cause. -/
def Fault.message (f : Fault) : String :=
  "[line " ++ toString f.line ++ "] " ++ f.cause.describe

end TaggedLisp
