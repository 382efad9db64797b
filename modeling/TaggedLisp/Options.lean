import TaggedLisp.Text.Quoted

/-!
# Options of the command line

Options are taken out of the arguments one after another, wherever they stand, each once: the
request for help, then what to print, whether copies are kept, and the output file. The first
argument that is left is the input file, and nothing may be left after it. The value of an option is
the argument right after it, whatever it looks like.
-/

namespace TaggedLisp

/-- What is printed of a compilation. -/
inductive Product where
  | asm
  | sexpr
  | typed
  | ir
  | canonical
  deriving DecidableEq, Repr, Inhabited

/-- The name of a product on the command line. -/
def Product.name : Product → String
  | asm => "asm"
  | sexpr => "sexpr"
  | typed => "typed"
  | ir => "ir"
  | canonical => "canonical"

/-- Every product. -/
def Product.all : List Product := [asm, sexpr, typed, ir, canonical]

/-- The product of a name, in letters of either case. Only ASCII letters need their case changed:
the lower case of no other character is an ASCII letter of these names. -/
def Product.ofName? (s : String) : Option Product :=
  Product.all.find? fun p ↦ p.name == String.ofList (s.toList.map Char.toLower)

theorem Product.ofName?_name (p : Product) : Product.ofName? p.name = some p := by
  cases p <;> decide +kernel

/-- What the command line asks for. -/
structure Options where
  help : Bool
  product : Product
  /-- Whether copies are dropped from blocks. -/
  optimize : Bool
  output : Option String
  input : String
  deriving DecidableEq, Repr, Inhabited

/-- Why a command line is refused. -/
inductive UsageFault where
  | missingValue (option : String)
  | unknownProduct (value : String)
  | missingInput
  | leftover (args : List String)
  deriving DecidableEq, Repr, Inhabited

/-- A fault of the command line as its reader sees it. -/
def UsageFault.message : UsageFault → String
  | missingValue option => "the '" ++ option ++ "' option doesn't have an associated value"
  | unknownProduct value => "failed to parse '" ++ value ++ "': Invalid emit kind"
  | missingInput => "free-standing argument is missing"
  | leftover args =>
    "unexpected arguments: [" ++ String.intercalate ", " (args.map Text.quote) ++ "]"

namespace Options

/-- How the program is called. -/
def usage : String :=
  "Usage: lisc [options] <input file>\n"
    ++ "Options:\n"
    ++ "  -h, --help: Print this help message\n"
    ++ "  --emit <kind>: What to print: asm, sexpr, typed, ir or canonical (default: asm)\n"
    ++ "  --no-opt: Skip copy propagation on canonical IR\n"
    ++ "  -o <file>: Write output to <file> instead of stdout"

/-- A request for help, whatever else is asked for. -/
def forHelp : Options := ⟨true, .asm, true, none, ""⟩

/-- Takes the first `key` and its value out of the arguments. -/
def takeValue (key : String) (args : List String) :
    Except UsageFault (Option String × List String) :=
  match args.span (· != key) with
  | (_, []) => .ok (none, args)
  | (_, [_]) => .error (.missingValue key)
  | (before, _ :: value :: after) => .ok (some value, before ++ after)

/-- The options that the arguments ask for. -/
def parse (args : List String) : Except UsageFault Options := do
  if args.contains "-h" || args.contains "--help" then return forHelp
  let (product, args) ← takeValue "--emit" args
  let product ← match product with
    | none => pure Product.asm
    | some value =>
      match Product.ofName? value with
      | some p => pure p
      | none => throw (.unknownProduct value)
  let optimize := !args.contains "--no-opt"
  let args := args.erase "--no-opt"
  let (output, args) ← takeValue "-o" args
  match args with
  | [] => throw .missingInput
  | [input] => return ⟨false, product, optimize, output, input⟩
  | _ :: rest => throw (.leftover rest)

end Options

end TaggedLisp
