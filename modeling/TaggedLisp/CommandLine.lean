import TaggedLisp.Expr.Printer
import TaggedLisp.Form.Printer
import TaggedLisp.Ir.Printer
import TaggedLisp.Machine.Text
import TaggedLisp.Options
import TaggedLisp.Session

/-!
# The command line

`CommandLine.run` compiles one file and prints what the options ask for. All it does to the world
goes through a `Host`, so that the program can be run against any store of files.
-/

namespace TaggedLisp

namespace Compilation

/-- What a product looks like: machine code as it is, all else item by item, a line end after each.
-/
def text (c : Compilation) (product : Product) (coloured : Bool) : String :=
  match product with
  | .asm => c.program.render
  | .sexpr => items (c.forms.map (·.render coloured))
  | .typed => items (c.exprs.map (·.render c.types coloured))
  | .ir => items (c.trees.map (·.render coloured))
  | .canonical => items (c.blocks.map (·.render coloured))
where
  /-- Items with a line end after each. -/
  items (texts : List String) : String := String.join (texts.map (· ++ "\n"))

end Compilation

/-- What the program does to the world. A store of files answers with the reason when it cannot do
what it is asked. -/
structure Host (m : Type → Type) where
  load : (name : String) → m (Except String ByteArray)
  save : (name content : String) → m (Except String Unit)
  /-- Writes on the standard output. -/
  print : String → m Unit
  /-- Writes a line on the standard error. -/
  complain : String → m Unit

/-- The variables by which a terminal says what it can do. -/
structure Terminal where
  term : Option String
  noColor : Option String
  deriving DecidableEq, Repr, Inhabited

/-- Whether a terminal shows colours: it has a name, it is not dumb, and nobody asked for none. -/
def Terminal.isColoured (t : Terminal) : Bool :=
  t.noColor.isNone && t.term.isSome && t.term != some "dumb"

namespace CommandLine

variable {m : Type → Type} [Monad m]

/-- The exit code when all went well. -/
def success : UInt32 := 0

/-- The exit code when the program or a file was refused. -/
def refused : UInt32 := 1

/-- The exit code when the command line was refused. -/
def misused : UInt32 := 2

/-- The compilation of a file, or what to complain about. -/
def compileFile (host : Host m) (o : Options) : m (Except String Compilation) := do
  match ← host.load o.input with
  | .error reason => return .error (o.input ++ ": " ++ reason)
  | .ok bytes =>
    match String.fromUTF8? bytes with
    | none => return .error (o.input ++ ": stream did not contain valid UTF-8")
    | some source =>
      match ((Session.compile source).outcome (.start o.optimize)).1 with
      | .error f => return .error f.message
      | .ok c => return .ok c

/-- Prints a product of a compilation where the options say. A coloured terminal is left without
colour in the end. -/
def deliver (host : Host m) (terminal : Terminal) (o : Options) (c : Compilation) :
    m (Except String Unit) := do
  match o.output with
  | some path =>
    match ← host.save path (c.text o.product false) with
    | .error reason => return .error (path ++ ": " ++ reason)
    | .ok () => return .ok ()
  | none =>
    let coloured := terminal.isColoured
    host.print (c.text o.product coloured ++ if coloured then Ink.reset else "")
    return .ok ()

/-- Runs the program on the arguments and answers its exit code. -/
def run (host : Host m) (terminal : Terminal) (args : List String) : m UInt32 := do
  match Options.parse args with
  | .error f =>
    host.complain (f.message ++ "\n" ++ Options.usage)
    return misused
  | .ok o =>
    if o.help then
      host.print (Options.usage ++ "\n")
      return success
    else
      match ← compileFile host o with
      | .error reason =>
        host.complain reason
        return refused
      | .ok c =>
        match ← deliver host terminal o c with
        | .error reason =>
          host.complain reason
          return refused
        | .ok () => return success

end CommandLine

end TaggedLisp
