import TaggedLisp.CommandLine

/-!
# The program

The command line run on the files and the terminal of the system.
-/

namespace TaggedLisp

/-- A reason for which the system refused to do something, with its number. -/
def systemReason : IO.Error → String
  | .noFileOrDirectory _ code _ => numbered "No such file or directory" code
  | .permissionDenied _ code _ => numbered "Permission denied" code
  | .inappropriateType _ code _ => numbered "Is a directory" code
  | .alreadyExists _ code _ => numbered "File exists" code
  | e => toString e
where
  /-- A reason and its number. -/
  numbered (reason : String) (code : UInt32) : String :=
    reason ++ " (os error " ++ toString code ++ ")"

/-- An action with the system's refusal made a value. -/
def attempt {α : Type} (action : IO α) : IO (Except String α) := do
  try return .ok (← action)
  catch e => return .error (systemReason e)

/-- The files and the terminal of the system. -/
def systemHost : Host IO where
  load name := attempt (IO.FS.readBinFile name)
  save name content := attempt (IO.FS.writeFile name content)
  print s := IO.print s
  complain s := IO.eprintln s

end TaggedLisp

/-- Compiles a file as the arguments ask for. -/
def main (args : List String) : IO UInt32 := do
  let terminal := ⟨← IO.getEnv "TERM", ← IO.getEnv "NO_COLOR"⟩
  TaggedLisp.CommandLine.run TaggedLisp.systemHost terminal args
