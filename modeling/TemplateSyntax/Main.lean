import TemplateSyntax.Command.Run

/-!
# The program

Reads the arguments, the variable and the file, and writes the outcome.
-/

namespace TemplateSyntax.Command

/-- The number of an error of the system, which may come with a sign. -/
def errorNumber (code : UInt32) : Nat :=
  min code.toNat (UInt32.size - code.toNat)

/-- The fault that a failed access to a file stands for. -/
def ReadFault.ofIO : IO.Error → ReadFault
  | .noFileOrDirectory _ _ _ => .missing
  | .inappropriateType _ code _ => if errorNumber code = 20 then .notDirectory else .isDirectory
  | .permissionDenied _ code _ => .other ("Permission denied (os error " ++ (errorNumber code).repr ++ ")")
  | .invalidArgument _ code details => if errorNumber code = 36 then .nameTooLong else .other details
  | e => .other e.toString

def readFile (path : String) : IO (Except ReadFault String) := do
  match ← (IO.FS.readBinFile path).toBaseIO with
  | .ok bytes => return decode bytes
  | .error e => return .error (.ofIO e)

def Outcome.emit (o : Outcome) : IO UInt32 := do
  (← IO.getStdout).putStr o.output
  (← IO.getStderr).putStr o.errors
  return o.code.toUInt32

end TemplateSyntax.Command

open TemplateSyntax.Command in
def main (arguments : List String) : IO UInt32 := do
  match start arguments (← IO.getEnv "FTL_LOG_LEVEL") with
  | .error o => o.emit
  | .ok (i, level) => (perform i level (← readFile i.path)).emit
