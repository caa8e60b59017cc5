import Mixsheet.Command.Outcome

/-! # The program

Reads and writes the files of a command line and prints what it comes to. -/

namespace Mixsheet.Command

/-- The number of a fault is `number`; some calls give it negated. -/
def isFault (number code : UInt32) : Bool := code == number || code == 0 - number

/-- Why a file is not read or written, as far as it is known. -/
def faultOf? : IO.Error → Option FileFault
  | .noFileOrDirectory .. => some .notFound
  | .permissionDenied .. => some .denied
  | .inappropriateType _ code _ => some (if isFault 20 code then .notFolder else .folder)
  | .invalidArgument _ code _ => if isFault 36 code then some .tooLong else none
  | .userError _ => some .notText
  | _ => none

/-- Why a file is not read or written, in words. -/
def reason (e : IO.Error) : String :=
  match faultOf? e with
  | some fault => fault.message
  | none => toString e

/-- Asks for the text of a file; one that cannot be found is absent. -/
def readFile (path : String) : IO FileText :=
  try
    return .text (← IO.FS.readFile path)
  catch e =>
    match faultOf? e with
    | some .notFound | some .notFolder | some .tooLong => return .absent
    | _ => return .unreadable (reason e)

/-- Writes a file, or tells why it is not written. -/
def writeFile (path text : String) : IO (Except String Unit) :=
  try
    IO.FS.writeFile path text
    return .ok ()
  catch e =>
    return .error (reason e)

/-- Does what is left to do. -/
def Plan.run : Plan → IO Outcome
  | .finish outcome => return outcome
  | .write path css report => return written path report (← writeFile path css)

/-- What a command line comes to. -/
def outcomeOf (words : List String) : IO Outcome :=
  match Invocation.ofWords words with
  | .ok invocation => do (invocation.plan (← readFile invocation.task.path)).run
  | .error halt => return halt.outcome

end Mixsheet.Command

/-- Prints what the command line comes to, and ends with its exit code. -/
def main (words : List String) : IO UInt32 := do
  let outcome ← Mixsheet.Command.outcomeOf words
  IO.print outcome.out
  IO.eprint outcome.err
  return outcome.code.toUInt32
