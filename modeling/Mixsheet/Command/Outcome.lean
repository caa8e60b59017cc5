import Mixsheet.Command.Invocation
import Mixsheet.Processor

/-! # Outcomes

What a command line comes to: an exit code, and text on the standard output and the error output. A
task first asks for the text of its file. A build may then ask for one file to be written, and tells by
how that went.

The lines of the log, which go to the error output as well, are no part of an outcome: each mixin that is
not found and, with `--verbose`, each step of an expansion has one, with the time. -/

namespace Mixsheet.Command

/-- The exit code of a command line and what it prints. -/
structure Outcome where
  code : Nat
  out : String
  /-- The error output without the lines of the log. -/
  err : String
  deriving DecidableEq, Repr

/-- Why a file is not read or written. -/
inductive FileFault where
  | notFound
  | denied
  | notFolder
  | folder
  | tooLong
  | notText
  deriving DecidableEq, Repr

/-- The fault as the operating system words it. -/
def FileFault.message : FileFault → String
  | .notFound => "No such file or directory (os error 2)"
  | .denied => "Permission denied (os error 13)"
  | .notFolder => "Not a directory (os error 20)"
  | .folder => "Is a directory (os error 21)"
  | .tooLong => "File name too long (os error 36)"
  | .notText => "stream did not contain valid UTF-8"

/-- What comes of asking for the text of a file. -/
inductive FileText where
  | absent
  | unreadable (reason : String)
  | text (text : String)
  deriving DecidableEq, Repr

/-- What is left to do when the text of the file is known. -/
inductive Plan where
  | finish (outcome : Outcome)
  /-- Write a file, and tell about it behind the report. -/
  | write (path css report : String)
  deriving DecidableEq, Repr

/-- A line of a report. -/
def line (s : String) : String := s ++ "\n"

/-- An outcome with nothing on the standard output. -/
def reported (code : Nat) (report : String) : Outcome := ⟨code, "", report⟩

/-- The lines for the warnings about a file. -/
def warningLines (path : String) (warnings : List Warning) : String :=
  String.join (warnings.map fun w => line ("Warning: " ++ path ++ ":" ++ w.render))

/-- The name of a file without its extension; a dot at the start of a name begins no extension. -/
def stem (name : List Char) : List Char :=
  match (name.reverse.dropWhile (· != '.')).drop 1 with
  | [] => name
  | rest => rest.reverse

/-- The name of a file with the extension `css`. Where a dot alone stands before the extension, taking
the extension off leaves `..`, which is the folder above and takes no extension. -/
def nameWithCss (name : List Char) : List Char :=
  if stem name = ['.'] then ['.', '.'] else stem name ++ ['.', 'c', 's', 's']

/-- The path of a file with the extension `css`. -/
def withCss (path : String) : String :=
  let backwards := path.toList.reverse
  let name := (backwards.takeWhile (· != '/')).reverse
  let folder := (backwards.dropWhile (· != '/')).reverse
  .ofList (folder ++ nameWithCss name)

/-- The plan of a build with its result and the report of its warnings. -/
def buildPlan (path : String) (output? : Option String) (css report : String) : Plan :=
  match output? with
  | some output => if output = "-" then .finish ⟨0, css, report⟩ else .write output css report
  | none =>
    if withCss path = path then
      .finish (reported 1
        (report ++ line ("Error: output would overwrite " ++ path ++ "; pass --output")))
    else
      .write (withCss path) css report

/-- The outcome of a check with its warnings. -/
def checkOutcome (path : String) (denyWarnings : Bool) (warnings : List Warning) : Outcome :=
  let report := warningLines path warnings
  if denyWarnings && !warnings.isEmpty then
    reported 1 (report ++ line s!"Failed: {path} ({warnings.length} warnings)")
  else
    reported 0 (report ++ line ("OK: " ++ path))

/-- The file that the task is about. -/
def Task.path : Task → String
  | .build path _ | .check path _ => path

/-- The stylesheet of a text with its calls of built-in mixins replaced, under the units of a command line. -/
def process (text : String) (units : Units) : Except ProcessError Expanded :=
  ((Processor.ofRegistry (Catalog.registry .standard)).withUnits units).process text

/-- The plan of a task when the stylesheet of its file is expanded: only a build writes it as text. -/
def Task.plan (expanded : Expanded) : Task → Plan
  | .build path output? =>
    buildPlan path output? (Stylesheet.render ⟨expanded.nodes⟩) (warningLines path expanded.warnings)
  | .check path denyWarnings => .finish (checkOutcome path denyWarnings expanded.warnings)

/-- The plan of an invocation when the text of its file is known. -/
def Invocation.plan (invocation : Invocation) (file : FileText) : Plan :=
  let path := invocation.task.path
  match file with
  | .absent => .finish (reported 1 (line ("Error: file not found: " ++ path)))
  | .unreadable reason => .finish (reported 1 (line ("Error reading " ++ path ++ ": " ++ reason)))
  | .text text =>
    match process text invocation.units with
    | .error e => .finish (reported 1 (line ("Error in " ++ path ++ ": " ++ e.message)))
    | .ok expanded => invocation.task.plan expanded

/-- The outcome of a build when its file is written, or is not for a reason. -/
def written (path report : String) : Except String Unit → Outcome
  | .ok _ => reported 0 (report ++ line ("Built: " ++ path))
  | .error reason => reported 1 (report ++ line ("Error writing " ++ path ++ ": " ++ reason))

/-- How the program is called. -/
def usageText : String :=
  "Usage: mixcss [--unit UNIT] [--line-height-unit UNIT] <build [-o OUTPUT] | check [--deny-warnings]> PATH\n"

/-- The outcome of words that name no task. -/
def Halt.outcome : Halt → Outcome
  | .usage => reported 2 usageText
  | .help => ⟨0, usageText, ""⟩
  | .version => ⟨0, line ("mixcss " ++ Mixsheet.version), ""⟩

end Mixsheet.Command
