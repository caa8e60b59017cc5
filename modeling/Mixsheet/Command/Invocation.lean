import Mixsheet.Units

/-! # Invocations

The words of a command line name a task, the file it is about, and options. Options of the program may
stand before the task or behind it, where the one behind counts; the others stand behind their task.
A long option takes its value from the next word or behind a `=`, a short one from the rest of its word
or from the next. A word that starts with a dash is no value, but a lone dash is one. Behind `--` no
word is an option. -/

namespace Mixsheet.Command

/-- What is to be done with a file. -/
inductive Task where
  /-- Expand it and write the result to a file; `-` is the standard output. -/
  | build (path : String) (output? : Option String)
  /-- Expand it and report the faults. -/
  | check (path : String) (denyWarnings : Bool)
  deriving DecidableEq, Repr

/-- A task and the units of the run. -/
structure Invocation where
  task : Task
  units : Units
  deriving DecidableEq, Repr

/-- Why words name no task. -/
inductive Halt where
  | usage
  | help
  | version
  deriving DecidableEq, Repr

/-! ### Options -/

/-- The options, whatever the task. -/
inductive Switch where
  | unit
  | lineHeightUnit
  | verbose
  | output
  | denyWarnings
  | help
  | version
  deriving DecidableEq, Repr

namespace Switch

/-- The name of an option behind two dashes. -/
def long : Switch → String
  | .unit => "unit"
  | .lineHeightUnit => "line-height-unit"
  | .verbose => "verbose"
  | .output => "output"
  | .denyWarnings => "deny-warnings"
  | .help => "help"
  | .version => "version"

/-- The letter of an option behind one dash. -/
def short? : Switch → Option Char
  | .verbose => some 'v'
  | .output => some 'o'
  | .help => some 'h'
  | .version => some 'V'
  | _ => none

/-- The option has a value behind it. -/
def takesValue : Switch → Bool
  | .unit | .lineHeightUnit | .output => true
  | _ => false

end Switch

/-- Where options stand: before the task, or behind one. -/
inductive Level where
  | program
  | build
  | check
  deriving DecidableEq, Repr

/-- The options that may stand at a level. -/
def Level.switches : Level → List Switch
  | .program => [.unit, .lineHeightUnit, .verbose, .help, .version]
  | .build => [.unit, .lineHeightUnit, .verbose, .help, .output]
  | .check => [.unit, .lineHeightUnit, .verbose, .help, .denyWarnings]

/-- What is given at a level: each option at most once, and one file. -/
structure Given where
  switches : List (Switch × String)
  path? : Option String

namespace Given

/-- Nothing is given yet. -/
def nothing : Given := ⟨[], none⟩

/-- The value that an option was given. -/
def value? (g : Given) (s : Switch) : Option String := g.switches.lookup s

/-- An option is given; one without a value is given the empty one. -/
def set (g : Given) (s : Switch) (value : String) : Except Halt Given :=
  match s with
  | .help => .error .help
  | .version => .error .version
  | s => if (g.value? s).isSome then .error .usage else .ok { g with switches := (s, value) :: g.switches }

/-- A file is given; a second one is refused. -/
def setPath (g : Given) (path : String) : Except Halt Given :=
  match g.path? with
  | none => .ok { g with path? := some path }
  | some _ => .error .usage

end Given

/-! ### Words -/

/-- What the next word is read as. -/
inductive Mode where
  | options
  | value (s : Switch)
  | files
  deriving DecidableEq, Repr

/-- What is given so far, and what the next word is read as. -/
structure State where
  given : Given
  mode : Mode

/-- Nothing is given, and options may follow. -/
def State.initial : State := ⟨.nothing, .options⟩

/-- The word is no option: it does not start with a dash, or is one. -/
def isPlain (word : String) : Bool := word.toList.head? != some '-' || word == "-"

/-- An option is given with its value, and options may follow. -/
def State.afterOption (g : Given) (s : Switch) (value : String) : Except Halt State :=
  (g.set s value).map (⟨·, .options⟩)

/-- Reads the letters behind one dash. The first option with a value takes the rest of the word, without
a `=` before it. -/
def readLetters (level : Level) (g : Given) : List Char → Except Halt State
  | [] => .ok ⟨g, .options⟩
  | c :: rest =>
    match level.switches.find? fun s => s.short? == some c with
    | none => .error .usage
    | some s =>
      if s.takesValue then
        match rest with
        | [] => .ok ⟨g, .value s⟩
        | '=' :: value => State.afterOption g s (.ofList value)
        | value => State.afterOption g s (.ofList value)
      else
        (g.set s "").bind fun g => readLetters level g rest

/-- Reads the text behind two dashes: a name, and a value behind a `=`. -/
def readLong (level : Level) (g : Given) (cs : List Char) : Except Halt State :=
  match level.switches.find? fun s => s.long.toList == cs.takeWhile (· != '=') with
  | none => .error .usage
  | some s =>
    match s.takesValue, cs.dropWhile (· != '=') with
    | true, [] => .ok ⟨g, .value s⟩
    | true, _ :: value => State.afterOption g s (.ofList value)
    | false, [] => State.afterOption g s ""
    | false, _ :: _ => .error .usage

/-- A word that starts with a dash: two dashes alone end the options. -/
def readOption (level : Level) (g : Given) (word : String) : Except Halt State :=
  match word.toList with
  | ['-', '-'] => .ok ⟨g, .files⟩
  | '-' :: '-' :: cs => readLong level g cs
  | cs => readLetters level g (cs.drop 1)

/-- What is given behind a further word. -/
def State.step (level : Level) (st : State) (word : String) : Except Halt State :=
  match st.mode with
  | .value s => if isPlain word then State.afterOption st.given s word else .error .usage
  | .files => (st.given.setPath word).map (⟨·, .files⟩)
  | .options =>
    if isPlain word then (st.given.setPath word).map (⟨·, .options⟩)
    else readOption level st.given word

/-- What is given when there are no more words; an option that still wants its value is refused. -/
def State.finish (st : State) : Except Halt Given :=
  match st.mode with
  | .value _ => .error .usage
  | _ => .ok st.given

/-- What the words behind a task give. -/
def readWords (level : Level) (words : List String) : Except Halt Given :=
  (words.foldlM (State.step level) .initial).bind State.finish

/-! ### Tasks -/

/-- The units that are given behind a task, or else before it. -/
def unitsOf (outer inner : Given) : Units :=
  let value (s : Switch) (standard : String) :=
    ((inner.value? s).or (outer.value? s)).getD standard
  ⟨value .unit Units.standard.general, value .lineHeightUnit Units.standard.lineHeight⟩

/-- The task that a word names, with the words behind it. -/
def readTask (outer : Given) (name : String) (words : List String) : Except Halt Invocation :=
  match name with
  | "build" => do
    let inner ← readWords .build words
    match inner.path? with
    | some path => return ⟨.build path (inner.value? .output), unitsOf outer inner⟩
    | none => .error .usage
  | "check" => do
    let inner ← readWords .check words
    match inner.path? with
    | some path => return ⟨.check path (inner.value? .denyWarnings).isSome, unitsOf outer inner⟩
    | none => .error .usage
  | "help" => .error (if [[], ["build"], ["check"], ["help"]].contains words then .help else .usage)
  | _ => .error .usage

/-- Reads words up to the one that names a task. -/
def readFrom (st : State) : List String → Except Halt Invocation
  | [] => .error .usage
  | word :: rest =>
    if st.mode = .files then .error .usage
    else if st.mode = .options ∧ isPlain word then readTask st.given word rest
    else (st.step .program word).bind (readFrom · rest)

/-- The invocation that the words of a command line stand for. -/
def Invocation.ofWords (words : List String) : Except Halt Invocation := readFrom .initial words

end Mixsheet.Command
