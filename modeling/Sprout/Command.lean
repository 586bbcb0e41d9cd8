import Sprout.Compile
import Sprout.FileTree
import Sprout.Text.Quoted

namespace Sprout

/-- What is written for each source: the generated program, or one of the two views of what lies
between the text and the program. -/
inductive Emit
  | code
  | tokens
  | trees
deriving DecidableEq, Repr

namespace Emit

/-- The extension of the files written. -/
def extension : Emit → String
  | code => "cpp"
  | tokens => "tokens"
  | trees => "ast"

/-- What a word on the command line asks for; it is the same as the extension. -/
def ofWord? (word : String) : Option Emit :=
  [code, tokens, trees].find? (·.extension = word)

end Emit

/-- The choices on a command line. A command reads one source from its standard input or from a
file, or every source below a directory. -/
structure Command where
  input : Option String := none
  output : Option String := none
  emit : Emit := .code
  runtimeHeader : String := ({} : Options).runtimeHeader
  denyWarnings : Bool := false
  quiet : Bool := false
  verbose : Bool := false
deriving DecidableEq, Repr

/-- What a run leaves behind. -/
structure Command.Outcome where
  status : Nat
  output : String := ""
  errors : String := ""
  files : FileTree
deriving DecidableEq, Repr

namespace Command

/-- The options that take a value. -/
inductive Setting
  | input
  | output
  | emit
  | runtimeHeader
deriving DecidableEq, Repr

/-- The options that take none. -/
inductive Switch
  | denyWarnings
  | quiet
  | verbose
deriving DecidableEq, Repr

/-- Sets an option to a value; nothing if the value is not one of its values. -/
def set (c : Command) (setting : Setting) (value : String) : Option Command :=
  match setting with
  | .input => if value = "" then none else some { c with input := some value }
  | .output => if value = "" then none else some { c with output := some value }
  | .emit => (Emit.ofWord? value).map fun emit => { c with emit }
  | .runtimeHeader => some { c with runtimeHeader := value }

/-- Turns an option on. -/
def turnOn (c : Command) : Switch → Command
  | .denyWarnings => { c with denyWarnings := true }
  | .quiet => { c with quiet := true }
  | .verbose => { c with verbose := true }

/-- The option of a long name. -/
def longOption? (name : String) : Option (Setting ⊕ Switch) :=
  [("input", .inl .input), ("output", .inl .output), ("emit", .inl .emit),
    ("runtime-header", .inl .runtimeHeader), ("deny-warnings", .inr .denyWarnings),
    ("quiet", .inr .quiet), ("verbose", .inr .verbose)].lookup name

/-- The option of a letter. -/
def shortOption? (letter : Char) : Option (Setting ⊕ Switch) :=
  [('i', .inl .input), ('o', .inl .output), ('q', .inr .quiet), ('v', .inr .verbose)].lookup letter

/-- Reads the letters behind one dash. A letter that takes a value takes the rest of them, with or
without an equal sign, or else the next argument; `true` says that the next argument is used. -/
def readLetters (c : Command) (next : Option String) : List Char → Option (Command × Bool)
  | [] => some (c, false)
  | letter :: rest =>
    match shortOption? letter with
    | none => none
    | some (.inr switch) => readLetters (c.turnOn switch) next rest
    | some (.inl setting) =>
      match rest with
      | [] => next.bind fun value => (c.set setting value).map (·, true)
      | '=' :: value => (c.set setting (String.ofList value)).map (·, false)
      | value => (c.set setting (String.ofList value)).map (·, false)

/-- Reads the name behind two dashes, with a value behind an equal sign or in the next argument. -/
def readLong (c : Command) (next : Option String) (text : List Char) : Option (Command × Bool) :=
  let name := text.takeWhile (· ≠ '=')
  match longOption? (String.ofList name), text.drop name.length with
  | some (.inr switch), [] => some (c.turnOn switch, false)
  | some (.inl setting), [] => next.bind fun value => (c.set setting value).map (·, true)
  | some (.inl setting), _ :: value => (c.set setting (String.ofList value)).map (·, false)
  | _, _ => none

/-- Reads one argument; `true` says that the one behind it is its value. -/
def readArgument (c : Command) (next : Option String) (arg : String) : Option (Command × Bool) :=
  match arg.toList with
  | '-' :: '-' :: text => c.readLong next text
  | '-' :: letter :: text => c.readLetters next (letter :: text)
  | _ => none

/-- Reads the arguments that follow; `skip` says that the first of them was used as a value. Two
dashes alone end them. -/
def readFrom (c : Command) (skip : Bool) : List String → Option Command
  | [] => some c
  | arg :: args =>
    if skip then readFrom c false args
    else if arg = "--" then
      if args.isEmpty then some c else none
    else
      match c.readArgument args.head? arg with
      | none => none
      | some (c, used) => readFrom c used args

/-- The choices that arguments express; nothing if they are malformed. -/
def ofArguments? (args : List String) : Option Command :=
  readFrom {} false args

/-- The compiler options among the choices. -/
def options (c : Command) : Options :=
  { runtimeHeader := c.runtimeHeader, denyWarnings := c.denyWarnings }

/-- A text in a colour of the terminal. -/
def coloured (colour : Nat) (text : String) : String :=
  "\x1b[" ++ toString colour ++ "m" ++ text ++ "\x1b[39m"

/-- A bold text in a colour of the terminal. -/
def bold (colour : Nat) (text : String) : String :=
  "\x1b[" ++ toString colour ++ "m\x1b[1m" ++ text ++ "\x1b[39m\x1b[22m"

/-- An underlined text. -/
def underlined (text : String) : String :=
  "\x1b[4m" ++ text ++ "\x1b[24m"

/-- A line of a report without the carriage return before its end; the last one has no end. -/
def reportLines : List (List Char) → List (List Char)
  | [] => []
  | [last] => if last = [] then [] else [last]
  | line :: others => dropReturn line :: reportLines others

/-- The place of a diagnostic and the line it is about. -/
def placeReport (source : Source) (position : Position) : String :=
  let shown := reportLines (lines (source.highlight position 1).toList)
  "  " ++ coloured 34 "-->" ++ " " ++ underlined (source.describe position) ++ "\n" ++
    String.join (shown.map fun line => "  " ++ coloured 34 (String.ofList line) ++ "\n")

/-- The first line of the report of a diagnostic; nothing if it is not wanted. -/
def headline (c : Command) (d : Diagnostic) : Option String :=
  let code := (d.code.map Diagnostic.Code.label).getD ""
  match d.severity with
  | .info =>
    if c.verbose then some (bold 36 "info" ++ "[" ++ code ++ "]: " ++ d.message) else none
  | .warning =>
    if c.quiet then none else some (bold 33 "warning" ++ "[" ++ code ++ "]: " ++ d.message)
  | .error => some (bold 31 "error" ++ ": " ++ d.message)

/-- The report of a diagnostic. -/
def report (c : Command) (source : Source) (d : Diagnostic) : String :=
  match c.headline d with
  | none => ""
  | some headline =>
    headline ++ "\n" ++
      match d.position with
      | none => ""
      | some position => placeReport source position

/-- What is written for a source, with the reports on it, or the error. -/
def stage (c : Command) (source : Source) : Except CompileError (String × String) :=
  match c.emit with
  | .code => do
    let artifact ← source.compile c.options
    return (artifact.code, String.join (artifact.diagnostics.map (c.report source)))
  | .tokens => do
    let dump ← source.tokenDump
    return (dump, "")
  | .trees => do
    let dump ← source.treeDump
    return (dump, "")

/-- What is written for a source, if it could be made, and the reports on it. -/
def process (c : Command) (source : Source) : Option String × String :=
  match c.stage source with
  | .ok (text, reports) => (some text, reports)
  | .error error => (none, bold 31 "error" ++ ": " ++ error.render ++ "\n")

/-- The end of a run that fails, with the cause if there is a deeper one. -/
def failed (files : FileTree) (reports message : String) (cause : Option FileFailure) : Outcome :=
  let deeper := match cause with
    | none => ""
    | some failure => "\nCaused by:\n    " ++ failure.message ++ "\n"
  { status := 1, errors := reports ++ "Error: " ++ message ++ "\n" ++ deeper, files }

/-- Writes a result, making the folders around it first. -/
def save (files : FileTree) (text content : String) :
    Except (String × FileFailure) FileTree := do
  let parent := parentText text
  let files ←
    if parent = "" then .ok files
    else
      (files.makeFolder parent).mapError
        ("failed to create directory " ++ Text.quoted '"' parent.toList, ·)
  (files.write text content).mapError ("failed to write output file " ++ text, ·)

/-- Writes results one after another; the first failure ends the run. -/
def saveAll (reports : String) (files : FileTree) : List (String × String) → Outcome
  | [] => { status := 0, errors := reports, files }
  | (text, content) :: others =>
    match save files text content with
    | .error (message, cause) => failed files reports message (some cause)
    | .ok files => saveAll reports files others

/-- The texts of the paths of all sources below a directory, in the order of a walk. -/
def sourcesUnder (files : FileTree) (directory : String) : List String :=
  let folder := if directory.toList.getLast? = some '/' then directory else directory ++ "/"
  let isSource (path : Path) : Bool :=
    (path.getLast?.bind fun name => (splitExtension name).2) = some "spr"
  ((files.below (Path.ofText directory)).filter isSource).map fun path => folder ++ path.render

/-- The results for several sources, read and processed in order: the paths to write with their
contents, the number of sources that failed, and all reports. A source that cannot be read ends the
run; the reports of the ones before it have been printed by then, so they stay. -/
def processAll (c : Command) (files : FileTree) :
    List String → Except (String × String × FileFailure) (List (String × String) × Nat × String)
  | [] => .ok ([], 0, "")
  | text :: others =>
    match files.read text with
    | .error failure => .error ("", "failed to read input file " ++ text, failure)
    | .ok content =>
      let (result, reports) := c.process ⟨text, content⟩
      match c.processAll files others with
      | .error (rest, message, cause) => .error (reports ++ rest, message, cause)
      | .ok (outputs, failures, rest) =>
        match result with
        | some code =>
          .ok ((withExtension text c.emit.extension, code) :: outputs, failures, reports ++ rest)
        | none => .ok (outputs, failures + 1, reports ++ rest)

/-- Runs on every source below a directory. -/
def runDirectory (c : Command) (files : FileTree) (directory : String) : Outcome :=
  if c.output.isSome then failed files "" "--output cannot be used with a directory input" none
  else
    match c.processAll files (sourcesUnder files directory) with
    | .error (reports, message, cause) => failed files reports message (some cause)
    | .ok (outputs, failures, reports) =>
      if failures = 0 then saveAll reports files outputs
      else
        failed files reports
          (toString failures ++ " file(s) failed to transpile; nothing was written") none

/-- The end of a run on a single source whose result is written to a file. -/
def runSource (c : Command) (files : FileTree) (source : Source) (output : String) : Outcome :=
  match c.process source with
  | (none, reports) => failed files reports ("failed to transpile " ++ source.name) none
  | (some text, reports) => saveAll reports files [(output, text)]

/-- Runs on a single file. -/
def runFile (c : Command) (files : FileTree) (input : String) : Outcome :=
  match files.read input with
  | .error failure => failed files "" ("failed to read input file " ++ input) (some failure)
  | .ok content =>
    c.runSource files ⟨input, content⟩
      (c.output.getD (withExtension input c.emit.extension))

/-- Runs on the standard input; without an output file the result goes to the standard output. -/
def runInput (c : Command) (files : FileTree) (content : String) : Outcome :=
  let source : Source := ⟨"<stdin>", content⟩
  match c.output with
  | some output => c.runSource files source output
  | none =>
    match c.process source with
    | (none, reports) => failed files reports ("failed to transpile " ++ source.name) none
    | (some text, reports) => { status := 0, output := text, errors := reports, files }

/-- Runs a command in a directory. -/
def run (c : Command) (files : FileTree) (standardInput : String) : Outcome :=
  match c.input with
  | none => c.runInput files standardInput
  | some input =>
    if files.hasFolder input then c.runDirectory files input else c.runFile files input

end Command

/-- Compiles the file at a path. -/
def FileTree.compile (files : FileTree) (text : String) (options : Options) :
    Except CompileError Artifact :=
  match files.read text with
  | .error failure => .error (.unreadable failure)
  | .ok content => Source.compile ⟨text, content⟩ options

end Sprout
