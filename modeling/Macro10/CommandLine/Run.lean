import Macro10.CommandLine.Files
import Macro10.CommandLine.Settings
import Macro10.Conversion
import Macro10.Document.Outline

/-!
# A run of the program

A run reads the arguments, finds the settings, and converts one file. It ends with a code, and
its output and its messages are texts. Files are reached through a `Disk` only, and the last
thing that a run does before its warnings is to write the one output file.
-/

namespace Macro10.CommandLine

/-! ## Texts -/

/-- How the program is called. -/
def usage : Text := Text.ofString <|
  "usage: macroconv [-h] [-o OUTPUT] [-I FILE] [--radix N] [--extension EXT]\n" ++
  "                 [--config FILE] [--debug] [-v | -q]\n" ++
  "                 [input]\n"

/-- What the program does, and its options. -/
def help : Text := usage ++ Text.ofString (
  "\n" ++
  "Convert MACRO-10 assembler source to ca65 syntax\n" ++
  "\n" ++
  "positional arguments:\n" ++
  "  input                 Input source file\n" ++
  "\n" ++
  "options:\n" ++
  "  -h, --help            show this help message and exit\n" ++
  "  -o OUTPUT, --output OUTPUT\n" ++
  "                        Output file (default: input with its extension\n" ++
  "                        replaced by .cvt.asm)\n" ++
  "  -I FILE, --include FILE\n" ++
  "                        Include file to reference at the top of the output\n" ++
  "                        (repeatable)\n" ++
  "  --radix N             Initial radix for bare numerals (default: 8)\n" ++
  "  --extension EXT       Extension of the derived output file (default:\n" ++
  "                        .cvt.asm)\n" ++
  "  --config FILE         Config file (default: auto-discover macroconv.toml)\n" ++
  "  --debug               Dump the token tree to stderr\n" ++
  "  -v, --verbose         Log progress\n" ++
  "  -q, --quiet           Only log errors\n")

def messageLine (text : Text) : Text := text ++ "\n"

def errorLine (text : Text) : Text := messageLine ("error: " ++ text)

/-! ## Outcomes -/

inductive Escape where
  | failure (cause : Failure)
  | undecodableConfig
  /-- The output file needs a suffix, and the option for it was given without one. -/
  | noExtension
  /-- The file to include at this place of the list was given without a name. -/
  | unnamedInclude (place : Nat)
  | zeroInPath
  /-- The system refuses to say whether there is a file, or to read the configuration. -/
  | refused (fault : FileFault) (path : Path)
deriving DecidableEq, Repr

def Escape.message : Escape → Text
  | failure cause => cause.message
  | undecodableConfig => "the config file is not in UTF-8"
  | noExtension => "can only concatenate str (not \"list\") to str"
  | unnamedInclude place =>
    "sequence item " ++ Text.ofNat place ++
      ": expected str instance, list found"
  | zeroInPath => "embedded null byte"
  | refused fault path => fault.message path

inductive Ending where
  /-- The run was carried out; the code says how. -/
  | returned (code : Nat)
  /-- The arguments asked for help, or could not be read. -/
  | exited (code : Nat)
  | escaped (escape : Escape)
deriving DecidableEq, Repr

/-- What can be seen of a run, files apart. -/
structure Outcome where
  ending : Ending
  stdout : Text := []
  stderr : Text := []
deriving DecidableEq, Repr

/-! ## The conversion of a file -/

/-- How much the program tells. -/
inductive Verbosity where
  | quiet
  | normal
  | verbose
deriving DecidableEq, Repr

def Arguments.verbosity (a : Arguments) : Verbosity :=
  if a.verbose then .verbose else if a.quiet then .quiet else .normal

def progressLine (verbosity : Verbosity) (text : Text) : Text :=
  if verbosity = .verbose then messageLine ("DEBUG: " ++ text) else []

def radixLines (verbosity : Verbosity) (changes : List RadixChange) : Text :=
  changes.flatMap fun change =>
    progressLine verbosity ("line " ++ Text.ofNat change.line ++
      ": radix set to " ++ Text.ofInt change.radix)

def writingLine (verbosity : Verbosity) (output : Path) (includes : List Text) : Text :=
  progressLine verbosity ("writing " ++ output.text ++
    " (includes: " ++ Text.join ", " includes ++
    ")")

/-- The names of the files to include, the first of which is at the given place of the list. -/
def includeNames (place : Nat) : List (Option Text) → Except Escape (List Text)
  | [] => .ok []
  | none :: _ => .error (.unnamedInclude place)
  | some name :: rest => (includeNames (place + 1) rest).map (name :: ·)

def warningLines (verbosity : Verbosity) (settings : Settings) (source : Text)
    (diagnostics : List Diagnostic) : Text :=
  if verbosity = .quiet then []
  else diagnostics.flatMap fun d =>
    messageLine ("WARNING: " ++ d.report source settings.input.text)

structure Prepared where
  messages : Text
  output : Text
  warnings : Text
deriving DecidableEq, Repr

/-- Converts a source. If that breaks off, the messages so far are kept. -/
def prepare (verbosity : Verbosity) (settings : Settings) (source : Text) :
    Except (Escape × Text) Prepared := do
  let reading ← (Reading.ofSource source settings.radix).mapError fun interruption =>
    (.failure interruption.cause, radixLines verbosity interruption.changes)
  let messages := radixLines verbosity reading.changes
  let d ← reading.document.converted.mapError fun cause => (.failure cause, messages)
  let outline ← (if settings.debug then d.outline else .ok []).mapError fun cause =>
    (.failure cause, messages)
  let messages := messages ++ outline
  let names ← (includeNames 0 settings.includes).mapError fun escape => (escape, messages)
  let messages := messages ++ writingLine verbosity settings.output names
  let output ← (d.renderWithIncludes names).mapError fun cause => (.failure cause, messages)
  return { messages, output,
           warnings := warningLines verbosity settings source d.diagnostics }

variable {m : Type → Type} [Monad m]

def convertFile (disk : Disk m) (verbosity : Verbosity) (settings : Settings) : m Outcome := do
  match ← disk.read settings.input with
  | .error fault =>
    return { ending := .returned 2, stderr := errorLine (fault.message settings.input) }
  | .ok bytes =>
    match prepare verbosity settings (Text.decode bytes) with
    | .error (escape, messages) => return { ending := .escaped escape, stderr := messages }
    | .ok prepared =>
      if settings.output.holdsZero then
        return { ending := .escaped .zeroInPath, stderr := prepared.messages }
      match ← disk.write settings.output (Text.encode prepared.output) with
      | none => return { ending := .returned 0, stderr := prepared.messages ++ prepared.warnings }
      | some fault =>
        let message := fault.message settings.output
        return { ending := .returned 2, stderr := prepared.messages ++ errorLine message }

/-! ## The run -/

def hasFile (disk : Disk m) (path : Path) : m (Except Escape Bool) := do
  if path.holdsZero then return .ok false
  return (← disk.isFile path).mapError fun fault => .refused fault path

/-- The configuration of a run, or why there is none; a file that is not there is an empty
one. -/
def loadConfig (disk : Disk m) (path : Path) :
    m (Except Escape (Except ConfigFault Toml.Table)) := do
  match ← hasFile disk path with
  | .error escape => return .error escape
  | .ok false => return .ok (.ok [])
  | .ok true =>
    return match ← disk.read path with
      | .error fault => .error (.refused fault path)
      | .ok bytes => .ok (readConfig bytes)

/-- The settings of a run, or how it ends without any. -/
def settingsOf (a : Arguments) (input : Path) (config : Except ConfigFault Toml.Table) :
    Except Outcome Settings :=
  match config with
  | .error .undecodable => .error { ending := .escaped .undecodableConfig }
  | .error .malformed => .error { ending := .returned 2, stderr := errorLine "invalid config:" }
  | .error (.tooManyDigits count) =>
    .error { ending := .escaped (.failure (.tooManyDigits count)) }
  | .ok table =>
    match Settings.resolve a input table with
    | .ok settings => .ok settings
    | .error (.value fault) => .error { ending := .returned 2, stderr := errorLine fault.message }
    | .error (.failure cause) => .error { ending := .escaped (.failure cause) }
    | .error .noExtension => .error { ending := .escaped .noExtension }

/-- The run for an input file. -/
def runInput (disk : Disk m) (a : Arguments) (input : Text) : m Outcome := do
  let path := Path.ofText input
  match ← hasFile disk path with
  | .error escape => return { ending := .escaped escape }
  | .ok false =>
    return { ending := .returned 1
             stderr := errorLine ("file '" ++ input ++ "' not found") }
  | .ok true =>
    match ← loadConfig disk (configPath a path) with
    | .error escape => return { ending := .escaped escape }
    | .ok config =>
      match settingsOf a path config with
      | .error outcome => return outcome
      | .ok settings => convertFile disk a.verbosity settings

def run (disk : Disk m) (texts : List Text) (dialect : Dialect := .older) : m Outcome :=
  match Arguments.parse texts dialect with
  | .error .help => pure { ending := .exited 0, stdout := help }
  | .error (.fault fault) =>
    pure { ending := .exited 2
           stderr := usage ++ messageLine ("macroconv: error: " ++ fault.message) }
  | .ok a =>
    match a.input with
    | none => pure { ending := .returned 0, stdout := help }
    | some input => runInput disk a input

end Macro10.CommandLine
