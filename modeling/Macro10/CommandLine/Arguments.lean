import Macro10.Text.Blank
import Macro10.Text.Integer
import Macro10.Text.Quoted

/-!
# Arguments of the command line

An argument that starts with a dash is an option, unless it looks like a negative number or holds a
space. After `--` there are no options. Readers of arguments do not agree on what an equals sign
among short options means, nor on `--` as a value; both ways are here (`Dialect`).

The arguments are read from left to right: the first fault counts, and a request for help ends the
reading at once. Only arguments that nothing takes are reported at the end.
-/

namespace Macro10.CommandLine

/-! ## Options -/

/-- The ways of reading arguments that are in use. -/
inductive Dialect where
  /-- An option with `--` for its value has none. An equals sign after the first of several short
  options counts for nothing, and a letter among them that names no option is a fault. -/
  | older
  /-- An option can have `--` for its value. An equals sign after a short option sets off a value,
  and a letter that names no option is left over with all that follows it. -/
  | newer
deriving DecidableEq, Repr

inductive Switch where
  | help
  | output
  | includeFile
  | radix
  | extension
  | config
  | debug
  | verbose
  | quiet
deriving DecidableEq, Repr

namespace Switch

/-- All options, in the order of their description. -/
def all : List Switch :=
  [help, output, includeFile, radix, extension, config, debug, verbose, quiet]

def long : Switch → Text
  | help => "--help"
  | output => "--output"
  | includeFile => "--include"
  | radix => "--radix"
  | extension => "--extension"
  | config => "--config"
  | debug => "--debug"
  | verbose => "--verbose"
  | quiet => "--quiet"

/-- The letter of the short form. -/
def letter? : Switch → Option Char
  | help => some 'h'
  | output => some 'o'
  | includeFile => some 'I'
  | verbose => some 'v'
  | quiet => some 'q'
  | _ => none

def takesValue : Switch → Bool
  | output | includeFile | radix | extension | config => true
  | _ => false

def title (switch : Switch) : Text :=
  match switch.letter? with
  | some letter => .char '-' :: .char letter :: .char '/' :: switch.long
  | none => switch.long

def ofLetter? (s : Symbol) : Option Switch :=
  all.find? fun switch => switch.letter?.map Symbol.char = some s

end Switch

/-! ## Faults -/

/-- What is wrong with a value that was given for a setting. -/
inductive ValueFault where
  | notAnInteger (text : Text)
  | radixOutOfRange (text : Text)
  | badExtension (text : Text)
deriving DecidableEq, Repr

def ValueFault.message : ValueFault → Text
  | notAnInteger text => "invalid radix (expected an integer): " ++ text
  | radixOutOfRange text => "radix out of range (expected 2..36): " ++ text
  | badExtension text =>
    "invalid extension (expected a suffix like .asm): " ++ text

def readRadix (text : Text) : Except ValueFault Int :=
  match Text.integer? text with
  | none => .error (.notAnInteger text)
  | some n => if 2 ≤ n && n ≤ 36 then .ok n else .error (.radixOutOfRange text)

inductive UsageFault where
  | ambiguous (argument : Text) (candidates : List Switch)
  | expectedValue (switch : Switch)
  | ignoredValue (switch : Switch) (value : Text)
  | conflict (switch other : Switch)
  | badValue (switch : Switch) (fault : ValueFault)
  | unrecognized (arguments : List Text)
deriving DecidableEq, Repr

namespace UsageFault

def about (switch : Switch) (message : Text) : Text :=
  "argument " ++ switch.title ++ ": " ++ message

def message : UsageFault → Text
  | ambiguous argument candidates =>
    "ambiguous option: " ++ argument ++ " could match " ++
      Text.join ", " (candidates.map Switch.long)
  | expectedValue switch => about switch "expected one argument"
  | ignoredValue switch value =>
    about switch ("ignored explicit argument " ++ Text.quoted value)
  | conflict switch other =>
    about switch ("not allowed with argument " ++ other.title)
  | badValue switch fault => about switch fault.message
  | unrecognized arguments =>
    "unrecognized arguments: " ++ Text.join " " arguments

end UsageFault

/-! ## Classes of arguments -/

/-- The mark after which there are no options. -/
def endMark : Text := "--"

inductive Argument where
  /-- A name of a file, or a value. -/
  | plain (text : Text)
  /-- An option in its long or short form, with what else stands in the same argument. -/
  | option (switch : Switch) (short : Bool) (attached : Option Text)
  | unknown (text : Text)
deriving DecidableEq, Repr

/-- The text before the first equals sign, and the text after it if there is one. -/
def splitEquals (text : Text) : Text × Option Text :=
  match text.dropWhile (· ≠ .char '=') with
  | [] => (text, none)
  | _ :: value => (text.takeWhile (· ≠ .char '='), some value)

/-- Digits, then the end, which may come after a line feed. -/
def endsAfterDigits (text : Text) : Bool :=
  match text.dropWhile fun s => (Text.decimalValue? s).isSome with
  | [] | [.char '\n'] => true
  | _ => false

def startsWithDigit : Text → Bool
  | s :: _ => (Text.decimalValue? s).isSome
  | [] => false

def looksNegative : Text → Bool
  | .char '-' :: rest =>
    (startsWithDigit rest && endsAfterDigits rest) ||
      match rest.dropWhile fun s => (Text.decimalValue? s).isSome with
      | .char '.' :: fraction => startsWithDigit fraction && endsAfterDigits fraction
      | _ => false
  | _ => false

/-- An argument with a dash in front that names no option. -/
def classifyOther (text : Text) : Argument :=
  if looksNegative text || text.elem (.char ' ') then .plain text else .unknown text

/-- An argument with two dashes in front. -/
def classifyLong (text : Text) : Except UsageFault Argument :=
  let (name, attached) := splitEquals text
  match Switch.all.find? fun switch => switch.long = name with
  | some switch => .ok (.option switch false attached)
  | none =>
    match Switch.all.filter fun switch => name.isPrefixOf switch.long with
    | [] => .ok (classifyOther text)
    | [switch] => .ok (.option switch false attached)
    | candidates => .error (.ambiguous text candidates)

/-- An argument with one dash in front, of which `rest` is what follows the dash. -/
def classifyShort (text : Text) (rest : Text) : Argument :=
  match rest with
  | [] => .plain text
  | letter :: value =>
    match Switch.ofLetter? letter with
    | none => classifyOther text
    | some switch => .option switch true (if value.isEmpty then none else some value)

def classify (text : Text) : Except UsageFault Argument :=
  match text with
  | .char '-' :: .char '-' :: _ => classifyLong text
  | .char '-' :: rest => .ok (classifyShort text rest)
  | _ => .ok (.plain text)

/-- The arguments, those before `--` by class, and those after it if it is there. -/
structure Classified where
  before : List Argument
  after : Option (List Text)
deriving DecidableEq, Repr

def classifyAll : List Text → Except UsageFault Classified
  | [] => .ok ⟨[], none⟩
  | text :: rest =>
    if text = endMark then .ok ⟨[], some rest⟩
    else do
      let argument ← classify text
      let others ← classifyAll rest
      return { others with before := argument :: others.before }

/-! ## Reading -/

inductive Given (α : Type) where
  | absent
  | empty
  | value (a : α)
deriving DecidableEq, Repr

/-- What the arguments say. An output or configuration file without a name is as good as none;
a file to include that was given without a name keeps its place. -/
structure Arguments where
  input : Option Text := none
  output : Option Text := none
  includes : List (Option Text) := []
  radix : Given Int := .absent
  extension : Given Text := .absent
  config : Option Text := none
  debug : Bool := false
  verbose : Bool := false
  quiet : Bool := false
deriving DecidableEq, Repr

inductive Interrupt where
  | help
  | fault (fault : UsageFault)
deriving DecidableEq, Repr

/-- The arguments read so far, and those that nothing took. -/
structure Progress where
  arguments : Arguments := {}
  /-- The last argument was taken as the name of the input file. -/
  nameIsLast : Bool := false
  leftOver : List Text := []
deriving DecidableEq, Repr

def Progress.leave (p : Progress) (texts : List Text) : Progress :=
  { p with nameIsLast := false, leftOver := p.leftOver ++ texts }

/-- A value as it was written; for an older reader the mark `--` is none. -/
def written? (dialect : Dialect) (text : Text) : Option Text :=
  if dialect = .older && text = endMark then none else some text

def apply (dialect : Dialect) (a : Arguments) (switch : Switch) (value : Text) :
    Except Interrupt Arguments :=
  match switch with
  | .help => .error .help
  | .output => .ok { a with output := written? dialect value }
  | .includeFile => .ok { a with includes := a.includes ++ [written? dialect value] }
  | .radix =>
    match written? dialect value with
    | none => .ok { a with radix := .empty }
    | some text =>
      match readRadix text with
      | .ok radix => .ok { a with radix := .value radix }
      | .error fault => .error (.fault (.badValue switch fault))
  | .extension =>
    match written? dialect value with
    | none => .ok { a with extension := .empty }
    | some text => .ok { a with extension := .value text }
  | .config => .ok { a with config := written? dialect value }
  | .debug => .ok { a with debug := true }
  | .verbose =>
    if a.quiet then .error (.fault (.conflict .verbose .quiet)) else .ok { a with verbose := true }
  | .quiet =>
    if a.verbose then .error (.fault (.conflict .quiet .verbose)) else .ok { a with quiet := true }

def applyAll (dialect : Dialect) (a : Arguments) :
    List (Switch × Text) → Except Interrupt Arguments
  | [] => .ok a
  | (switch, value) :: rest => do
    let a ← apply dialect a switch value
    applyAll dialect a rest

/-- What an argument with one or more options asks for. -/
structure Request where
  /-- The options that are complete, with their values. -/
  complete : List (Switch × Text) := []
  /-- The last option, if its value is the next argument. -/
  waiting : Option Switch := none
  leftOver : List Text := []
deriving DecidableEq, Repr

def Request.cons (switch : Switch) (r : Request) : Request :=
  { r with complete := (switch, []) :: r.complete }

def Request.single (switch : Switch) : Request :=
  if switch.takesValue then { waiting := some switch } else { complete := [(switch, [])] }

/-- What comes after an equals sign, if there is one in front. -/
def afterEquals : Text → Text
  | .char '=' :: value => value
  | text => text

/-- The options that directly follow the short option `switch` in its argument. -/
def expandJoined (dialect : Dialect) (switch : Switch) : Text → Except UsageFault Request
  | [] => .ok (.single switch)
  | s :: rest =>
    if switch.takesValue then
      let value := if dialect = .newer then afterEquals (s :: rest) else s :: rest
      .ok { complete := [(switch, value)] }
    else if dialect = .newer && s = .char '=' then .error (.ignoredValue switch rest)
    else if dialect = .newer && s = .char '-' then .error (.ignoredValue switch (s :: rest))
    else
      match Switch.ofLetter? s, dialect with
      | some next, _ => (expandJoined dialect next rest).map (Request.cons switch)
      | none, .older => .error (.ignoredValue switch (s :: rest))
      | none, .newer =>
        .ok { complete := [(switch, [])], leftOver := [.char '-' :: s :: rest] }

def expandShort (dialect : Dialect) (switch : Switch) (attached : Text) :
    Except UsageFault Request :=
  if switch.takesValue then .ok { complete := [(switch, afterEquals attached)] }
  else
    match dialect, afterEquals attached with
    | .newer, _ => expandJoined dialect switch attached
    | .older, [] => .error (.ignoredValue switch [])
    | .older, joined => expandJoined dialect switch joined

def expand (dialect : Dialect) (switch : Switch) (short : Bool) :
    Option Text → Except UsageFault Request
  | none => .ok (.single switch)
  | some attached =>
    if short then expandShort dialect switch attached
    else if switch.takesValue then .ok { complete := [(switch, attached)] }
    else .error (.ignoredValue switch attached)

/-- Takes the name of the input file, if there is none yet. -/
def Progress.takePlain (p : Progress) (text : Text) : Progress :=
  if p.arguments.input.isSome then p.leave [text]
  else { p with arguments := { p.arguments with input := some text }, nameIsLast := true }

def Progress.take (p : Progress) (dialect : Dialect) (r : Request) :
    Except Interrupt Progress := do
  let arguments ← applyAll dialect p.arguments r.complete
  return { p.leave r.leftOver with arguments }

def readBefore (dialect : Dialect) (p : Progress) : List Argument → Except Interrupt Progress
  | [] => .ok p
  | .plain text :: rest => readBefore dialect (p.takePlain text) rest
  | .unknown text :: rest => readBefore dialect (p.leave [text]) rest
  | .option switch short attached :: rest =>
    match expand dialect switch short attached with
    | .error fault => .error (.fault fault)
    | .ok request =>
      match request.waiting, rest with
      | none, rest => do
        let p ← p.take dialect request
        readBefore dialect p rest
      | some last, .plain value :: rest => do
        let p ← p.take dialect { request with complete := request.complete ++ [(last, value)] }
        readBefore dialect p rest
      | some last, _ => .error (.fault (.expectedValue last))

/-- Reads `--` and the arguments after it, of which the first can be the name of the input file.
The mark itself goes with the name that stands directly before or after it; otherwise it is left
over too. -/
def readAfter (p : Progress) (texts : List Text) : Progress :=
  if p.nameIsLast then p.leave texts
  else if p.arguments.input.isSome then p.leave (endMark :: texts)
  else
    match texts with
    | [] => p
    | text :: rest => (p.takePlain text).leave rest

def Arguments.parse (texts : List Text) (dialect : Dialect := .older) :
    Except Interrupt Arguments := do
  match classifyAll texts with
  | .error fault => .error (.fault fault)
  | .ok classified =>
    let p ← readBefore dialect {} classified.before
    let p := match classified.after with
      | none => p
      | some after => readAfter p after
    if p.leftOver.isEmpty then return p.arguments
    else .error (.fault (.unrecognized p.leftOver))

end Macro10.CommandLine
