import Macro10.CommandLine.Arguments
import Macro10.Numeral.Basic
import Macro10.Path
import Macro10.Text.Encoding
import Macro10.Toml.Parser

/-!
# Settings

The settings of a run follow from its arguments and from a configuration file, which lies beside the
input file unless the arguments name another. The arguments have precedence over the file, and the
file over the defaults; files to include are those of both. An option that was given without a value
has precedence too, and leaves the setting open.
-/

namespace Macro10.CommandLine

structure Settings where
  input : Path
  output : Path
  /-- The files to include; one may have been given without a name. -/
  includes : List (Option Text)
  radix : Option Int
  debug : Bool
deriving DecidableEq, Repr

/-! ## Defaults -/

/-- The files that are included if the configuration names none. -/
def defaultIncludes : List Text := ["macros.inc"]

/-- The suffix of an output file. -/
def defaultExtension : Text := ".cvt.asm"

def configName : Text := "macroconv.toml"

/-! ## Configuration -/

/-- Why a configuration file cannot be used. -/
inductive ConfigFault where
  | undecodable
  | malformed
  | tooManyDigits (count : Nat)
deriving DecidableEq, Repr

/-- The characters of a text without stray bytes. -/
def chars? : Text → Option (List Char)
  | [] => some []
  | .char c :: rest => (chars? rest).map (c :: ·)
  | .stray _ :: _ => none

def readConfig (bytes : List UInt8) : Except ConfigFault Toml.Table :=
  match chars? (Text.decode bytes) with
  | none => .error .undecodable
  | some chars =>
    match Toml.parse chars with
    | .ok table => .ok table
    | .error .malformed => .error .malformed
    | .error (.tooManyDigits count) => .error (.tooManyDigits count)

def configPath (a : Arguments) (input : Path) : Path :=
  match a.config with
  | some (s :: rest) => Path.ofText (s :: rest)
  | _ => input.parent.child configName

/-! ## Precedence -/

inductive SettingsFault where
  | value (fault : ValueFault)
  /-- A value cannot be written as a text. -/
  | failure (cause : Failure)
  /-- The output file needs a suffix, and the option for it was given without one. -/
  | noExtension
deriving DecidableEq, Repr

def includesFrom (a : Arguments) (config : Toml.Table) :
    Except SettingsFault (List (Option Text)) :=
  match config.get? "includes" with
  | some (.array items) =>
    match items.mapM Toml.Value.text with
    | .ok names => .ok (names.map some ++ a.includes)
    | .error cause => .error (.failure cause)
  | _ => .ok (defaultIncludes.map some ++ a.includes)

/-- The radix of the configuration, which has to be one even if it is not used. -/
def configRadix (config : Toml.Table) : Except SettingsFault Int :=
  match config.get? "radix" with
  | some (.integer n) =>
    match Numeral.decimalText n with
    | .error cause => .error (.failure cause)
    | .ok text =>
      match readRadix text with
      | .ok radix => .ok radix
      | .error fault => .error (.value fault)
  | _ => .ok Numeral.defaultRadix

/-- The radix of a run, given that of its configuration. -/
def radixFrom (a : Arguments) (configured : Int) : Option Int :=
  match a.radix with
  | .absent => some configured
  | .empty => none
  | .value radix => some radix

def extensionFrom (a : Arguments) (config : Toml.Table) : Option Text :=
  match a.extension, config.get? "extension" with
  | .value text, _ => some text
  | .empty, _ => none
  | .absent, some (.string text) => some text
  | .absent, _ => some defaultExtension

/-- The input file with another suffix. An input file without a name can have none. -/
def derivedOutput (input : Path) : Option Text → Except SettingsFault Path
  | some extension =>
    match input.withSuffix extension with
    | .ok path => .ok path
    | .error _ => .error (.value (.badExtension extension))
  | none =>
    if input.name.isEmpty then .error (.value (.badExtension "[]")) else .error .noExtension

/-- The output file: the one that the arguments name, or the input file with another suffix. -/
def outputFrom (a : Arguments) (input : Path) (extension : Option Text) :
    Except SettingsFault Path :=
  match a.output with
  | some (s :: rest) => .ok (Path.ofText (s :: rest))
  | _ => derivedOutput input extension

def Settings.resolve (a : Arguments) (input : Path) (config : Toml.Table) :
    Except SettingsFault Settings := do
  let includes ← includesFrom a config
  let radix ← configRadix config
  let output ← outputFrom a input (extensionFrom a config)
  return { input, output, includes, radix := radixFrom a radix, debug := a.debug }

end Macro10.CommandLine
