import Macro10.CommandLine.Run

/-!
# The command

Runs the program on the files of the system.
-/

namespace Macro10.CommandLine

/-- Why the system does not open a file. -/
def fileFault (e : IO.Error) : FileFault :=
  match e with
  | .noFileOrDirectory .. => .noEntry
  | .inappropriateType _ 20 _ => .notDirectory
  | .invalidArgument _ 36 _ => .nameTooLong
  | .inappropriateType .. => .isDirectory
  | .permissionDenied .. => .denied
  | other => ⟨5, Text.ofString (toString other)⟩

/-- The bytes of a file of the system. -/
def systemRead (path : Path) : IO (Except FileFault (List UInt8)) := do
  try
    let bytes ← IO.FS.readBinFile path.text.shown
    return .ok bytes.toList
  catch e => return .error (fileFault e)

/-- Whether there is a file of the system at a path. One that may not be read is there too. -/
def systemIsFile (path : Path) : IO (Except FileFault Bool) := do
  match ← systemRead path with
  | .ok _ => return .ok true
  | .error fault =>
    if fault = .nameTooLong then return .error fault
    return .ok (fault = .denied)

def systemWrite (path : Path) (bytes : List UInt8) : IO (Option FileFault) := do
  try
    IO.FS.writeBinFile path.text.shown ⟨bytes.toArray⟩
    return none
  catch e => return some (fileFault e)

def systemDisk : Disk IO where
  isFile := systemIsFile
  read := systemRead
  write := systemWrite

/-- The code that the command ends with, and what it still has to say. -/
def exitCode : Ending → UInt32 × Text
  | .returned code | .exited code => (code.toUInt32, [])
  | .escaped escape => (1, errorLine escape.message)

end Macro10.CommandLine

open Macro10 Macro10.CommandLine in
def main (args : List String) : IO UInt32 := do
  let outcome ← run systemDisk (args.map Text.ofString)
  let (code, message) := exitCode outcome.ending
  IO.print outcome.stdout.shown
  IO.eprint (outcome.stderr ++ message : Text).shown
  return code
