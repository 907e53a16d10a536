import Macro10.Path
import Macro10.Text.Encoding

/-!
# Files

What the program needs of a file system: whether a path is a file, its bytes, and to write them.
Each of these can be refused. `Disk` says so for any way to reach files; `Files` is a small
directory tree in memory, with the same rules for names, that serves as one.
-/

namespace Macro10.CommandLine

/-- Why a file cannot be reached: the code of the system and its words. -/
structure FileFault where
  code : Nat
  reason : Text
deriving DecidableEq, Repr

namespace FileFault

def noEntry : FileFault := ⟨2, "No such file or directory"⟩

def notDirectory : FileFault := ⟨20, "Not a directory"⟩

def isDirectory : FileFault := ⟨21, "Is a directory"⟩

def denied : FileFault := ⟨13, "Permission denied"⟩

def nameTooLong : FileFault := ⟨36, "File name too long"⟩

def message (fault : FileFault) (path : Path) : Text :=
  "[Errno " ++ Text.ofString (toString fault.code) ++ "] " ++
    fault.reason ++ ": " ++ Text.quoted path.text

end FileFault

structure Disk (m : Type → Type) where
  /-- Whether there is a file at a path; the question may be refused. -/
  isFile : Path → m (Except FileFault Bool)
  /-- The bytes of a file, or why they cannot be read; a file can be there for all that. -/
  read : Path → m (Except FileFault (List UInt8))
  /-- Writes a file, or says why it cannot be written; then nothing has changed. -/
  write : Path → List UInt8 → m (Option FileFault)

/-! ## Files in memory -/

inductive Entry where
  | file (bytes : List UInt8)
  | directory
deriving DecidableEq, Repr

/-- The place of an entry: the names that lead to it from the current directory. Only at the
front can there be `..`, for the directories above. -/
abbrev Place := List Text

/-- The entries that are known, each with its place. -/
abbrev Files := List (Place × Entry)

namespace Files

def up : Text := ".."

/-- The place is the current directory or one above it. -/
def isAbove (place : Place) : Bool := place.all (· = up)

def isBelow : Place → Bool
  | [] => false
  | name :: _ => name ≠ up

def nameLimit : Nat := 255

def pathLimit : Nat := 4095

def lookup? (files : Files) (place : Place) : Option Entry :=
  if isAbove place then some .directory else files.lookup place

/-- One name further from a place, which has to be a directory. -/
def step (files : Files) (here : Place) (name : Text) : Except FileFault Place :=
  match files.lookup? here with
  | none => .error .noEntry
  | some (.file _) => .error .notDirectory
  | some .directory =>
    if name = up then .ok (if isAbove here then here ++ [up] else here.dropLast)
    else if nameLimit < (Text.encode name).length then .error .nameTooLong
    else .ok (here ++ [name])

def walk (files : Files) (here : Place) : List Text → Except FileFault Place
  | [] => .ok here
  | name :: rest => do
    let next ← files.step here name
    files.walk next rest

/-- The place of a path; there are no absolute paths. -/
def place (files : Files) (path : Path) : Except FileFault Place :=
  if pathLimit < (Text.encode path.text).length then .error .nameTooLong
  else if path.root.isEmpty then files.walk [] path.parts
  else .error .noEntry

def bytes? (files : Files) (path : Path) : Option (List UInt8) :=
  match files.place path with
  | .error _ => none
  | .ok place =>
    match files.lookup? place with
    | some (.file bytes) => some bytes
    | _ => none

/-- Reads a file, which has to be outside the `locked` places. -/
def read (files : Files) (locked : Place → Bool) (path : Path) :
    Except FileFault (List UInt8) := do
  let place ← files.place path
  match files.lookup? place with
  | none => .error .noEntry
  | some .directory => .error .isDirectory
  | some (.file bytes) => if locked place then .error .denied else return bytes

/-- Whether there is a file at a path. A path that leads nowhere has none; one that is too long
is refused. -/
def isFile (files : Files) (path : Path) : Except FileFault Bool :=
  match files.place path with
  | .error fault => if fault = .nameTooLong then .error fault else .ok false
  | .ok _ => .ok (files.bytes? path).isSome

def put (files : Files) (place : Place) (bytes : List UInt8) : Files :=
  if (files.lookup place).isSome then
    files.map fun item => if item.1 = place then (place, .file bytes) else item
  else files ++ [(place, .file bytes)]

def write (files : Files) (path : Path) (bytes : List UInt8) : Except FileFault Files := do
  let place ← files.place path
  match files.lookup? place with
  | some .directory => .error .isDirectory
  | _ => return files.put place bytes

/-- Puts the directories on the way to a place where they are missing. -/
def makeParents (files : Files) (place : Place) : Files :=
  (List.range (place.length - 1)).foldl
    (fun files n =>
      let parent := place.take (n + 1)
      if (files.lookup parent).isSome then files else files ++ [(parent, .directory)])
    files

/-- Adds an entry with the directories on the way to it. -/
def add (files : Files) (path : Path) (entry : Entry) : Files :=
  files.makeParents path.parts ++ [(path.parts, entry)]

/-- The files as a disk, on which those at the `locked` places may not be read. -/
def lockedDisk (locked : Place → Bool) : Disk (StateM Files) where
  isFile path := return (← get).isFile path
  read path := return (← get).read locked path
  write path bytes := do
    match (← get).write path bytes with
    | .ok files =>
      set files
      return none
    | .error fault => return some fault

def disk : Disk (StateM Files) := lockedDisk fun _ => false

end Files

end Macro10.CommandLine
