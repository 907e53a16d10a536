import Macro10.Text.Quoted

/-!
# Paths

A path is a root, which is empty for a relative path, and the names that lead from there to a
file. Empty names and the name `.` are dropped when a path is read; `..` is kept. Exactly two
slashes in front are a root of their own.
-/

namespace Macro10

structure Path where
  root : Text
  parts : List Text
deriving DecidableEq, Repr

namespace Path

def splitSlashes : Text → List Text
  | [] => [[]]
  | s :: rest =>
    if s = .char '/' then [] :: splitSlashes rest
    else
      match splitSlashes rest with
      | [] => [[s]]
      | first :: others => (s :: first) :: others

/-- The root of a path that starts with the given number of slashes. -/
def rootOf : Nat → Text
  | 0 => []
  | 2 => "//"
  | _ => "/"

def ofText (text : Text) : Path :=
  { root := rootOf (text.takeWhile (· = .char '/')).length
    parts := (splitSlashes text).filter fun part => !part.isEmpty && part != [.char '.'] }

/-- The text of a path; the path without root and parts is the current directory. -/
def text (p : Path) : Text :=
  if p.root.isEmpty && p.parts.isEmpty then "."
  else p.root ++ Text.join "/" p.parts

def name (p : Path) : Text := p.parts.getLast?.getD []

/-- The directory that the path lies in; a path without names lies in itself. -/
def parent (p : Path) : Path := { p with parts := p.parts.dropLast }

/-- The path holds the character with code zero, which no name of a file has. -/
def holdsZero (p : Path) : Bool := p.parts.any fun part => part.elem (.char '\x00')

/-- The path of a name below the path. -/
def child (p : Path) (name : Text) : Path := { p with parts := p.parts ++ [name] }

/-- A name without its suffix, which is its last point with the characters after it. A point at
either end of the name starts no suffix. -/
def stem (name : Text) : Text :=
  let afterPoint := (name.reverse.takeWhile (· ≠ .char '.')).length
  let before := name.length - (afterPoint + 1)
  if name.elem (.char '.') && 0 < before && 0 < afterPoint then name.take before else name

/-- Why a path cannot get a suffix. -/
inductive SuffixError where
  /-- The suffix does not start with a point, is nothing but a point, or holds a slash. -/
  | invalidSuffix (suffix : Text)
  | emptyName (path : Path)
deriving DecidableEq, Repr

def SuffixError.message : SuffixError → Text
  | invalidSuffix suffix => "Invalid suffix " ++ Text.quoted suffix
  | emptyName path =>
    "PosixPath(" ++ Text.quoted path.text ++ ") has an empty name"

/-- The suffix can be given to a path; an empty one takes the suffix away. -/
def isSuffix (suffix : Text) : Bool :=
  match suffix with
  | [] => true
  | .char '.' :: rest => !rest.isEmpty && !rest.elem (.char '/')
  | _ => false

def withSuffix (p : Path) (suffix : Text) : Except SuffixError Path :=
  if !isSuffix suffix then .error (.invalidSuffix suffix)
  else if p.name.isEmpty then .error (.emptyName p)
  else .ok { p with parts := p.parts.dropLast ++ [stem p.name ++ suffix] }

end Path

end Macro10
