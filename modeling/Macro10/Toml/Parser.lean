import Macro10.Toml.Scalar

/-!
# Configuration files

A file in TOML is a list of statements: a key with its value, or the header of a table or of an
element of an array of tables. Two kinds of marks forbid later statements: nothing can be added
below a *closed* path, which was given a value in one piece, and a *declared* path, which has had
its header or was made by a dotted key, can have no header. The paths that dotted keys make are
marked only when the next header comes.
-/

namespace Macro10.Toml

/-- A dotted key. -/
abbrev KeyPath := List Text

/-! ## Keys -/

/-- The character can stand in a key without quotes. -/
def isBare (c : Char) : Bool :=
  isDecimal c || ('a' ≤ c && c ≤ 'z') || ('A' ≤ c && c ≤ 'Z') || c = '-' || c = '_'

def keyPart (chars : List Char) : Except Fault (Text × List Char) :=
  match chars with
  | '\'' :: rest => literalString rest
  | '"' :: rest => basicString false .nothing rest
  | _ =>
    let word := chars.takeWhile isBare
    if word.isEmpty then .error .malformed else .ok (textOf word, chars.dropWhile isBare)

/-- The rest of a key after a part, and the blanks after it. -/
def moreKey : Nat → List Char → Except Fault (KeyPath × List Char)
  | 0, _ => .error .malformed
  | fuel + 1, chars =>
    match skipGaps chars with
    | '.' :: rest => do
      let (part, rest) ← keyPart (skipGaps rest)
      let (parts, rest) ← moreKey fuel rest
      return (part :: parts, rest)
    | rest => .ok ([], rest)

def key (chars : List Char) : Except Fault (KeyPath × List Char) := do
  let (part, rest) ← keyPart chars
  let (parts, rest) ← moreKey (rest.length + 1) rest
  return (part :: parts, rest)

/-! ## Tables -/

/-- Changes the value of a key that the table has. -/
def replaceEntry (name : Text) (value : Value) (t : Table) : Table :=
  t.map fun entry => if entry.1 = name then (name, value) else entry

/-- Changes the table at a path, which is made where it is missing. An array on the way stands
for its last element if `throughArrays` allows it; any other value on the way is a fault. -/
def modifyAt (throughArrays : Bool) (change : Table → Option Table) :
    KeyPath → Table → Option Table
  | [], t => change t
  | name :: path, t =>
    match t.lookup name with
    | none => (modifyAt throughArrays change path []).map fun inner => t ++ [(name, .table inner)]
    | some (.table inner) =>
      (modifyAt throughArrays change path inner).map fun inner =>
        replaceEntry name (.table inner) t
    | some (.array items) =>
      match throughArrays, items.getLast? with
      | true, some (.table inner) =>
        (modifyAt throughArrays change path inner).map fun inner =>
          replaceEntry name (.array (items.dropLast ++ [.table inner])) t
      | _, _ => none
    | some _ => none

/-- Gives a key a value, unless the table has the key. -/
def insertNew (name : Text) (value : Value) (t : Table) : Option Table :=
  if (t.lookup name).isSome then none else some (t ++ [(name, value)])

/-- Puts an empty table at the end of an array of tables. -/
def appendTable (name : Text) (t : Table) : Option Table :=
  match t.lookup name with
  | none => some (t ++ [(name, .array [.table []])])
  | some (.array items) => some (replaceEntry name (.array (items ++ [.table []])) t)
  | some _ => none

/-- The value holds other values. -/
def isCollection : Value → Bool
  | .array _ | .table _ => true
  | _ => false

/-- One of the paths starts the given path, or is it. -/
def isBelow (closed : List KeyPath) (path : KeyPath) : Bool := closed.any fun p => p.isPrefixOf path

/-! ## Values -/

/-- Skips blanks, line ends and comments. -/
def skipTrivia (inComment : Bool) : List Char → Except Fault (List Char)
  | [] => .ok []
  | c :: rest =>
    if inComment then
      if c = '\n' then skipTrivia false rest
      else if isForbidden c then .error .malformed
      else skipTrivia true rest
    else if isGap c || c = '\n' then skipTrivia false rest
    else if c = '#' then skipTrivia true rest
    else .ok (c :: rest)

/-- The rest of an array; `item` reads a value. -/
def arrayItems (item : List Char → Except Fault (Value × List Char)) :
    Nat → List Char → Except Fault (List Value × List Char)
  | 0, _ => .error .malformed
  | fuel + 1, chars => do
    match ← skipTrivia false chars with
    | ']' :: rest => return ([], rest)
    | start =>
      let (value, rest) ← item start
      match ← skipTrivia false rest with
      | ',' :: rest =>
        let (values, rest) ← arrayItems item fuel rest
        return (value :: values, rest)
      | ']' :: rest => return ([value], rest)
      | _ => .error .malformed

/-- A key, an equals sign and a value; `item` reads a value. -/
def keyValue (item : List Char → Except Fault (Value × List Char)) (chars : List Char) :
    Except Fault ((KeyPath × Value) × List Char) := do
  match ← key chars with
  | (path, '=' :: rest) =>
    let (value, rest) ← item (skipGaps rest)
    return ((path, value), rest)
  | _ => .error .malformed

/-- The rest of a table in braces, which has at least one more entry. -/
def inlineEntries (item : List Char → Except Fault (Value × List Char)) :
    Nat → Table → List KeyPath → List Char → Except Fault (Table × List Char)
  | 0, _, _, _ => .error .malformed
  | fuel + 1, t, closed, chars => do
    let ((path, value), rest) ← keyValue item chars
    if isBelow closed path then .error .malformed
    match modifyAt false (insertNew (path.getLast?.getD []) value) path.dropLast t with
    | none => .error .malformed
    | some t =>
      match skipGaps rest with
      | '\x7d' :: rest => return (t, rest)
      | ',' :: rest =>
        inlineEntries item fuel t (if isCollection value then path :: closed else closed)
          (skipGaps rest)
      | _ => .error .malformed

/-- A value, with values nested less deeply than `fuel`. -/
def value : Nat → List Char → Except Fault (Value × List Char)
  | 0, _ => .error .malformed
  | fuel + 1, chars =>
    match chars with
    | '[' :: rest =>
      (arrayItems (value fuel) (rest.length + 1) rest).map fun (items, rest) => (.array items, rest)
    | '\x7b' :: rest =>
      match skipGaps rest with
      | '\x7d' :: rest => .ok (.table [], rest)
      | start =>
        (inlineEntries (value fuel) (start.length + 1) [] [] start).map fun (t, rest) =>
          (.table t, rest)
    | _ => scalar chars

/-! ## Statements -/

/-- What a file has defined so far. -/
structure State where
  root : Table := []
  /-- The table that keys go to. -/
  header : KeyPath := []
  closed : List KeyPath := []
  declared : List KeyPath := []
  /-- Paths that become declared with the next header. -/
  pending : List KeyPath := []
deriving Repr

namespace State

/-- Gives a value to a key below the current header. -/
def define (s : State) (path : KeyPath) (value : Value) : Except Fault State := do
  let containers := (List.range (path.length - 1)).map fun n => s.header ++ path.take (n + 1)
  if containers.any fun p => s.declared.elem p then .error .malformed
  let parent := s.header ++ path.dropLast
  if isBelow s.closed parent then .error .malformed
  match modifyAt true (insertNew (path.getLast?.getD []) value) parent s.root with
  | none => .error .malformed
  | some root =>
    return { s with
      root
      pending := s.pending ++ containers
      closed := if isCollection value then (s.header ++ path) :: s.closed else s.closed }

/-- The pending paths are declared. -/
def settle (s : State) : State := { s with declared := s.pending ++ s.declared, pending := [] }

def openTable (s : State) (path : KeyPath) : Except Fault State :=
  if s.declared.elem path || isBelow s.closed path then .error .malformed
  else
    match modifyAt true some path s.root with
    | none => .error .malformed
    | some root => .ok { s with root, header := path, declared := path :: s.declared }

/-- The header of an element of an array of tables, below which everything is new. -/
def openElement (s : State) (path : KeyPath) : Except Fault State :=
  if isBelow s.closed path then .error .malformed
  else
    match modifyAt true (appendTable (path.getLast?.getD [])) path.dropLast s.root with
    | none => .error .malformed
    | some root =>
      .ok { s with
        root
        header := path
        closed := s.closed.filter fun p => !path.isPrefixOf p
        declared := path :: s.declared.filter fun p => !path.isPrefixOf p }

/-- A statement that starts with a bracket. -/
def readHeader (s : State) (chars : List Char) : Except Fault (State × List Char) := do
  let s := s.settle
  match chars with
  | '[' :: rest =>
    let (path, rest) ← key (skipGaps rest)
    let s ← s.openElement path
    match rest with
    | ']' :: ']' :: rest => return (s, rest)
    | _ => .error .malformed
  | _ =>
    let (path, rest) ← key (skipGaps chars)
    let s ← s.openTable path
    match rest with
    | ']' :: rest => return (s, rest)
    | _ => .error .malformed

/-- A comment, if there is one, and the end of the line. -/
def readLineEnd : List Char → Except Fault (List Char)
  | '#' :: rest =>
    let comment := rest.takeWhile (· ≠ '\n')
    if comment.any isForbidden then .error .malformed
    else .ok ((rest.dropWhile (· ≠ '\n')).drop 1)
  | '\n' :: rest => .ok rest
  | [] => .ok []
  | _ => .error .malformed

/-- Reads statements, at most `fuel` of them. -/
def readStatements : Nat → State → List Char → Except Fault State
  | 0, _, _ => .error .malformed
  | fuel + 1, s, chars => do
    match skipGaps chars with
    | [] => return s
    | c :: rest =>
      if c = '\n' then readStatements fuel s rest
      else if c = '#' then readStatements fuel s (← readLineEnd (c :: rest))
      else if c = '[' then
        let (s, rest) ← s.readHeader rest
        readStatements fuel s (← readLineEnd (skipGaps rest))
      else if isBare c || c = '"' || c = '\'' then
        let ((path, v), rest) ← keyValue (value ((c :: rest).length + 1)) (c :: rest)
        let s ← s.define path v
        readStatements fuel s (← readLineEnd (skipGaps rest))
      else .error .malformed

end State

/-- Line ends of two characters count as line feeds. -/
def joinLineEnds : List Char → List Char
  | [] => []
  | '\r' :: '\n' :: rest => '\n' :: joinLineEnds rest
  | c :: rest => c :: joinLineEnds rest

def parse (chars : List Char) : Except Fault Table := do
  let chars := joinLineEnds chars
  return (← State.readStatements (chars.length + 1) {} chars).root

end Macro10.Toml
