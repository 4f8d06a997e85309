import Arborist.Files.Path
import Arborist.Members

/-!
# Files and directories

The files that a program can see are a value: a tree of named entries and a current directory.
Paths are followed segment by segment (`Volume.step`), and what can go wrong on the way is a
`Volume.Fault`.  Names are bytes and need not be text.
-/

namespace Arborist

/-- A file with its content, or a directory with its entries in ascending order of their names
(`Entry.WellFormed`).  Names are bytes, which need not be text. -/
inductive Entry where
  | file (content : ByteArray)
  | directory (entries : List (Name × Entry))

/-- Everything below the top, and the names that lead from there to the `current` directory, in
which relative paths begin. -/
structure Volume where
  entries : List (Name × Entry)
  current : List Name

inductive Volume.Fault where
  | notFound
  | notADirectory
  | isADirectory
  | nameTooLong
  | nulInName
  | notText
  deriving DecidableEq, Repr

def Volume.Fault.message : Volume.Fault → String
  | .notFound => "No such file or directory (os error 2)"
  | .notADirectory => "Not a directory (os error 20)"
  | .isADirectory => "Is a directory (os error 21)"
  | .nameTooLong => "File name too long (os error 36)"
  | .nulInName => "file name contained an unexpected NUL byte"
  | .notText => "stream did not contain valid UTF-8"

namespace Entry

def isFile : Entry → Bool
  | .file _ => true
  | .directory _ => false

def isDirectory : Entry → Bool
  | .file _ => false
  | .directory _ => true

def entries : Entry → List (Name × Entry)
  | .file _ => []
  | .directory entries => entries

def at? : Entry → List Name → Option Entry
  | e, [] => some e
  | e, name :: names =>
    match Members.find? e.entries name with
    | some below => below.at? names
    | none => none

/-- The entry with `item` at a place below it.  Directories on the way are made as needed. -/
def put : Entry → List Name → Entry → Entry
  | _, [], item => item
  | e, name :: names, item =>
    let below := (Members.find? e.entries name).getD (.directory [])
    .directory (Members.insert e.entries name (below.put names item))

def erase : Entry → List Name → Entry
  | e, [] => e
  | e, [name] => .directory (Members.without e.entries [name])
  | e, name :: names =>
    match Members.find? e.entries name with
    | some below => .directory (Members.insert e.entries name (below.erase names))
    | none => e

end Entry

namespace Volume

def top (v : Volume) : Entry := .directory v.entries

def nameLimit : Nat := 255

/-- The system refuses paths of so many bytes and more, with `Fault.nameTooLong`. -/
def pathLimit : Nat := 4096

abbrev Place := List (Name × Entry)

def entryAt (v : Volume) : Place → Entry
  | [] => v.top
  | (_, e) :: _ => e

def descend (v : Volume) (place : Place) (name : Name) : Except Fault Place :=
  match Members.find? (v.entryAt place).entries name with
  | some e => .ok ((name, e) :: place)
  | none => .error .notFound

def step (v : Volume) (place : Place) (segment : Name) : Except Fault Place :=
  match v.entryAt place with
  | .file _ => .error .notADirectory
  | .directory _ =>
    if Path.isIdle segment then .ok place
    else if segment = Path.up then .ok place.tail
    else if nameLimit < segment.length then .error .nameTooLong
    else v.descend place segment

/-- The names from the top to the place that a path leads to, and what is there.  The path is
followed by one `step` for each segment, so that its length does not matter. -/
def locate (v : Volume) (path : Path) : Except Fault (List Name × Entry) := do
  if path.contains 0 then throw .nulInName
  if path = [] then throw .notFound
  let start ← if Path.isAbsolute path then pure [] else v.current.foldlM v.descend []
  let place ← (Path.segments path).foldlM v.step start
  return ((place.map Prod.fst).reverse, v.entryAt place)

/-- What is at the end of a path that is handed to the system as a whole.  It has to be shorter than
`pathLimit`, and is then what `locate` finds. -/
def find (v : Volume) (path : Path) : Except Fault Entry :=
  if pathLimit ≤ path.length then
    .error (if path.contains 0 then .nulInName else .nameTooLong)
  else (v.locate path).map Prod.snd

def exists? (v : Volume) (path : Path) : Bool :=
  match v.find path with
  | .ok _ => true
  | .error _ => false

def isFile (v : Volume) (path : Path) : Bool :=
  match v.find path with
  | .ok e => e.isFile
  | .error _ => false

def isDirectory (v : Volume) (path : Path) : Bool :=
  match v.find path with
  | .ok e => e.isDirectory
  | .error _ => false

def canonical (v : Volume) (path : Path) : Except Fault Path := do
  return Path.absolute (← v.locate path).1

def readText (v : Volume) (path : Path) : Except Fault String := do
  match ← v.find path with
  | .directory _ => throw .isADirectory
  | .file content =>
    match String.fromUTF8? content with
    | some text => return text
    | none => throw .notText

def put (v : Volume) (names : List Name) (e : Entry) : Volume :=
  { v with entries := (v.top.put names e).entries }

def erase (v : Volume) (names : List Name) : Volume :=
  { v with entries := (v.top.erase names).entries }

def writeHere (v : Volume) (name : Name) (text : String) : Except Fault Volume :=
  match v.locate name, v.locate [Path.dot] with
  | .ok (_, .directory _), _ => .error .isADirectory
  | .ok (names, .file _), _ => .ok (v.put names (.file text.toUTF8))
  | .error _, .ok (names, .directory _) => .ok (v.put (names ++ [name]) (.file text.toUTF8))
  | .error _, .ok (_, .file _) => .error .notADirectory
  | .error _, .error fault => .error fault

end Volume
end Arborist
