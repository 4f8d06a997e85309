import Arborist.Text
import Arborist.Text.Utf8

/-!
# Paths

A path is a string of bytes: segments with slashes between them, and a slash in front if it is
absolute.  A segment that is empty or a single dot stays where it is but names nothing of its own,
except for a dot at the very beginning.

Names need not be text.  A text in the place of a path stands for its UTF-8 bytes, and
`Path.display` shows a path with U+FFFD for what is not text.
-/

namespace Arborist

abbrev Name := List UInt8

abbrev Path := List UInt8

instance : Coe String Path := ⟨Text.bytes⟩

namespace Path

def slash : UInt8 := 0x2F

def dot : UInt8 := 0x2E

def up : Name := [dot, dot]

def segments (path : Path) : List Name := Text.cut slash path

def ofSegments (names : List Name) : Path := [slash].intercalate names

def isAbsolute (path : Path) : Bool := path.head? = some slash

def absolute (names : List Name) : Path := slash :: ofSegments names

def join (base path : Path) : Path :=
  if isAbsolute path || base = [] then path
  else if base.getLast? = some slash then base ++ path
  else base ++ slash :: path

def isIdle (segment : Name) : Bool := segment = [] || segment = [dot]

def display (path : Path) : String := Text.lossy path

/-! ### Beginnings -/

/-- Adds the beginnings of a path to those in `found`, the longest first.  `text` is the path up to
the next segment.  A beginning that ends in an idle segment is no path of its own. -/
def extendBeginnings (text : Path) : List Name → List Path → List Path
  | [], found => found
  | s :: rest, found =>
    let longer := text ++ slash :: s
    extendBeginnings longer rest (if isIdle s then found else longer :: found)

def beginnings (path : Path) : List Path :=
  match segments path with
  | [] => []
  | first :: rest =>
    if first = [] then extendBeginnings [] rest [if isAbsolute path then [slash] else []]
    else extendBeginnings first rest [first, []]

/-- A path and all those above it, the nearest first.  Nothing is above an empty path or above the
top; the others are among the `beginnings` of the path. -/
def ancestors (path : Path) : List Path := path :: (beginnings path).tail

def parent? (path : Path) : Option Path := (ancestors path).tail.head?

/-! ### Components -/

inductive Component where
  | top
  | here
  | up
  | normal (name : Name)
  deriving DecidableEq, Repr

def Component.ofSegment? (segment : Name) : Option Component :=
  if isIdle segment then none else if segment = Path.up then some .up else some (.normal segment)

def Component.name? : Component → Option Name
  | .normal name => some name
  | _ => none

/-- The components of a path.  Segments that are `isIdle` are left out, but for a dot at the
beginning of a relative path. -/
def components (path : Path) : List Component :=
  (if isAbsolute path then [.top] else if (segments path).head? = some [dot] then [.here] else [])
    ++ (segments path).filterMap Component.ofSegment?

/-- The components of `path` after those of `base`, if it begins with them.  Nothing is followed on
a volume for this. -/
def below? (base path : Path) : Option (List Component) :=
  (components base).isPrefixOf? (components path)

end Path
end Arborist
