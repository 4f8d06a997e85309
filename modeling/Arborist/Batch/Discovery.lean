import Arborist.Files.Listing

/-!
# Finding tree files

The tree files of a directory are those that the pattern `ROOT/**/*SUFFIX` describes, with the root
and the suffix taken literally.  A tree file is known by its path; findings are about the path from
the root to it, without the suffix.

The root becomes text in the pattern, and so do the names in a relative path.  What is not text in
them is U+FFFD there.
-/

namespace Arborist.Discovery

def pattern (root : Path) (suffix : String) : String :=
  Pattern.escape (Path.display root) ++ "/**/*" ++ Pattern.escape suffix

/-- The regular files that the pattern `root/**/*suffix` describes, up to the first directory that
cannot be opened, and this trouble.  `Volume.isFile` is asked about every path the `Listing` gives,
and it takes the whole path to the system again, so that a path of `Volume.pathLimit` bytes or more
is none of them. -/
def search (volume : Volume) (root : Path) (suffix : String) :
    Except Pattern.Fault (List Path × Option Listing.Trouble) := do
  let (paths, trouble) :=
    Listing.untilTrouble (← Listing.ofPattern volume .standard (pattern root suffix))
  return (paths.filter volume.isFile, trouble)

/-- The names from `root` to `path` with slashes between them.  A path that does not begin with the
components of the root is taken as a whole.  Names are shown by `Text.lossy`, so that two of them
may look the same. -/
def relativePath (root path : Path) : String :=
  let names := ((Path.below? root path).getD (Path.components path)).filterMap Path.Component.name?
  "/".intercalate (names.map Text.lossy)

def beforeLast? (part : List Char) : List Char → Option (List Char)
  | [] => if part.isEmpty then some [] else none
  | c :: cs =>
    match beforeLast? part cs with
    | some front => some (c :: front)
    | none => if part.isPrefixOf (c :: cs) then some [] else none

/-- The path of the file that a tree file belongs to: what `beforeLast?` finds in front of the last
`suffix` in `relative`, or `relative` itself. -/
def sourcePath (suffix relative : String) : String :=
  match beforeLast? suffix.toList relative.toList with
  | some front => String.ofList front
  | none => relative

end Arborist.Discovery
