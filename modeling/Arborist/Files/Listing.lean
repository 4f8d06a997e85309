import Arborist.Files.Volume
import Arborist.Pattern

/-!
# Listing what a pattern describes

`Listing.ofPattern` lists the paths of a volume that a pattern describes.  The pattern is taken
component by component.  One that is all literal is followed as it is, and any other one is
compared with the names in the directory reached so far.  `**` goes through everything below that
directory: entries come in the order of their names, and what is in a directory comes at its place
among them.

Patterns are text and names are bytes, so a name that is not text fits no component; but `**` still
goes through directories of such a name.  A directory whose path is too long for the system cannot
be opened, and then there is a `Listing.Trouble` in the place of its contents.
-/

namespace Arborist.Listing

structure Trouble where
  path : Path
  fault : Volume.Fault
  deriving DecidableEq, Repr

abbrev Item := Except Trouble Path

/-- The items found in the directory `path`, if the system can open it by this path; otherwise the
trouble with it. -/
def opened (path : Path) (items : List Item) : List Item :=
  if Volume.pathLimit ≤ path.length then [.error ⟨path, .nameTooLong⟩] else items

def fits (o : Pattern.Options) (p : Pattern) (name : Name) : Bool :=
  match Text.ofBytes? name with
  | some text => p.accepts o text
  | none => false

def isRecursive (p : Pattern) : Bool := p.tokens.contains .directories

def isHidden (o : Pattern.Options) (name : Name) : Bool :=
  o.literalLeadingDot && name.head? = some Path.dot

/-- What `here` finds at the given entries of the directory `path`, and at everything below them.
An entry comes before what is in it, and hidden ones are passed over if `o` says so. -/
def everywhere (o : Pattern.Options) (here : Path → Name → Entry → List Item) (path : Path) :
    List (Name × Entry) → List Item
  | [] => []
  | (name, .file content) :: rest =>
    (if isHidden o name then [] else here (Path.join path name) name (.file content))
      ++ everywhere o here path rest
  | (name, .directory entries) :: rest =>
    (if isHidden o name then []
      else
        here (Path.join path name) name (.directory entries)
          ++ opened (Path.join path name) (everywhere o here (Path.join path name) entries))
      ++ everywhere o here path rest

def inside (find : Path → List (Name × Entry) → List Item) (path : Path) : Entry → List Item
  | .file _ => []
  | .directory entries => opened path (find path entries)

/-- What the component `p`, which is not `**`, leads to from the entry `e`, and `next` for what
comes after it.  A literal component is asked for by name, so that the directory is not opened. -/
def follow (v : Volume) (o : Pattern.Options) (p : Pattern) (next : Path → Entry → List Item)
    (path : Path) (e : Entry) : List Item :=
  match p.literal? with
  | some name =>
    match v.find (Path.join path name) with
    | .ok below => next (Path.join path name) below
    | .error _ => []
  | none =>
    inside (fun path entries => entries.flatMap fun (name, below) =>
      if !isHidden o name && fits o p name then next (Path.join path name) below else []) path e

/-- What the rest of a pattern finds from the entry `e` with the path `path` on.  A pattern that is
used up finds the entry itself, which has to be a directory if `onlyDirectories`. -/
def list (v : Volume) (o : Pattern.Options) (onlyDirectories : Bool) :
    List Pattern → Path → Entry → List Item
  | [], path, e => if onlyDirectories && !e.isDirectory then [] else [.ok path]
  | p :: ps, path, e =>
    if isRecursive p then
      match ps with
      | [] =>
        inside (everywhere o fun path _ e => if e.isDirectory then [.ok path] else []) path e
      | q :: qs =>
        if isRecursive q then list v o onlyDirectories (q :: qs) path e
        else
          inside (everywhere o fun path name e =>
            if fits o q name then list v o onlyDirectories qs path e else []) path e
    else follow v o p (list v o onlyDirectories ps) path e

def components (text : List Char) : List String :=
  let parts := Text.cut '/' text
  ((if parts.length ≠ 1 ∧ parts.getLast? = some [] then parts.dropLast else parts)).map
    String.ofList

/-- The paths that the pattern `text` describes, or what is wrong with it.  A relative pattern is
followed from the current directory. -/
def ofPattern (v : Volume) (o : Pattern.Options) (text : String) :
    Except Pattern.Fault (List Item) := do
  let _ ← Pattern.compile text
  let onlyDirectories : Bool := text.toList.getLast? = some '/'
  match text.toList with
  | '/' :: rest =>
    return list v o onlyDirectories (← (components rest).mapM Pattern.compile) [Path.slash] v.top
  | cs =>
    let ps ← (components cs).mapM Pattern.compile
    match v.find [Path.dot] with
    | .ok e => return list v o onlyDirectories ps [] e
    | .error _ => return []

/-- The paths up to the first `Trouble`, and this trouble. -/
def untilTrouble : List Item → List Path × Option Trouble
  | [] => ([], none)
  | .error t :: _ => ([], some t)
  | .ok path :: items => (path :: (untilTrouble items).1, (untilTrouble items).2)

end Arborist.Listing
