import Arborist.Dictionary
import Arborist.Toml.Scanner

/-!
# TOML documents

A document is a list of lines that assign a value to a key or open a table.  Tables under
construction remember how they came about, because that decides who may add to them: a table opened
by its own header is closed to dotted keys, and a table made by dotted keys cannot be opened again.
-/

namespace Arborist.Toml

/-- How a table came about: it was given a header of its own (`opened`), it lies on the way to one
that was (`passed`), or dotted keys made it. -/
inductive Origin where
  | opened
  | passed
  | dotted
  deriving DecidableEq, Repr

/-- Entries that remember in which order they came.  Their numbers are below `next`; `append` uses a
new one and `put` keeps the old one. -/
structure Entries (α : Type) where
  next : Nat
  found : Dictionary (Nat × α)

/-- An entry of a table under construction.  Of an array of tables the `last` one is kept apart,
because it is the one that can still change; the others come last first. -/
inductive Draft where
  | value (value : Toml)
  | table (origin : Origin) (entries : Entries Draft)
  | tables (last : Entries Draft) (earlier : List (Entries Draft))

namespace Entries

variable {α : Type}

def empty : Entries α := ⟨0, .empty⟩

def find? (entries : Entries α) (name : String) : Option α :=
  (entries.found.find? name).map Prod.snd

def append (entries : Entries α) (name : String) (item : α) : Entries α :=
  ⟨entries.next + 1, entries.found.insert name (entries.next, item)⟩

def put (entries : Entries α) (name : String) (item : α) : Entries α :=
  match entries.found.find? name with
  | some (number, _) => { entries with found := entries.found.insert name (number, item) }
  | none => entries.append name item

/-- Applies `change` to the table at the end of a path.  Tables that are missing on the way are
`made`; of an array of tables the last one is meant.  Dotted keys must not pass through an opened
table. -/
def within (made : Origin) (change : Origin → Entries Draft → Option (Entries Draft)) :
    List String → Origin → Entries Draft → Option (Entries Draft)
  | [], origin, entries => change origin entries
  | name :: path, _, entries =>
    match entries.find? name with
    | none => do
      let inner ← within made change path made empty
      return entries.put name (.table made inner)
    | some (.value _) => none
    | some (.table origin inner) =>
      if made = .dotted ∧ origin = .opened then none
      else do
        let inner ← within made change path origin inner
        return entries.put name (.table origin inner)
    | some (.tables last earlier) => do
      let last ← within made change path .opened last
      return entries.put name (.tables last earlier)

def add (entries : Entries α) (name : String) (item : α) : Option (Entries α) :=
  match entries.find? name with
  | none => some (entries.append name item)
  | some _ => none

/-- Assigns a value to a key.  All parts of the key but the last name tables, the last of which must
be one that is `Origin.dotted`. -/
def assign (key : List String) (value : Toml) (origin : Origin) (entries : Entries Draft) :
    Option (Entries Draft) :=
  match key.getLast? with
  | none => none
  | some name =>
    let path := key.dropLast
    within .dotted
      (fun origin entries =>
        if path.isEmpty || origin = .dotted then entries.add name (.value value) else none)
      path origin entries

/-- Opens the table of a header.  One that was only `Origin.passed` so far counts as the newest
entry from here on. -/
def openTable (key : List String) (entries : Entries Draft) : Option (Entries Draft) :=
  match key.getLast? with
  | none => none
  | some name =>
    within .passed
      (fun _ entries =>
        match entries.find? name with
        | none => some (entries.append name (.table .opened empty))
        | some (.table .passed inner) => some (entries.append name (.table .opened inner))
        | some _ => none)
      key.dropLast .opened entries

def openArray (key : List String) (entries : Entries Draft) : Option (Entries Draft) :=
  match key.getLast? with
  | none => none
  | some name =>
    within .passed
      (fun _ entries =>
        match entries.find? name with
        | none => some (entries.append name (.tables empty []))
        | some (.tables last earlier) => some (entries.put name (.tables empty (last :: earlier)))
        | some _ => none)
      key.dropLast .opened entries

end Entries

def inOrder (entries : List (Nat × String × Toml)) : List (String × Toml) :=
  (entries.mergeSort fun a b => a.1 ≤ b.1).map Prod.snd

mutual

def Draft.finish : Draft → Toml
  | .value v => v
  | .table _ entries => .table (finishEntries entries)
  | .tables last earlier => .array (finishTables earlier [.table (finishEntries last)])

def finishEntries : Entries Draft → List (String × Toml)
  | ⟨_, found⟩ => inOrder (finishFound found [])

def finishFound : Dictionary (Nat × Draft) → List (Nat × String × Toml) → List (Nat × String × Toml)
  | .empty, others => others
  | .node _ left name (number, draft) right, others =>
    finishFound left ((number, name, draft.finish) :: finishFound right others)

def finishTables : List (Entries Draft) → List Toml → List Toml
  | [], others => others
  | entries :: earlier, others => finishTables earlier (.table (finishEntries entries) :: others)

end

open Scanner

/-! ### Values -/

def arrayItems (item : Scanner Toml) : Nat → Scanner (List Toml)
  | 0 => failure
  | fuel + 1 => do
    skipSpace
    if (← peek) = some ']' then
      char ']'
      return []
    let v ← item
    skipSpace
    if (← peek) = some ',' then
      char ','
      return v :: (← arrayItems item fuel)
    else
      char ']'
      return [v]

def inlineEntries (item : Scanner Toml) : Nat → Entries Draft → Scanner (Entries Draft)
  | 0, _ => failure
  | fuel + 1, entries => do
    let k ← scanKey
    char '='
    skipBlanks
    let v ← item
    let entries ← ofOption (entries.assign k v .opened)
    skipBlanks
    if (← peek) = some ',' then
      char ','
      inlineEntries item fuel entries
    else
      char '\x7d'
      return entries

def inlineTable (item : Scanner Toml) : Scanner Toml := do
  char '\x7b'
  skipBlanks
  if (← peek) = some '\x7d' then
    char '\x7d'
    return .table []
  let entries ← inlineEntries item (← bound) .empty
  return .table (finishEntries entries)

/-- A value inside of which arrays and inline tables may nest so many deep; a document begins with
`depthLimit`. -/
def valueAt : Nat → Scanner Toml
  | 0 => do
    match ← peek with
    | some '[' | some '\x7b' => failure
    | _ => scanScalar
  | depth + 1 => do
    match ← peek with
    | some '[' => do
      char '['
      return .array (← arrayItems (valueAt depth) (← bound))
    | some '\x7b' => inlineTable (valueAt depth)
    | _ => scanScalar

def depthLimit : Nat := 80

def scanValue : Scanner Toml := valueAt (depthLimit - 1)

/-! ### Lines -/

inductive Line where
  | blank
  | assign (key : List String) (value : Toml)
  | table (key : List String)
  | array (key : List String)

def scanLine : Scanner Line := do
  skipBlanks
  if ← startsWith "[[" then
    word "[["
    let k ← scanKey
    word "]]"
    endOfLine
    return .array k
  else if ← startsWith "[" then
    char '['
    let k ← scanKey
    char ']'
    endOfLine
    return .table k
  else
    match ← peek with
    | none | some '#' | some '\n' | some '\r' => do
      endOfLine
      return .blank
    | some _ => do
      let k ← scanKey
      char '='
      skipBlanks
      let v ← scanValue
      endOfLine
      return .assign k v

structure Document where
  entries : Entries Draft
  table : List String

def Document.apply (d : Document) : Line → Option Document
  | .blank => some d
  | .assign k v => do
    let entries ← Entries.within .passed (fun origin entries => entries.assign k v origin) d.table
        .opened d.entries
    return { d with entries }
  | .table k => do return ⟨← d.entries.openTable k, k⟩
  | .array k => do return ⟨← d.entries.openArray k, k⟩

structure Fault where
  line : Nat
  deriving DecidableEq, Repr

def Fault.message (f : Fault) : String := "TOML parse error at line " ++ toString f.line

/-- Reads lines until the text ends, or gives back the text from the first wrong line on.  Every
`scanLine` but the last takes at least its newline, so that there are no more lines than
characters. -/
def Document.read (size : Nat) : Nat → Document → List Char → Except (List Char) Document
  | 0, _, text => .error text
  | _ + 1, d, [] => .ok d
  | fuel + 1, d, c :: text =>
    match scanLine size (c :: text) with
    | none => .error (c :: text)
    | some (line, rest) =>
      match d.apply line with
      | none => .error (c :: text)
      | some d => Document.read size fuel d rest

def parse (text : String) : Except Fault Toml :=
  let text :=
    match text.toList with
    | '\ufeff' :: rest => rest
    | text => text
  match Document.read text.length (text.length + 1) ⟨.empty, []⟩ text with
  | .error rest => .error ⟨text.count '\n' - rest.count '\n' + 1⟩
  | .ok d => .ok (.table (finishEntries d.entries))

end Arborist.Toml
