/-!
# TOML values

The values of a TOML document.  The entries of a table are in the order in which they came about,
and no name occurs twice.
-/

namespace Arborist

structure Toml.Date where
  year : Nat
  month : Nat
  day : Nat
  deriving DecidableEq, Repr

structure Toml.Time where
  hour : Nat
  minute : Nat
  second : Nat
  nanosecond : Nat
  deriving DecidableEq, Repr

inductive Toml.Offset where
  | universal
  | minutes (value : Int)
  deriving DecidableEq, Repr

/-- A date, a time, or both; with both there may be an `offset` from universal time. -/
structure Toml.Datetime where
  date : Option Toml.Date
  time : Option Toml.Time
  offset : Option Toml.Offset
  deriving DecidableEq, Repr

inductive Toml where
  | string (value : String)
  | integer (value : Int)
  | float (value : Float)
  | boolean (value : Bool)
  | datetime (value : Toml.Datetime)
  | array (items : List Toml)
  | table (entries : List (String × Toml))
  deriving Inhabited

namespace Toml

def padded (width n : Nat) : String :=
  let digits := Nat.toDigits 10 n
  String.ofList (List.replicate (width - digits.length) '0' ++ digits)

def Date.text (d : Date) : String :=
  padded 4 d.year ++ "-" ++ padded 2 d.month ++ "-" ++ padded 2 d.day

def Time.text (t : Time) : String :=
  let fraction := (padded 9 t.nanosecond).toList.reverse.dropWhile (· = '0')
  padded 2 t.hour ++ ":" ++ padded 2 t.minute ++ ":" ++ padded 2 t.second
    ++ (if fraction.isEmpty then "" else "." ++ String.ofList fraction.reverse)

def Offset.text : Offset → String
  | .universal => "Z"
  | .minutes n =>
    (if n < 0 then "-" else "+") ++ padded 2 (n.natAbs / 60) ++ ":" ++ padded 2 (n.natAbs % 60)

def Datetime.text (d : Datetime) : String :=
  (d.date.map Date.text).getD ""
    ++ (if d.date.isSome && d.time.isSome then "T" else "")
    ++ (d.time.map Time.text).getD ""
    ++ (d.offset.map Offset.text).getD ""

def get? (v : Toml) (name : String) : Option Toml :=
  match v with
  | .table entries => List.lookup name entries
  | _ => none

def string? : Toml → Option String
  | .string s => some s
  | _ => none

end Toml
end Arborist
