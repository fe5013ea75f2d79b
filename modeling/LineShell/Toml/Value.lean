import LineShell.Text.Basic
/-!
# TOML values

A TOML document is a table of values. Tables remember how they were introduced, because that decides
whether later lines may add to them. Numbers, dates and times are kept as written.
-/

namespace LineShell

namespace Toml

inductive Origin where
  /-- On the way to a table with a header. -/
  | implicit
  /-- By a header. -/
  | header
  /-- On the way of a dotted key. -/
  | dotted
  /-- In braces, complete as written. -/
  | inline
  deriving DecidableEq, Repr

inductive Value where
  | string (text : Text)
  | boolean (value : Bool)
  /-- A number, a date or a time. -/
  | scalar (text : Text)
  /-- An array, to which headers in double brackets may add if it is open. -/
  | array (isOpen : Bool) (items : List Value)
  | table (origin : Origin) (entries : List (Text × Value))

abbrev Entries := List (Text × Value)

namespace Entries

def put (key : Text) (value : Value) : Entries → Entries
  | [] => [(key, value)]
  | entry :: entries =>
    if entry.1 = key then (key, value) :: entries else entry :: put key value entries

def define (key : Text) (value : Value) (entries : Entries) : Option Entries :=
  if (entries.lookup key).isSome then none else some (entries ++ [(key, value)])

/-- Introduce a table by its header; one that was only implicit may get its header later. -/
def openTable (key : Text) (entries : Entries) : Option Entries :=
  match entries.lookup key with
  | none => some (entries ++ [(key, .table .header [])])
  | some (.table .implicit inner) => some (put key (.table .header inner) entries)
  | some _ => none

def openElement (key : Text) (entries : Entries) : Option Entries :=
  match entries.lookup key with
  | none => some (entries ++ [(key, .array true [.table .header []])])
  | some (.array true items) => some (put key (.array true (items ++ [.table .header []])) entries)
  | some _ => none

/-- Change the table at the end of a path of keys. Missing tables are made on the way. The keys
before the last of a dotted key lead only through tables that dotted keys have introduced. -/
def alter (dotted : Bool) (change : Entries → Option Entries) : List Text → Entries → Option Entries
  | [], entries => change entries
  | key :: keys, entries =>
    match entries.lookup key with
    | none => do
      let inner ← alter dotted change keys []
      return put key (.table (if dotted then .dotted else .implicit) inner) entries
    | some (.table origin inner) =>
      if origin = .inline then none
      else if dotted ∧ (origin = .header ∨ (keys = [] ∧ origin ≠ .dotted)) then none
      else do return put key (.table origin (← alter dotted change keys inner)) entries
    | some (.array true items) =>
      match items.getLast? with
      | some (.table origin inner) =>
        if dotted ∧ keys = [] then none
        else do
          let last := Value.table origin (← alter dotted change keys inner)
          return put key (.array true (items.dropLast ++ [last])) entries
      | _ => none
    | some _ => none

def assign (keys : List Text) (value : Value) (entries : Entries) : Option Entries :=
  match keys.getLast? with
  | none => none
  | some key => alter true (define key value) keys.dropLast entries

end Entries

end Toml

end LineShell
