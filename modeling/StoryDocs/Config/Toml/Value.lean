/-!
# Tables

A configuration in table notation is a tree of tables.  How a table came to be decides what may still be
added to it: a table that was written out as a whole is closed, and one that only stands on the way to
another may still be defined.
-/

namespace StoryDocs
namespace Config
namespace Toml

/-- How a table came to be. -/
inductive TableKind where
  /-- By a header of its own. -/
  | header
  /-- On the way to the table of another header. -/
  | passage
  /-- On the way to a dotted key. -/
  | dotted
  /-- Written out as a value. -/
  | inline
  deriving DecidableEq, Repr, Inhabited

/-- A value. -/
inductive Value where
  | text (s : List Char)
  | integer (n : Int)
  | bool (b : Bool)
  /-- A number with a fraction or an exponent. -/
  | real
  /-- A date, a time or both. -/
  | time
  | list (items : List Value)
  | table (kind : TableKind) (fields : List (List Char × Value))
  /-- The tables of headers in double brackets. -/
  | tables (items : List (List (List Char × Value)))
  deriving Repr, Inhabited

/-- The keys of a table with their values. -/
abbrev Fields := List (List Char × Value)

/-- The value of a key. -/
def find? (key : List Char) (fields : Fields) : Option Value :=
  (fields.find? fun field => field.1 == key).map Prod.snd

/-- Give a key a value, in place of one that it has. -/
def put (key : List Char) (value : Value) : Fields → Fields
  | [] => [(key, value)]
  | field :: rest => if field.1 == key then (key, value) :: rest else field :: put key value rest

/-- Change the last table of a list. -/
def changeLast (f : Fields → Option Fields) : List Fields → Option (List Fields)
  | [] => none
  | [last] => (f last).map fun last => [last]
  | first :: rest => (changeLast f rest).map (first :: ·)

/-- Give a new value to the key at the end of a dotted path.  The tables on the way must not have been
defined otherwise, and the last of them only by dotted keys. -/
def assign (value : Value) : List (List Char) → List Char → Fields → Option Fields
  | [], key, fields =>
    match find? key fields with
    | some _ => none
    | none => some (put key value fields)
  | name :: path, key, fields =>
    match find? name fields with
    | none => (assign value path key []).map fun inner => put name (.table .dotted inner) fields
    | some (.table kind inner) =>
      if kind == .dotted || (kind == .passage && !path.isEmpty) then
        (assign value path key inner).map fun inner => put name (.table kind inner) fields
      else none
    | some (.tables items) =>
      if path.isEmpty then none
      else (changeLast (assign value path key) items).map fun items => put name (.tables items) fields
    | some _ => none

/-- Change the table at the end of a path of headers; the last table of a list stands for all. -/
def change (f : Fields → Option Fields) : List (List Char) → Fields → Option Fields
  | [], fields => f fields
  | name :: path, fields =>
    match find? name fields with
    | none => (change f path []).map fun inner => put name (.table .passage inner) fields
    | some (.table .inline _) => none
    | some (.table kind inner) =>
      (change f path inner).map fun inner => put name (.table kind inner) fields
    | some (.tables items) =>
      (changeLast (change f path) items).map fun items => put name (.tables items) fields
    | some _ => none

/-- Define the table of a header; a table is defined once. -/
def define (key : List Char) (fields : Fields) : Option Fields :=
  match find? key fields with
  | none => some (put key (.table .header []) fields)
  | some (.table .passage inner) => some (put key (.table .header inner) fields)
  | some _ => none

/-- Start another table of a header in double brackets. -/
def extend (key : List Char) (fields : Fields) : Option Fields :=
  match find? key fields with
  | none => some (put key (.tables [[]]) fields)
  | some (.tables items) => some (put key (.tables (items ++ [[]])) fields)
  | some _ => none

/-- A statement of a configuration. -/
inductive Statement where
  | assignment (path : List (List Char)) (key : List Char) (value : Value)
  | header (path : List (List Char)) (key : List Char)
  | listHeader (path : List (List Char)) (key : List Char)
  deriving Repr, Inhabited

/-- Carry out statements; `current` is the table that assignments go to. -/
def carryOut : List Statement → List (List Char) → Fields → Option Fields
  | [], _, fields => some fields
  | .assignment path key value :: rest, current, fields => do
    let fields ← change (assign value path key) current fields
    carryOut rest current fields
  | .header path key :: rest, _, fields => do
    let fields ← change (define key) path fields
    carryOut rest (path ++ [key]) fields
  | .listHeader path key :: rest, _, fields => do
    let fields ← change (extend key) path fields
    carryOut rest (path ++ [key]) fields

/-- The table that an inline table's assignments build. -/
def inlineTable : List (List (List Char) × List Char × Value) → Fields → Option Fields
  | [], fields => some fields
  | (path, key, value) :: rest, fields => do
    let fields ← assign value path key fields
    inlineTable rest fields

end Toml
end Config
end StoryDocs
