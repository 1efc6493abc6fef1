import StoryDocs.Config.Toml.Scalar

/-!
# Reading table notation

A configuration is a list of lines: assignments, headers, comments and blanks.  Lists may go over several
lines, inline tables may not.
-/

namespace StoryDocs
namespace Config
namespace Toml

/-- Drop a comment at the start; none is there if the text does not start with a number sign. -/
def skipComment (s : List Char) : List Char :=
  match s with
  | '#' :: rest => rest.dropWhile isPrintable
  | _ => s

/-- Drop the rest of a line: blanks, a comment and the line end. -/
def endLine? (s : List Char) : Option (List Char) :=
  match skipComment (skipSpace s) with
  | [] => some []
  | rest => newline? rest

/-- Drop blanks, comments and line ends; `fuel` bounds their number. -/
def skipTrivia : Nat → List Char → List Char
  | 0, s => s
  | fuel + 1, s =>
    let rest := skipSpace s
    match rest with
    | '#' :: _ =>
      match newline? (skipComment rest) with
      | some next => skipTrivia fuel next
      | none => rest
    | _ =>
      match newline? rest with
      | some next => skipTrivia fuel next
      | none => rest

/-- Characters of a key without quotes. -/
def isKeyChar (c : Char) : Bool :=
  c.isAlpha || c.isDigit || c == '_' || c == '-'

/-- Read one part of a key. -/
def keyPart? (s : List Char) : Option (List Char × List Char) :=
  match s with
  | '\x22' :: rest => basicText (rest.length + 1) rest
  | '\x27' :: rest => literalText rest
  | _ =>
    let name := s.takeWhile isKeyChar
    if name.isEmpty then none else some (name, s.dropWhile isKeyChar)

/-- Read a dotted key as the path to its last part; `fuel` bounds the number of parts. -/
def key? : Nat → List Char → Option ((List (List Char) × List Char) × List Char)
  | 0, _ => none
  | fuel + 1, s => do
    let (part, rest) ← keyPart? (skipSpace s)
    match skipSpace rest with
    | '.' :: rest =>
      let ((path, last), rest) ← key? fuel rest
      return ((part :: path, last), rest)
    | rest => return (([], part), rest)

/-- How deep values may be nested, and how many parts a key may have. -/
def depthLimit : Nat := 80

mutual

/-- Read a value; `depth` bounds the nesting, `fuel` the number of parts. -/
def value? : Nat → Nat → List Char → Option (Value × List Char)
  | 0, _, _ => none
  | fuel + 1, depth, s =>
    match s with
    | '[' :: rest =>
      if depth ≤ 1 then none
      else (items? fuel (depth - 1) rest).map fun (xs, rest) => (.list xs, rest)
    | '\x7b' :: rest =>
      if depth ≤ 1 then none
      else
        match skipSpace rest with
        | '\x7d' :: rest => some (.table .inline [], rest)
        | rest => do
          let (pairs, rest) ← pairs? fuel (depth - 1) rest
          let fields ← inlineTable pairs []
          return (.table .inline fields, rest)
    | _ => scalarValue? s

/-- Read the items of a list up to its closing bracket. -/
def items? : Nat → Nat → List Char → Option (List Value × List Char)
  | 0, _, _ => none
  | fuel + 1, depth, s =>
    match skipTrivia (s.length + 1) s with
    | ']' :: rest => some ([], rest)
    | start => do
      let (x, rest) ← value? fuel depth start
      match skipTrivia (rest.length + 1) rest with
      | ',' :: rest =>
        let (xs, rest) ← items? fuel depth rest
        return (x :: xs, rest)
      | ']' :: rest => return ([x], rest)
      | _ => none

/-- Read the assignments of an inline table up to its closing brace. -/
def pairs? : Nat → Nat → List Char → Option (List (List (List Char) × List Char × Value) × List Char)
  | 0, _, _ => none
  | fuel + 1, depth, s => do
    let ((path, key), rest) ← key? depthLimit s
    match rest with
    | '=' :: rest =>
      let (x, rest) ← value? fuel depth (skipSpace rest)
      match skipSpace rest with
      | ',' :: rest =>
        let (xs, rest) ← pairs? fuel depth rest
        return ((path, key, x) :: xs, rest)
      | '\x7d' :: rest => return ([(path, key, x)], rest)
      | _ => none
    | _ => none

end

/-- Read an assignment up to the end of its line. -/
def assignment? (s : List Char) : Option (Statement × List Char) := do
  let ((path, key), rest) ← key? depthLimit s
  let rest ← drop? '=' rest
  let (x, rest) ← value? (rest.length + 1) depthLimit (skipSpace rest)
  return (.assignment path key x, ← endLine? rest)

/-- Read a header up to the end of its line. -/
def header? (s : List Char) : Option (Statement × List Char) :=
  match s with
  | '[' :: '[' :: rest => do
    let ((path, key), rest) ← key? depthLimit rest
    let rest ← (drop? ']' rest).bind (drop? ']')
    return (.listHeader path key, ← endLine? rest)
  | '[' :: rest => do
    let ((path, key), rest) ← key? depthLimit rest
    let rest ← drop? ']' rest
    return (.header path key, ← endLine? rest)
  | _ => none

/-- Read the statements of a configuration; `fuel` bounds the number of lines. -/
def statements? : Nat → List Char → Option (List Statement)
  | 0, _ => none
  | fuel + 1, s =>
    match skipTrivia (s.length + 1) s with
    | [] => some []
    | '#' :: rest => if (skipComment ('#' :: rest)).isEmpty then some [] else none
    | start => do
      let (statement, rest) ← if start.head? == some '[' then header? start else assignment? start
      return statement :: (← statements? fuel rest)

/-- Drop a byte order mark. -/
def dropMark (s : List Char) : List Char :=
  match s with
  | '\uFEFF' :: rest => rest
  | _ => s

/-- Read a configuration. -/
def parse? (s : List Char) : Option Fields := do
  carryOut (← statements? (s.length + 1) (dropMark s)) [] []

/-- The values of the notation as options. -/
def reading : Reading Value where
  count
    | .integer n => if 0 ≤ n then some (some n.toNat) else none
    | _ => none
  flag
    | .bool b => some (some b)
    | _ => none
  text
    | .text s => some (some s)
    | _ => none

/-- The preferences in a configuration file. -/
def preferences? (s : List Char) : Option Preferences :=
  (parse? s).bind (Preferences.ofFields? reading)

end Toml
end Config
end StoryDocs
