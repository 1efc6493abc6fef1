import StoryDocs.Config.Preferences
import StoryDocs.Text.Digit

/-!
# Object notation

Values are read with all that is needed to tell whether they can be kept: a text may hold half of a
surrogate pair, and a number may be too large.  A value that is skipped need not be kept.
-/

namespace StoryDocs
namespace Config

open Text

/-- A number of the notation. -/
inductive JsonNumber where
  /-- Plain digits that fit into 64 bits. -/
  | natural (n : Nat)
  /-- Any other number, and whether it is in the range of double precision. -/
  | other (finite : Bool)
  deriving DecidableEq, Repr, Inhabited

/-- A value; a text is missing if its escapes leave half of a surrogate pair. -/
inductive Json where
  | null
  | bool (b : Bool)
  | number (n : JsonNumber)
  | text (s : Option (List Char))
  | list (items : List Json)
  | object (fields : List (Option (List Char) × Json))
  deriving Repr, Inhabited

namespace Json

/-- The blanks between values. -/
def isSpace (c : Char) : Bool :=
  c == ' ' || c == '\n' || c == '\t' || c == '\r'

/-- Drop the blanks at the start. -/
def skip (s : List Char) : List Char :=
  s.dropWhile isSpace

/-- A unit of a text: a character, or one half of a surrogate pair. -/
inductive TextUnit where
  | char (c : Char)
  | high (n : Nat)
  | low (n : Nat)
  deriving DecidableEq, Repr, Inhabited

/-- The unit of a four digit escape. -/
def TextUnit.ofNat (n : Nat) : TextUnit :=
  if 0xD800 ≤ n && n < 0xDC00 then high n
  else if 0xDC00 ≤ n && n < 0xE000 then low n
  else char (Char.ofNat n)

/-- Join surrogate pairs; a lone half leaves no text. -/
def joinUnits : List TextUnit → Option (List Char)
  | [] => some []
  | .char c :: rest => (joinUnits rest).map (c :: ·)
  | .high h :: .low l :: rest =>
    (joinUnits rest).map (Char.ofNat (0x10000 + (h - 0xD800) * 0x400 + (l - 0xDC00)) :: ·)
  | _ => none

/-- The character of a short escape. -/
def escaped? : Char → Option Char
  | '\x22' => some '\x22'
  | '\\' => some '\\'
  | '/' => some '/'
  | 'b' => some '\x08'
  | 'f' => some '\x0c'
  | 'n' => some '\n'
  | 'r' => some '\r'
  | 't' => some '\t'
  | _ => none

/-- Read the units of a text up to its closing quote. -/
def units : List Char → Option (List TextUnit × List Char)
  | [] => none
  | '\x22' :: rest => some ([], rest)
  | '\\' :: 'u' :: a :: b :: c :: d :: rest => do
    let n ← hex? [a, b, c, d]
    let (us, rest) ← units rest
    return (TextUnit.ofNat n :: us, rest)
  | '\\' :: c :: rest => do
    let e ← escaped? c
    let (us, rest) ← units rest
    return (.char e :: us, rest)
  | c :: rest => do
    guard (0x20 ≤ c.toNat && c != '\\')
    let (us, rest) ← units rest
    return (.char c :: us, rest)

/-- The least number that is beyond the range of double precision when it is rounded. -/
def rangeEnd : Nat :=
  Nat.pow 2 1024 - Nat.pow 2 970

/-- Whether `digits` times a power of ten, or divided by one, is in range. -/
def inRange (digits : Nat) (exponent : Int) : Bool :=
  let size : Int := (Nat.toDigits 10 digits).length
  if digits == 0 || size + exponent < 300 then true
  else if 310 < size + exponent then false
  else if 0 ≤ exponent then digits * Nat.pow 10 exponent.toNat < rangeEnd
  else digits < rangeEnd * Nat.pow 10 (-exponent).toNat

/-- Read an exponent, when there is one. -/
def exponent? : List Char → Option (Option Int × List Char)
  | [] => some (none, [])
  | c :: s =>
    if c == 'e' || c == 'E' then
      let (negative, rest) := match s with
        | '-' :: rest => (true, rest)
        | '+' :: rest => (false, rest)
        | _ => (false, s)
      let digits := rest.takeWhile Char.isDigit
      if digits.isEmpty then none
      else
        let n : Int := inBase 10 digits
        some (some (if negative then -n else n), rest.dropWhile Char.isDigit)
    else some (none, c :: s)

/-- Read the digits behind a point, when there is one. -/
def fraction? : List Char → Option (Option (List Char) × List Char)
  | '.' :: s =>
    let digits := s.takeWhile Char.isDigit
    if digits.isEmpty then none else some (some digits, s.dropWhile Char.isDigit)
  | s => some (none, s)

/-- Read a number behind its sign. -/
def unsigned (negative : Bool) (s : List Char) : Option (JsonNumber × List Char) := do
  let whole := s.takeWhile Char.isDigit
  guard (!whole.isEmpty && (whole.length == 1 || whole.head? != some '0'))
  let (fraction, s) ← fraction? (s.dropWhile Char.isDigit)
  let (exponent, s) ← exponent? s
  let n := inBase 10 whole
  if !negative && fraction.isNone && exponent.isNone && n < wordEnd then
    return (.natural n, s)
  else
    let places := fraction.getD []
    return (.other (inRange (inBase 10 (whole ++ places)) (exponent.getD 0 - places.length)), s)

/-- Read a number. -/
def readNumber : List Char → Option (JsonNumber × List Char)
  | '-' :: s => unsigned true s
  | s => unsigned false s

/-- Read a fixed word. -/
def word? (word : List Char) (value : Json) (s : List Char) : Option (Json × List Char) :=
  if s.take word.length == word then some (value, s.drop word.length) else none

mutual

/-- Read a value at the start of a text; `fuel` bounds the nesting and the number of parts. -/
def readValue : Nat → List Char → Option (Json × List Char)
  | 0, _ => none
  | fuel + 1, s =>
    match s with
    | [] => none
    | '\x22' :: rest => (units rest).map fun (us, rest) => (.text (joinUnits us), rest)
    | '[' :: rest =>
      match skip rest with
      | ']' :: rest => some (.list [], rest)
      | rest => (readItems fuel rest).map fun (xs, rest) => (.list xs, rest)
    | '\x7b' :: rest =>
      match skip rest with
      | '\x7d' :: rest => some (.object [], rest)
      | rest => (readMembers fuel rest).map fun (xs, rest) => (.object xs, rest)
    | 'n' :: _ => word? ['n', 'u', 'l', 'l'] .null s
    | 't' :: _ => word? ['t', 'r', 'u', 'e'] (.bool true) s
    | 'f' :: _ => word? ['f', 'a', 'l', 's', 'e'] (.bool false) s
    | _ => (readNumber s).map fun (n, rest) => (.number n, rest)

/-- Read the items of a list up to its closing bracket. -/
def readItems : Nat → List Char → Option (List Json × List Char)
  | 0, _ => none
  | fuel + 1, s => do
    let (x, rest) ← readValue fuel s
    match skip rest with
    | ',' :: rest =>
      let (xs, rest) ← readItems fuel (skip rest)
      return (x :: xs, rest)
    | ']' :: rest => return ([x], rest)
    | _ => none

/-- Read the members of an object up to its closing brace. -/
def readMembers : Nat → List Char → Option (List (Option (List Char) × Json) × List Char)
  | 0, _ => none
  | fuel + 1, s =>
    match s with
    | '\x22' :: rest => do
      let (us, rest) ← units rest
      match skip rest with
      | ':' :: rest =>
        let (x, rest) ← readValue fuel (skip rest)
        match skip rest with
        | ',' :: rest =>
          let (xs, rest) ← readMembers fuel (skip rest)
          return ((joinUnits us, x) :: xs, rest)
        | '\x7d' :: rest => return ([(joinUnits us, x)], rest)
        | _ => none
      | _ => none
    | _ => none

end

/-- Read a text that holds one value. -/
def parse? (s : List Char) : Option Json := do
  let (x, rest) ← readValue (s.length + 1) (skip s)
  guard (skip rest).isEmpty
  return x

mutual

/-- Whether a value can be kept: its texts are texts, its numbers are in range and its nesting is less
than `depth`. -/
def isKept : Nat → Json → Bool
  | _, .null => true
  | _, .bool _ => true
  | _, .number (.natural _) => true
  | _, .number (.other finite) => finite
  | _, .text s => s.isSome
  | depth, .list xs => 1 < depth && areKept (depth - 1) xs
  | depth, .object fields => 1 < depth && fieldsKept (depth - 1) fields

/-- Whether all values of a list can be kept. -/
def areKept : Nat → List Json → Bool
  | _, [] => true
  | depth, x :: xs => isKept depth x && areKept depth xs

/-- Whether all members of an object can be kept. -/
def fieldsKept : Nat → List (Option (List Char) × Json) → Bool
  | _, [] => true
  | depth, (key, x) :: fields => key.isSome && isKept depth x && fieldsKept depth fields

end

/-- The values of the notation as options. -/
def reading : Reading Json where
  count
    | .null => some none
    | .number (.natural n) => some (some n)
    | _ => none
  flag
    | .null => some none
    | .bool b => some (some b)
    | _ => none
  text
    | .null => some none
    | .text (some s) => some (some s)
    | _ => none

/-- The members of an object, when all their keys are texts. -/
def named? (fields : List (Option (List Char) × Json)) : Option (List (List Char × Json)) :=
  fields.mapM fun (key, x) => key.map fun key => (key, x)

/-- The members whose key does not come again. -/
def lastMembers : List (List Char × Json) → List (List Char × Json)
  | [] => []
  | (key, x) :: rest =>
    if rest.any fun field => field.1 == key then lastMembers rest else (key, x) :: lastMembers rest

/-- The preferences in a file of their own: members by name, or all values in order. -/
def preferences? (s : List Char) : Option Preferences :=
  match parse? s with
  | some (.object fields) => (named? fields).bind (Preferences.ofFields? reading)
  | some (.list xs) => Preferences.ofList? reading xs
  | _ => none

/-- How deep a value may be nested that is kept as a whole. -/
def depthLimit : Nat := 128

/-- The last member of a name in an object. -/
def member? (name : List Char) : Json → Option Json
  | .object fields => ((named? fields).getD []).reverse.lookup name
  | _ => none

/-- The preferences under a name in a larger value: an object, of which the last member of each name
counts.  Fails if the value cannot be kept, and gives nothing if there is no such object. -/
def section? (name s : List Char) : Option (Option Preferences) := do
  let x ← parse? s
  guard (isKept depthLimit x)
  match member? name x with
  | some (.object fields) =>
    let fields ← named? fields
    return some (← Preferences.ofFields? reading (lastMembers fields))
  | _ => return none

end Json
end Config
end StoryDocs
