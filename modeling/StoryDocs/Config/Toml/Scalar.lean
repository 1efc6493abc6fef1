import StoryDocs.Config.Json
import StoryDocs.Config.Toml.Value

/-!
# Texts, numbers and times

The values of table notation that hold no other values.  Every function reads at the start of a text and
gives what it found with the rest.
-/

namespace StoryDocs
namespace Config
namespace Toml

open Text

/-- A space or a tab. -/
def isSpace (c : Char) : Bool :=
  c == ' ' || c == '\t'

/-- Drop the blanks at the start of a line. -/
def skipSpace (s : List Char) : List Char :=
  s.dropWhile isSpace

/-- Characters of comments and literal texts: no control characters but the tab. -/
def isPrintable (c : Char) : Bool :=
  c == '\t' || (0x20 ≤ c.toNat && c.toNat ≠ 0x7F)

/-- Drop a line feed, possibly behind a carriage return. -/
def newline? : List Char → Option (List Char)
  | '\n' :: s => some s
  | '\r' :: '\n' :: s => some s
  | _ => none

/-- Read an escape behind its backslash. -/
def escape? : List Char → Option (Char × List Char)
  | 'b' :: s => some ('\x08', s)
  | 't' :: s => some ('\t', s)
  | 'n' :: s => some ('\n', s)
  | 'f' :: s => some ('\x0c', s)
  | 'r' :: s => some ('\r', s)
  | '\x22' :: s => some ('\x22', s)
  | '\\' :: s => some ('\\', s)
  | 'u' :: s =>
    if 4 ≤ s.length then
      ((hex? (s.take 4)).bind scalar?).map fun c => (c, s.drop 4)
    else none
  | 'U' :: s =>
    if 8 ≤ s.length then
      ((hex? (s.take 8)).bind scalar?).map fun c => (c, s.drop 8)
    else none
  | _ => none

/-- Read a quoted text of one line up to its closing quote; `fuel` bounds its length. -/
def basicText : Nat → List Char → Option (List Char × List Char)
  | 0, _ => none
  | fuel + 1, s =>
    match s with
    | [] => none
    | '\x22' :: rest => some ([], rest)
    | '\\' :: rest => do
      let (c, rest) ← escape? rest
      let (text, rest) ← basicText fuel rest
      return (c :: text, rest)
    | c :: rest => do
      guard (isPrintable c)
      let (text, rest) ← basicText fuel rest
      return (c :: text, rest)

/-- Read a literal text of one line up to its closing apostrophe. -/
def literalText : List Char → Option (List Char × List Char)
  | [] => none
  | '\x27' :: rest => some ([], rest)
  | c :: rest => do
    guard (isPrintable c)
    let (text, rest) ← literalText rest
    return (c :: text, rest)

/-- The end of a text in triple quotes: up to two more quotes belong to the text. -/
def closing? (quote : Char) (s : List Char) : Option (List Char × List Char) :=
  let run := (s.takeWhile (· == quote)).length
  if run < 3 then none
  else
    let kept := min (run - 3) 2
    some (List.replicate kept quote, s.drop (kept + 3))

/-- Drop blanks and line ends. -/
def skipLines : List Char → List Char
  | [] => []
  | '\r' :: '\n' :: s => skipLines s
  | c :: s => if isSpace c || c == '\n' then skipLines s else c :: s

/-- Read a text in triple quotes up to its end; `fuel` bounds its length. -/
def longText : Nat → List Char → Option (List Char × List Char)
  | 0, _ => none
  | fuel + 1, s =>
    match closing? '\x22' s with
    | some found => some found
    | none =>
      match s with
      | [] => none
      | '\\' :: rest =>
        match newline? (skipSpace rest) with
        | some rest => longText fuel (skipLines rest)
        | none => do
          let (c, rest) ← escape? rest
          let (text, rest) ← longText fuel rest
          return (c :: text, rest)
      | c :: rest =>
        match newline? s with
        | some rest => do
          let (text, rest) ← longText fuel rest
          return ('\n' :: text, rest)
        | none => do
          guard (isPrintable c)
          let (text, rest) ← longText fuel rest
          return (c :: text, rest)

/-- Read a literal text in triple apostrophes up to its end; `fuel` bounds its length. -/
def longLiteral : Nat → List Char → Option (List Char × List Char)
  | 0, _ => none
  | fuel + 1, s =>
    match closing? '\x27' s with
    | some found => some found
    | none =>
      match s with
      | [] => none
      | c :: rest =>
        match newline? s with
        | some rest => do
          let (text, rest) ← longLiteral fuel rest
          return ('\n' :: text, rest)
        | none => do
          guard (isPrintable c)
          let (text, rest) ← longLiteral fuel rest
          return (c :: text, rest)

/-- A text without the line end that it starts with. -/
def dropNewline (s : List Char) : List Char :=
  (newline? s).getD s

/-- Read a text of any form. -/
def text? (s : List Char) : Option (List Char × List Char) :=
  match s with
  | '\x22' :: '\x22' :: '\x22' :: rest => longText (rest.length + 1) (dropNewline rest)
  | '\x22' :: rest => basicText (rest.length + 1) rest
  | '\x27' :: '\x27' :: '\x27' :: rest => longLiteral (rest.length + 1) (dropNewline rest)
  | '\x27' :: rest => literalText rest
  | _ => none

/-- Read digits of a class, with single underscores between them. -/
def digits? (isDigit : Char → Bool) : List Char → Option (List Char × List Char)
  | [] => none
  | c :: s => if isDigit c then some (go c s) else none
where
  /-- Read on behind a digit. -/
  go (c : Char) : List Char → List Char × List Char
    | '_' :: d :: s =>
      if isDigit d then
        let (ds, rest) := go d s
        (c :: ds, rest)
      else ([c], '_' :: d :: s)
    | d :: s =>
      if isDigit d then
        let (ds, rest) := go d s
        (c :: ds, rest)
      else ([c], d :: s)
    | [] => ([c], [])

/-- Read decimal digits without a needless zero in front. -/
def decimal? (s : List Char) : Option (List Char × List Char) :=
  match s with
  | '0' :: rest => some (['0'], rest)
  | _ => digits? Char.isDigit s

/-- Read a sign; tells whether it is a minus. -/
def sign : List Char → Bool × List Char
  | '-' :: s => (true, s)
  | '+' :: s => (false, s)
  | s => (false, s)

/-- The first number that does not fit into 64 bits with a sign. -/
def signedEnd : Int :=
  Nat.pow 2 63

/-- Keep an integer of 64 bits. -/
def integer? (n : Int) : Option Value :=
  if -signedEnd ≤ n && n < signedEnd then some (.integer n) else none

/-- Read digits of a base behind their mark. -/
def based? (base : Nat) (isDigit : Char → Bool) (s : List Char) : Option (Value × List Char) := do
  let (ds, rest) ← digits? isDigit s
  return (← integer? (inBase base ds), rest)

/-- Read an exponent behind its letter. -/
def exponent? (s : List Char) : Option (Int × List Char) := do
  let (negative, s) := sign s
  let (ds, s) ← digits? Char.isDigit s
  let n : Int := inBase 10 ds
  return (if negative then -n else n, s)

/-- Whether a character is the letter of an exponent. -/
def isExponentMark (c : Char) : Bool :=
  c == 'e' || c == 'E'

/-- Read a fraction and an exponent behind the digits of a number. -/
def fraction? (s : List Char) : Option ((List Char × Int) × List Char) :=
  match s with
  | '.' :: s => do
    let (ds, s) ← digits? Char.isDigit s
    match s with
    | c :: rest =>
      if isExponentMark c then
        let (n, rest) ← exponent? rest
        return ((ds, n), rest)
      else return ((ds, 0), c :: rest)
    | [] => return ((ds, 0), [])
  | c :: s =>
    if isExponentMark c then do
      let (n, s) ← exponent? s
      return (([], n), s)
    else none
  | [] => none

/-- Read a number in decimal digits. -/
def number? (s : List Char) : Option (Value × List Char) := do
  let (negative, s) := sign s
  match s with
  | 'i' :: 'n' :: 'f' :: s => return (.real, s)
  | 'n' :: 'a' :: 'n' :: s => return (.real, s)
  | _ =>
    let (ds, s) ← decimal? s
    match s with
    | c :: _ =>
      if c == '.' || isExponentMark c then
        let ((places, n), s) ← fraction? s
        guard (negative || Json.inRange (inBase 10 (ds ++ places)) (n - places.length))
        return (.real, s)
      else
        let n : Int := inBase 10 ds
        return (← integer? (if negative then -n else n), s)
    | [] =>
      let n : Int := inBase 10 ds
      return (← integer? (if negative then -n else n), s)

/-- Read exactly `n` decimal digits. -/
def fixed? (n : Nat) (s : List Char) : Option (Nat × List Char) :=
  let ds := s.take n
  if ds.length == n && ds.all Char.isDigit then some (inBase 10 ds, s.drop n) else none

/-- Drop a character. -/
def drop? (c : Char) : List Char → Option (List Char)
  | d :: s => if d == c then some s else none
  | [] => none

/-- How many days a month has. -/
def monthDays (year month : Nat) : Nat :=
  if month == 2 then
    if year % 4 == 0 && (year % 100 != 0 || year % 400 == 0) then 29 else 28
  else if month == 4 || month == 6 || month == 9 || month == 11 then 30
  else 31

/-- Read a date. -/
def date? (s : List Char) : Option (List Char) := do
  let (year, s) ← fixed? 4 s
  let (month, s) ← (drop? '-' s).bind (fixed? 2)
  let (day, s) ← (drop? '-' s).bind (fixed? 2)
  guard (1 ≤ month && month ≤ 12 && 1 ≤ day && day ≤ monthDays year month)
  return s

/-- Read an hour and a minute. -/
def hourMinute? (s : List Char) : Option (List Char) := do
  let (hour, s) ← fixed? 2 s
  let (minute, s) ← (drop? ':' s).bind (fixed? 2)
  guard (hour ≤ 23 && minute ≤ 59)
  return s

/-- Read a time of day. -/
def time? (s : List Char) : Option (List Char) := do
  let s ← hourMinute? s
  let (second, s) ← (drop? ':' s).bind (fixed? 2)
  guard (second ≤ 60)
  match s with
  | '.' :: c :: rest =>
    if c.isDigit then return rest.dropWhile Char.isDigit else none
  | ['.'] => none
  | _ => return s

/-- Drop the distance to universal time, when there is one. -/
def offset (s : List Char) : List Char :=
  match s with
  | 'Z' :: s => s
  | 'z' :: s => s
  | '+' :: rest => (hourMinute? rest).getD s
  | '-' :: rest => (hourMinute? rest).getD s
  | _ => s

/-- Read a date, a time or both. -/
def moment? (s : List Char) : Option (Value × List Char) :=
  match date? s with
  | some rest =>
    match rest with
    | c :: more =>
      if c == 'T' || c == 't' || c == ' ' then
        match time? more with
        | some more => some (.time, offset more)
        | none => some (.time, rest)
      else some (.time, rest)
    | [] => some (.time, [])
  | none => (time? s).map fun rest => (.time, rest)

/-- Read a value that holds no other values. -/
def scalarValue? (s : List Char) : Option (Value × List Char) :=
  match s with
  | 't' :: 'r' :: 'u' :: 'e' :: rest => some (.bool true, rest)
  | 'f' :: 'a' :: 'l' :: 's' :: 'e' :: rest => some (.bool false, rest)
  | '\x22' :: _ => (text? s).map fun (t, rest) => (.text t, rest)
  | '\x27' :: _ => (text? s).map fun (t, rest) => (.text t, rest)
  | '0' :: 'x' :: rest => based? 16 (fun c => (hexDigit? c).isSome) rest
  | '0' :: 'o' :: rest => based? 8 (fun c => '0' ≤ c && c ≤ '7') rest
  | '0' :: 'b' :: rest => based? 2 (fun c => c == '0' || c == '1') rest
  | _ => (moment? s).or (number? s)

end Toml
end Config
end StoryDocs
