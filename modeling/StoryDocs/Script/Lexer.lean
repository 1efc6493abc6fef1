import StoryDocs.Script.Token
import StoryDocs.Text.Blank
import StoryDocs.Text.Digit
import StoryDocs.Text.Letter

/-!
# Reading tokens

`Token.read` skips blanks and comments and reads one token.  Angle brackets are always read one at a
time, because only the grammar knows whether `>>` closes two type argument lists or shifts a number.
Readers of words, numbers and strings recurse on a bound for the length of the text.
-/

namespace StoryDocs
namespace Script

open Text

/-- The four characters that end a line of a script. -/
def isLineBreak (c : Char) : Bool :=
  c == '\n' || c == '\r' || c.toNat == 0x2028 || c.toNat == 0x2029

/-- What is left behind blanks and comments. -/
structure Gap where
  rest : List Char
  offset : Nat
  /-- Whether a line break was skipped. -/
  broken : Bool
  /-- Whether every block comment is closed. -/
  closed : Bool

mutual

/-- Skip blanks and comments. -/
def skipGap : List Char → Nat → Bool → Gap
  | '/' :: '/' :: s, n, b => skipLineComment s (n + 2) b
  | '/' :: '*' :: s, n, b => skipBlockComment s (n + 2) b
  | c :: s, n, b =>
    if isLineBreak c then skipGap s (n + 1) true
    else if isBlank c || c.toNat == 0xFEFF then skipGap s (n + 1) b
    else ⟨c :: s, n, b, true⟩
  | [], n, b => ⟨[], n, b, true⟩

/-- Skip the rest of a line comment with its line break. -/
def skipLineComment : List Char → Nat → Bool → Gap
  | c :: s, n, b => if isLineBreak c then skipGap s (n + 1) true else skipLineComment s (n + 1) b
  | [], n, b => ⟨[], n, b, true⟩

/-- Skip the rest of a block comment. -/
def skipBlockComment : List Char → Nat → Bool → Gap
  | '*' :: '/' :: s, n, b => skipGap s (n + 2) b
  | c :: s, n, b => skipBlockComment s (n + 1) (b || isLineBreak c)
  | [], n, b => ⟨[], n, b, false⟩

end

/-- The value of a run of hexadecimal digits up to a closing brace, with the number of characters read
and the text behind the brace. -/
def bracedCode : List Char → Nat → Nat → Nat → Option (Nat × Nat × List Char)
  | [], _, _, _ => none
  | c :: s, value, digits, read =>
    if c == '}' then if digits == 0 then none else some (value, read + 1, s)
    else
      match hexDigit? c with
      | none => none
      | some d =>
        let value := value * 16 + d
        if value > 0x10FFFF then none else bracedCode s value (digits + 1) (read + 1)

/-- The code behind `\u`: four digits, or digits in braces. -/
def unicodeCode : List Char → Option (Nat × Nat × List Char)
  | '{' :: s => bracedCode s 0 0 1
  | a :: b :: c :: d :: s => do
    let a ← hexDigit? a
    let b ← hexDigit? b
    let c ← hexDigit? c
    let d ← hexDigit? d
    some (((a * 16 + b) * 16 + c) * 16 + d, 4, s)
  | _ => none

/-- A word read so far: its characters in reverse, whether an escape occurred, and what is left. -/
structure WordScan where
  name : List Char
  escaped : Bool
  size : Nat
  rest : List Char

/-- Read on in a word; `none` when an escape does not denote an identifier character. -/
def scanWord : Nat → WordScan → Option WordScan
  | 0, w => some w
  | bound + 1, w =>
    match w.rest with
    | '\\' :: 'u' :: s =>
      match unicodeCode s with
      | none => none
      | some (code, size, rest) =>
        let c := Char.ofNat code
        let ok := if w.name.isEmpty then isIdentifierStart c else isIdentifierPart c
        if ok then scanWord bound ⟨c :: w.name, true, w.size + 2 + size, rest⟩ else none
    | '\\' :: _ => none
    | c :: s =>
      let ok := if w.name.isEmpty then isIdentifierStart c else isIdentifierPart c
      if ok then scanWord bound ⟨c :: w.name, w.escaped, w.size + 1, s⟩ else some w
    | [] => some w

/-- The units of a string value: characters, and the surrogates that escapes can spell alone. -/
inductive StringUnit where
  | char (c : Char)
  | surrogate (code : Nat)

/-- The unit that an escaped code denotes. -/
def StringUnit.ofCode (code : Nat) : StringUnit :=
  if 0xD800 ≤ code && code ≤ 0xDFFF then .surrogate code else .char (Char.ofNat code)

/-- The text of a string value: a pair of surrogates is one character, and each byte of a surrogate
alone becomes a replacement character. -/
def unitsText : List StringUnit → List Char
  | [] => []
  | .char c :: us => c :: unitsText us
  | .surrogate a :: .surrogate b :: us =>
    if a < 0xDC00 && 0xDC00 ≤ b then
      Char.ofNat (0x10000 + (a - 0xD800) * 0x400 + (b - 0xDC00)) :: unitsText us
    else '\uFFFD' :: '\uFFFD' :: '\uFFFD' :: unitsText (.surrogate b :: us)
  | .surrogate _ :: us => '\uFFFD' :: '\uFFFD' :: '\uFFFD' :: unitsText us

/-- The character that a backslash in front of `c` stands for, where that is a single control. -/
def controlEscape? (c : Char) : Option Char :=
  if c == 'n' then some '\n'
  else if c == 't' then some '\t'
  else if c == 'r' then some '\r'
  else if c == 'b' then some '\x08'
  else if c == 'f' then some '\x0c'
  else if c == 'v' then some '\x0b'
  else none

/-- An octal digit. -/
def isOctal (c : Char) : Bool :=
  '0' ≤ c && c ≤ '7'

/-- What an escape sequence denotes, how many characters it has behind the backslash, what follows,
and whether it is a legacy octal escape. -/
structure EscapeScan where
  units : List StringUnit
  size : Nat
  rest : List Char
  octal : Bool

/-- Read an escape sequence behind its backslash. -/
def scanEscape : List Char → Option EscapeScan
  | [] => none
  | 'x' :: a :: b :: s => do
    let a ← hexDigit? a
    let b ← hexDigit? b
    some ⟨[.char (Char.ofNat (a * 16 + b))], 3, s, false⟩
  | 'x' :: _ => none
  | 'u' :: s => do
    let (code, size, rest) ← unicodeCode s
    some ⟨[.ofCode code], size + 1, rest, false⟩
  | '\r' :: '\n' :: s => some ⟨[], 2, s, false⟩
  | '0' :: s =>
    match s with
    | d :: _ => some ⟨[.char '\x00'], 1, s, isOctal d⟩
    | [] => some ⟨[.char '\x00'], 1, s, false⟩
  | c :: s =>
    if isLineBreak c then some ⟨[], 1, s, false⟩
    else
      match controlEscape? c with
      | some e => some ⟨[.char e], 1, s, false⟩
      | none => some ⟨[.char c], 1, s, isOctal c⟩

/-- A string read so far, its units in reverse. -/
structure StringScan where
  units : List StringUnit
  size : Nat
  rest : List Char
  octal : Bool

/-- Read on in a string up to its closing quote. -/
def scanString (quote : Char) : Nat → StringScan → Option StringScan
  | 0, _ => none
  | bound + 1, w =>
    match w.rest with
    | [] => none
    | c :: s =>
      if c == quote then some { w with size := w.size + 1, rest := s }
      else if c == '\\' then
        match scanEscape s with
        | none => none
        | some e =>
          scanString quote bound
            ⟨e.units.reverse ++ w.units, w.size + 1 + e.size, e.rest, w.octal || e.octal⟩
      else if c == '\n' || c == '\r' then none
      else scanString quote bound ⟨.char c :: w.units, w.size + 1, s, w.octal⟩

/-- Read digits in the class `p`, with single underscores between them; gives the number of characters
and the text behind, or `none` when an underscore is not between two digits. -/
def scanDigits (p : Char → Bool) : Bool → List Char → Nat → Option (Nat × List Char)
  | seen, c :: s, n =>
    if p c then scanDigits p true s (n + 1)
    else if c == '_' then
      match s with
      | d :: _ => if seen && p d then scanDigits p false s (n + 1) else none
      | [] => none
    else some (n, c :: s)
  | _, [], n => some (n, [])

/-- A number: its kind, size, the text behind it and whether its spelling is a legacy one. -/
structure NumberScan where
  kind : Lexeme
  size : Nat
  rest : List Char
  legacy : Bool

/-- Read an optional exponent. -/
def scanExponent (n : Nat) : List Char → Option (Nat × List Char)
  | e :: s =>
    if e == 'e' || e == 'E' then
      let (n, s) :=
        match s with
        | c :: t => if c == '+' || c == '-' then (n + 2, t) else (n + 1, s)
        | [] => (n + 1, s)
      match scanDigits Char.isDigit false s 0 with
      | some (0, _) => none
      | some (k, t) => some (n + k, t)
      | none => none
    else some (n, e :: s)
  | [] => some (n, [])

/-- Read the fraction digits behind a decimal point and an exponent. -/
def scanFraction (n : Nat) (s : List Char) : Option NumberScan := do
  let (k, s) ← scanDigits Char.isDigit false s 0
  let (n, s) ← scanExponent (n + k) s
  some ⟨.number, n, s, false⟩

/-- Read digits of a base behind `0x`, `0o` or `0b`. -/
def scanRadix (p : Char → Bool) (s : List Char) : Option NumberScan :=
  match scanDigits p false s 0 with
  | some (0, _) => none
  | some (k, 'n' :: t) => some ⟨.bigint, k + 3, t, false⟩
  | some (k, t) => some ⟨.number, k + 2, t, false⟩
  | none => none

/-- Read a number that starts with a digit or with a point and a digit. -/
def scanNumber : List Char → Option NumberScan
  | '.' :: s => scanFraction 1 s
  | '0' :: c :: s =>
    if c == 'x' || c == 'X' then scanRadix (fun d => (hexDigit? d).isSome) s
    else if c == 'o' || c == 'O' then scanRadix isOctal s
    else if c == 'b' || c == 'B' then scanRadix (fun d => d == '0' || d == '1') s
    else if c == '_' then none
    else if c.isDigit then
      (scanDigits Char.isDigit false (c :: s) 0).map fun (k, t) => ⟨.number, k + 1, t, true⟩
    else if c == '.' then scanFraction 2 s
    else if c == 'n' then some ⟨.bigint, 2, s, false⟩
    else (scanExponent 1 (c :: s)).map fun (n, t) => ⟨.number, n, t, false⟩
  | s =>
    match scanDigits Char.isDigit false s 0 with
    | none => none
    | some (n, '.' :: t) => scanFraction (n + 1) t
    | some (n, 'n' :: t) => some ⟨.bigint, n + 1, t, false⟩
    | some (n, t) => (scanExponent n t).map fun (n, t) => ⟨.number, n, t, false⟩

/-- Whether a word or digit stands right behind a number, which is then no number. -/
def touchesWord : List Char → Bool
  | c :: _ => isIdentifierStart c || c.isDigit || c == '\\'
  | [] => false

/-- Operators of several characters, longer ones before their own beginnings. -/
def longMarks : List String :=
  ["...", "===", "!==", "**=", "&&=", "||=", "??=", "=>", "==", "!=", "++", "--", "+=", "-=", "*=",
    "/=", "%=", "&=", "|=", "^=", "&&", "||", "??", "**"]

/-- The characters that are marks of their own. -/
def shortMarks : List Char :=
  ['\x7b', '\x7d', '(', ')', '[', ']', ';', ',', '<', '>', '+', '-', '*', '/', '%', '&', '|', '^', '!',
    '~', '?', ':', '=', '.', '@', '\x60']

/-- The longest mark at the start of a text. -/
def scanMark (s : List Char) : Option (String × List Char) :=
  match s with
  | '?' :: '.' :: t =>
    match t with
    | d :: _ => if d.isDigit then some ("?", '.' :: t) else some ("?.", t)
    | [] => some ("?.", t)
  | _ =>
    match longMarks.findSome? (fun m => (dropMark m.toList s).map fun t => (m, t)) with
    | some found => some found
    | none =>
      match s with
      | c :: t => if shortMarks.contains c then some (String.ofList [c], t) else none
      | [] => none
where
  /-- The text behind a mark. -/
  dropMark : List Char → List Char → Option (List Char)
    | [], t => some t
    | _ :: _, [] => none
    | a :: m, c :: t => if a == c then dropMark m t else none

/-- Whether a comment of the old markup kind starts here. -/
def isMarkupComment : List Char → Bool
  | '<' :: '!' :: '-' :: '-' :: _ => true
  | _ => false

/-- Read the token at the start of a text that has no blank or comment in front; `bound` is at least
the length of the text. -/
def Token.readHere (bound : Nat) (gap : Gap) : Token :=
  let make (lexeme : Lexeme) (size : Nat) (rest : List Char) (faulty : Bool) : Token :=
    ⟨lexeme, gap.offset, gap.offset + size, gap.broken, faulty, gap.rest, rest⟩
  let bad := make .bad 1 (gap.rest.drop 1) true
  if !gap.closed then bad
  else
    match gap.rest with
    | [] => make .done 0 [] false
    | c :: s =>
      if isIdentifierStart c || c == '\\' then
        match scanWord bound ⟨[], false, 0, c :: s⟩ with
        | some w =>
          if w.name.isEmpty then bad
          else make (.word (String.ofList w.name.reverse) w.escaped) w.size w.rest false
        | none => bad
      else if c == '#' then
        match scanWord bound ⟨[], false, 0, s⟩ with
        | some w =>
          if w.name.isEmpty then bad
          else make (.hash (String.ofList w.name.reverse)) (w.size + 1) w.rest false
        | none => bad
      else if c == '\x22' || c == '\x27' then
        match scanString c bound ⟨[], 1, s, false⟩ with
        | some w =>
          make (.string (String.ofList (unitsText w.units.reverse))) w.size w.rest w.octal
        | none => bad
      else if c.isDigit || (c == '.' && (s.head?.map Char.isDigit).getD false) then
        match scanNumber (c :: s) with
        | some w => if touchesWord w.rest then bad else make w.kind w.size w.rest w.legacy
        | none => bad
      else if isMarkupComment (c :: s) then bad
      else
        match scanMark (c :: s) with
        | some (m, rest) =>
          let closesMarkup := m == "--" && gap.broken && rest.head? == some '>'
          make (.mark m) m.length rest closesMarkup
        | none => bad

/-- Read the next token of a text that starts at the given offset. -/
def Token.read (bound : Nat) (s : List Char) (offset : Nat) : Token :=
  Token.readHere bound (skipGap s offset false)

end Script
end StoryDocs
