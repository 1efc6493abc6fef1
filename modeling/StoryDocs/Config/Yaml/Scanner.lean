import StoryDocs.Config.Yaml.Scalar

/-!
# Tokens of indented configurations

Indentation becomes tokens of its own.  Whether a text is a key is known only at the colon behind it, so
each level of brackets remembers where a key may have begun, and the tokens that open it are put there
later.
-/

namespace StoryDocs
namespace Config
namespace Yaml

/-- A token. -/
inductive Token where
  | version (major minor : Nat)
  /-- A directive that gives a tag handle its meaning. -/
  | handle (name lead : List Char)
  | documentStart
  | documentEnd
  | blockSequence
  | blockMapping
  | blockEnd
  | flowSequenceStart
  | flowSequenceEnd
  | flowMappingStart
  | flowMappingEnd
  | blockEntry
  | flowEntry
  | key
  | value
  | alias (name : List Char)
  | anchor (name : List Char)
  | tag (handle suffix : List Char)
  | scalar (text : List Char) (style : ScalarStyle)
  deriving DecidableEq, Repr, Inhabited

/-- A token that may turn out to begin a key. -/
structure PendingKey where
  /-- Whether nothing else than a key can stand there. -/
  required : Bool
  /-- How many tokens come before it. -/
  position : Nat
  line : Nat
  column : Nat
  index : Nat
  deriving DecidableEq, Repr, Inhabited

/-- The state of reading tokens. -/
structure Scan where
  cursor : Cursor
  /-- The tokens so far, the last one first. -/
  tokens : List Token := []
  /-- The key that may have begun on the level at hand. -/
  pending : Option PendingKey := none
  /-- The same for the levels of brackets around it. -/
  outer : List (Option PendingKey) := []
  /-- The column of the block at hand; a document without blocks has `-1`. -/
  indent : Int := -1
  /-- The columns of the blocks around it. -/
  indents : List Int := []
  /-- Whether a key may begin here. -/
  keyAllowed : Bool := true
  deriving Repr, Inhabited

namespace Scan

/-- Whether the cursor is inside brackets. -/
def inFlow (s : Scan) : Bool :=
  !s.outer.isEmpty

/-- Add a token. -/
def emit (t : Token) (s : Scan) : Scan :=
  { s with tokens := t :: s.tokens }

/-- Put a token behind the first `position` tokens. -/
def emitAt (position : Nat) (t : Token) (s : Scan) : Scan :=
  let later := s.tokens.length - position
  { s with tokens := s.tokens.take later ++ t :: s.tokens.drop later }

/-- Forget the pending key; fails if nothing else could stand there. -/
def dropKey (s : Scan) : Option Scan :=
  match s.pending with
  | some key => if key.required then none else some { s with pending := none }
  | none => some s

/-- Remember that a key may begin here. -/
def saveKey (s : Scan) : Option Scan :=
  if s.keyAllowed then do
    let required := !s.inFlow && s.indent == (s.cursor.column : Int)
    let s ← s.dropKey
    return { s with
      pending := some ⟨required, s.tokens.length, s.cursor.line, s.cursor.column, s.cursor.index⟩ }
  else some s

/-- Whether a key that began earlier can still end here: on the same line, and not too far off. -/
def isFresh (s : Scan) (key : PendingKey) : Bool :=
  key.line == s.cursor.line && s.cursor.index ≤ key.index + 1024

/-- Forget a key that can no longer end here. -/
def expire (s : Scan) : Option PendingKey → Option (Option PendingKey)
  | none => some none
  | some key =>
    if s.isFresh key then some (some key)
    else if key.required then none
    else some none

/-- Forget all keys that can no longer end here. -/
def expireKeys (s : Scan) : Option Scan := do
  return { s with pending := ← s.expire s.pending, outer := ← s.outer.mapM s.expire }

/-- Open a block at a column, unless one is open there; its token goes to a position. -/
def openBlock (column : Nat) (position : Nat) (t : Token) (s : Scan) : Scan :=
  if !s.inFlow && s.indent < (column : Int) then
    { s.emitAt position t with indent := column, indents := s.indent :: s.indents }
  else s

/-- Close the blocks of the given columns that are deeper than a column. -/
def closeTo (column : Int) : List Int → Scan → Scan
  | [], s => s
  | outer :: indents, s =>
    if column < s.indent then
      closeTo column indents { s.emit .blockEnd with indent := outer, indents := indents }
    else s

/-- Close the blocks that are deeper than a column. -/
def closeBlocks (column : Int) (s : Scan) : Scan :=
  if s.inFlow then s else closeTo column s.indents s

/-- Skip blanks, comments and line ends; `fuel` bounds the number of lines. -/
def skipTrivia : Nat → Scan → Scan
  | 0, s => s
  | fuel + 1, s =>
    let tabs := s.inFlow || !s.keyAllowed
    let c := s.cursor.advanceWhile fun ch => ch == ' ' || (tabs && ch == '\t')
    let c := if c.head? == some '#' then c.advanceWhile (fun ch => !isBreak ch) else c
    match c.breakLine? with
    | some (_, c) =>
      skipTrivia fuel { s with cursor := c, keyAllowed := s.keyAllowed || !s.inFlow }
    | none => { s with cursor := c }

/-- Move over characters of one line. -/
def advance (n : Nat) (s : Scan) : Scan :=
  { s with cursor := s.cursor.advance n }

/-- Leave all blocks before a document mark or a directive. -/
def leaveDocument (s : Scan) : Option Scan := do
  let s ← (s.closeBlocks (-1)).dropKey
  return { s with keyAllowed := false }

/-- Read an opening bracket. -/
def openFlow (t : Token) (s : Scan) : Option Scan := do
  let s ← s.saveKey
  return { (s.emit t).advance 1 with
    pending := none, outer := s.pending :: s.outer, keyAllowed := true }

/-- Read a closing bracket. -/
def closeFlow (t : Token) (s : Scan) : Option Scan := do
  let s ← s.dropKey
  let s := { (s.emit t).advance 1 with keyAllowed := false }
  match s.outer with
  | [] => return s
  | pending :: outer => return { s with pending := pending, outer := outer }

/-- Read a comma between brackets. -/
def flowEntry (s : Scan) : Option Scan := do
  let s ← s.dropKey
  return { (s.emit .flowEntry).advance 1 with keyAllowed := true }

/-- Read the hyphen of an item. -/
def blockEntry (s : Scan) : Option Scan := do
  guard (s.inFlow || s.keyAllowed)
  let s := s.openBlock s.cursor.column s.tokens.length .blockSequence
  let s ← s.dropKey
  return { (s.emit .blockEntry).advance 1 with keyAllowed := true }

/-- Read the question mark of a key. -/
def explicitKey (s : Scan) : Option Scan := do
  guard (s.inFlow || s.keyAllowed)
  let s := s.openBlock s.cursor.column s.tokens.length .blockMapping
  let s ← s.dropKey
  return { (s.emit .key).advance 1 with keyAllowed := !s.inFlow }

/-- Read the colon of a value. -/
def value (s : Scan) : Option Scan :=
  match s.pending with
  | some key =>
    let s := s.emitAt key.position .key
    let s := s.openBlock key.column key.position .blockMapping
    some { (s.emit .value).advance 1 with pending := none, keyAllowed := false }
  | none => do
    guard (s.inFlow || s.keyAllowed)
    let s := s.openBlock s.cursor.column s.tokens.length .blockMapping
    return { (s.emit .value).advance 1 with keyAllowed := !s.inFlow }

/-- The characters that may follow the name of an anchor directly. -/
def endsAnchor (c : Char) : Bool :=
  c == '?' || c == ':' || c == ',' || c == ']' || c == '\x7d' || c == '%' || c == '@' || c == '\x60'

/-- Read the name of an anchor or alias behind its mark. -/
def anchorName (make : List Char → Token) (s : Scan) : Option Scan := do
  let s ← s.saveKey
  let c := s.cursor.advance 1
  let name := c.rest.takeWhile isWordChar
  let c := c.advance name.length
  guard (!name.isEmpty && (atBlank c.rest || (c.head?.map endsAnchor).getD false))
  return { s.emit (make name) with cursor := c, keyAllowed := false }

/-- Characters of tags beside those of names. -/
def isTagMark (c : Char) : Bool :=
  ";/?:@&=+$.!~*\x27()".toList.contains c

/-- The bytes of percent escapes, as long as there are any. -/
def percentBytes : List Char → Option (List UInt8 × List Char)
  | '%' :: a :: b :: s => do
    let n ← Text.hex? [a, b]
    let (bytes, rest) ← percentBytes s
    return (n.toUInt8 :: bytes, rest)
  | '%' :: _ => none
  | s => some ([], s)

/-- Read the text of a tag; `wide` also takes commas and brackets, and `fuel` bounds the length. -/
def tagText (wide : Bool) : Nat → List Char → Option (List Char × List Char)
  | 0, _ => none
  | fuel + 1, s =>
    match s with
    | [] => some ([], [])
    | '%' :: _ => do
      let (bytes, rest) ← percentBytes s
      let text ← String.fromUTF8? ⟨bytes.toArray⟩
      let (more, rest) ← tagText wide fuel rest
      return (text.toList ++ more, rest)
    | c :: rest =>
      if isWordChar c || isTagMark c || (wide && (c == ',' || c == '[' || c == ']')) then
        (tagText wide fuel rest).map fun (text, rest) => (c :: text, rest)
      else some ([], s)

/-- Read a tag behind its exclamation mark: a handle and the text behind it. -/
def tagParts (s : List Char) : Option ((List Char × List Char) × List Char) :=
  match s with
  | '<' :: s => do
    let (text, rest) ← tagText true (s.length + 1) s
    guard (!text.isEmpty)
    match rest with
    | '>' :: rest => return (([], text), rest)
    | _ => none
  | _ =>
    let name := s.takeWhile isWordChar
    match s.dropWhile isWordChar with
    | '!' :: rest => do
      let (text, rest) ← tagText false (rest.length + 1) rest
      guard (!text.isEmpty)
      return (('!' :: name ++ ['!'], text), rest)
    | rest => do
      let (text, rest) ← tagText false (rest.length + 1) rest
      let text := name ++ text
      return (if text.isEmpty then ([], ['!']) else (['!'], text), rest)

/-- Read a tag. -/
def tag (s : Scan) : Option Scan := do
  let s ← s.saveKey
  let c := s.cursor.advance 1
  let ((handle, suffix), rest) ← tagParts c.rest
  guard (atBlank rest || (s.inFlow && rest.head? == some ','))
  return { s.emit (.tag handle suffix) with
    cursor := c.advance (c.rest.length - rest.length), keyAllowed := false }

/-- Read a block scalar. -/
def blockScalar (literal : Bool) (s : Scan) : Option Scan := do
  let s ← s.dropKey
  let (text, c) ← block literal s.indent (s.cursor.advance 1)
  return { s.emit (.scalar text (if literal then .literal else .folded)) with
    cursor := c, keyAllowed := true }

/-- Read a quoted scalar. -/
def quotedScalar (single : Bool) (s : Scan) : Option Scan := do
  let s ← s.saveKey
  let c := s.cursor.advance 1
  let (text, c) ← quoted single (c.rest.length + 1) c
  return { s.emit (.scalar text .quoted) with cursor := c, keyAllowed := false }

/-- Read a plain scalar. -/
def plainScalar (s : Scan) : Option Scan := do
  let s ← s.saveKey
  let (text, broken, c) ← plain s.inFlow (s.indent + 1) s.cursor
  return { s.emit (.scalar text .plain) with cursor := c, keyAllowed := broken }

/-- Read up to nine decimal digits. -/
def versionNumber (s : List Char) : Option (Nat × List Char) := do
  let digits := s.takeWhile Char.isDigit
  guard (!digits.isEmpty && digits.length ≤ 9)
  return (Text.inBase 10 digits, s.drop digits.length)

/-- Read the parts of a directive behind its name. -/
def directiveToken (name s : List Char) : Option (Token × List Char) :=
  match String.ofList name with
  | "YAML" => do
    let (major, s) ← versionNumber (s.dropWhile isSpace)
    match s with
    | '.' :: s =>
      let (minor, s) ← versionNumber s
      return (.version major minor, s)
    | _ => none
  | "TAG" =>
    match s.dropWhile isSpace with
    | '!' :: s => do
      let word := s.takeWhile isWordChar
      let rest := s.dropWhile isWordChar
      let (handle, rest) ←
        match rest with
        | '!' :: rest => some ('!' :: word ++ ['!'], rest)
        | _ => if word.isEmpty then some (['!'], rest) else none
      guard ((rest.head?.map isSpace).getD false)
      let start := rest.dropWhile isSpace
      let (text, rest) ← tagText true (start.length + 1) start
      guard (!text.isEmpty && atBlank rest)
      return (.handle handle text, rest)
    | _ => none
  | _ => none

/-- Read a directive up to the end of its line. -/
def directive (s : Scan) : Option Scan := do
  let s ← s.leaveDocument
  let c := s.cursor.advance 1
  let name := c.rest.takeWhile isWordChar
  let behind := c.rest.drop name.length
  guard (!name.isEmpty && atBlank behind)
  let (t, rest) ← directiveToken name behind
  let c := (c.advance (c.rest.length - rest.length)).advanceWhile isSpace
  let c := if c.head? == some '#' then c.advanceWhile (fun ch => !isBreak ch) else c
  guard (atBreak c.rest)
  return { s.emit t with cursor := c.passBreak }

/-- Read the mark of a document. -/
def documentMark (t : Token) (s : Scan) : Option Scan := do
  return (← s.leaveDocument).emit t |>.advance 3

/-- Marks that begin no plain scalar. -/
def isIndicator (c : Char) : Bool :=
  "-?:,[]\x7b\x7d#&*!|>\x27\x22%@\x60".toList.contains c

/-- Whether a plain scalar begins with `c` in front of `rest`. -/
def startsPlain (flow : Bool) (c : Char) (rest : List Char) : Bool :=
  (!isIndicator c && !isSpace c) ||
    (c == '-' && !(rest.head?.map isSpace).getD false) ||
    (!flow && (c == '?' || c == ':') && !atBlank rest)

/-- Read the next token at a character that is neither blank nor a comment. -/
def token (c : Char) (rest : List Char) (s : Scan) : Option Scan :=
  if s.cursor.column == 0 && c == '%' then s.directive
  else if s.cursor.atDocumentMark then
    s.documentMark (if c == '-' then .documentStart else .documentEnd)
  else if c == '[' then s.openFlow .flowSequenceStart
  else if c == '\x7b' then s.openFlow .flowMappingStart
  else if c == ']' then s.closeFlow .flowSequenceEnd
  else if c == '\x7d' then s.closeFlow .flowMappingEnd
  else if c == ',' then s.flowEntry
  else if c == '-' && atBlank rest then s.blockEntry
  else if c == '?' && (s.inFlow || atBlank rest) then s.explicitKey
  else if c == ':' && (s.inFlow || atBlank rest) then s.value
  else if c == '*' then s.anchorName .alias
  else if c == '&' then s.anchorName .anchor
  else if c == '!' then s.tag
  else if c == '|' && !s.inFlow then s.blockScalar true
  else if c == '>' && !s.inFlow then s.blockScalar false
  else if c == '\x27' then s.quotedScalar true
  else if c == '\x22' then s.quotedScalar false
  else if startsPlain s.inFlow c rest then s.plainScalar
  else none

/-- Read all tokens; `fuel` bounds their number. -/
def run : Nat → Scan → Option (List Token)
  | 0, _ => none
  | fuel + 1, s => do
    let s ← (skipTrivia (s.cursor.rest.length + 1) s).expireKeys
    match s.cursor.rest with
    | [] =>
      let s ← (s.closeBlocks (-1)).dropKey
      return s.tokens.reverse
    | c :: rest =>
      let s ← (s.closeBlocks s.cursor.column).token c rest
      run fuel s

end Scan

/-- The start of a configuration; a byte order mark takes up a column. -/
def startOf (text : List Char) : Cursor :=
  let start : Cursor := { rest := text }
  if text.head? == some '\uFEFF' then start.advance 1 else start

/-- The tokens of a configuration. -/
def tokens? (text : List Char) : Option (List Token) := do
  guard (text.all isAllowed)
  Scan.run (text.length + 1) { cursor := startOf text }

end Yaml
end Config
end StoryDocs
