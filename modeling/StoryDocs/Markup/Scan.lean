import StoryDocs.Text.Blank
import StoryDocs.Text.Line
import StoryDocs.Text.Slice

/-!
# Extents

How many characters of a text belong to what starts there: strings, templates and comments in embedded
code, groups in braces, script blocks, code samples, comments and links in prose.  Strings, templates and
comments are skipped as wholes, so that braces inside them do not count.
-/

namespace StoryDocs
namespace Markup

open Text

/-- The rest of a string up to its closing quote; a line feed or the end of the text ends none. -/
def stringLength? (quote : Char) : List Char → Option Nat
  | [] => none
  | ['\\'] => none
  | '\\' :: _ :: s => (stringLength? quote s).map (· + 2)
  | c :: s =>
    if c == '\n' then none
    else if c == quote then some 1
    else (stringLength? quote s).map (· + 1)

/-- The text up to the end of the line. -/
def restOfLine (s : List Char) : List Char :=
  s.takeWhile (· != '\n')

/-- The text up to the end of `mark`, or all of it. -/
def lengthThrough (mark : List Char) (s : List Char) : Nat :=
  match find? mark s with
  | some n => n + mark.length
  | none => s.length

/-- A string, template or comment at the start of a text, given how to measure the rest of a template.
A quote behind a letter or digit is an apostrophe, and a double slash behind a colon no comment. -/
def literalLength? (template : List Char → Option Nat) (before : Char) : List Char → Option Nat
  | '/' :: '/' :: s =>
    if before == ':' then none else some ((restOfLine s).length + 2)
  | '/' :: '*' :: s => some (lengthThrough ['*', '/'] s + 2)
  | c :: s =>
    if c == '\x22' || c == '\x27' then
      if isAsciiAlphanumeric before then none else (stringLength? c s).map (· + 1)
    else if c == '\x60' then (template s).map (· + 1)
    else none
  | [] => none

/-- The last of the first `n` characters. -/
def lastOf (n : Nat) (s : List Char) : Char :=
  ((s.take n).getLast?).getD ' '

mutual

/-- A group in braces of which `depth` are open, up to the brace that closes the last of them.  The
bound is larger than the length of the text. -/
def braceLength? : Nat → Nat → Char → List Char → Option Nat
  | 0, _, _, _ => none
  | _, _, _, [] => none
  | bound + 1, depth, before, c :: s =>
    match literalLength? (templateLength? bound) before (c :: s) with
    | some n =>
      (braceLength? bound depth (lastOf n (c :: s)) ((c :: s).drop n)).map (· + n)
    | none =>
      if c == '\x7b' then (braceLength? bound (depth + 1) c s).map (· + 1)
      else if c == '\x7d' then
        if depth ≤ 1 then some 1 else (braceLength? bound (depth - 1) c s).map (· + 1)
      else (braceLength? bound depth c s).map (· + 1)

/-- The rest of a template; one that does not end takes all of the text. -/
def templateLength? : Nat → List Char → Option Nat
  | 0, _ => none
  | _, [] => some 0
  | _, ['\\'] => some 1
  | bound + 1, '\\' :: _ :: s => (templateLength? bound s).map (· + 2)
  | bound + 1, '$' :: '\x7b' :: s =>
    match braceLength? bound 0 ' ' ('\x7b' :: s) with
    | none => none
    | some n => (templateLength? bound (('\x7b' :: s).drop n)).map (· + (n + 1))
  | bound + 1, c :: s =>
    if c == '\x60' then some 1 else (templateLength? bound s).map (· + 1)

end

/-- A group in braces at the start of a text, braces included. -/
def groupLength? (s : List Char) : Option Nat :=
  braceLength? (s.length + 1) 0 ' ' s

/-- Whether the line at the start of a text is blank; so is the end of the text. -/
def lineIsBlank (s : List Char) : Bool :=
  (restOfLine s).all isAsciiBlank

/-- A script block with `depth` brackets open: it runs to a line feed outside brackets with a blank line
behind it, or to the end of the text. -/
def scriptLengthFrom : Nat → Nat → Char → List Char → Nat
  | 0, _, _, s => s.length
  | _, _, _, [] => 0
  | bound + 1, depth, before, c :: s =>
    match literalLength? (templateLength? bound) before (c :: s) with
    | some n => scriptLengthFrom bound depth (lastOf n (c :: s)) ((c :: s).drop n) + n
    | none =>
      if c == '\x7b' || c == '[' || c == '(' then scriptLengthFrom bound (depth + 1) c s + 1
      else if c == '\x7d' || c == ']' || c == ')' then scriptLengthFrom bound (depth - 1) c s + 1
      else if c == '\n' && depth == 0 && lineIsBlank s then 0
      else scriptLengthFrom bound depth c s + 1

/-- A script block at the start of a text. -/
def scriptLength (s : List Char) : Nat :=
  scriptLengthFrom (s.length + 1) 0 ' ' s

/-- Whether a script block starts here: an import or export keyword with a blank, a brace, a star or the
end of the text behind it. -/
def startsScript (s : List Char) : Bool :=
  match (dropLead? "import".toList s).or (dropLead? "export".toList s) with
  | none => false
  | some [] => true
  | some (c :: _) => isBlank c || c == '\x7b' || c == '*'

/-- The fence that a line opens: its mark and how often that is repeated.  A fence of backticks has no
backtick behind it. -/
def fence? (line : List Char) : Option (Char × Nat) :=
  let body := line.dropWhile isIndent
  match body with
  | [] => none
  | mark :: _ =>
    if mark != '\x60' && mark != '~' then none
    else
      let count := (body.takeWhile (· == mark)).length
      let plain := mark == '~' || !(body.drop count).contains '\x60'
      if 3 ≤ count && plain then some (mark, count) else none

/-- Whether a line closes a fence of `count` marks. -/
def closesFence (mark : Char) (count : Nat) (line : List Char) : Bool :=
  match fence? line with
  | none => false
  | some (m, n) =>
    m == mark && count ≤ n && ((line.dropWhile isIndent).drop n).all isAsciiBlank

/-- The lines of a fenced block behind the first, each with the line feed before it. -/
def fenceBodyLength (mark : Char) (count : Nat) : List (List Char) → Nat
  | [] => 0
  | line :: rest =>
    line.length + 1 + if closesFence mark count line then 0 else fenceBodyLength mark count rest

/-- A fenced block at the start of a text, without the line feed behind it. -/
def fencedLength? (s : List Char) : Option Nat :=
  let first := restOfLine s
  (fence? first).map fun (mark, count) =>
    first.length + fenceBodyLength mark count ((pieces s).drop 1)

/-- The text up to the end of a run of exactly `run` backticks, of which `seen` come just before. -/
def closingRun? (run : Nat) : Nat → List Char → Option Nat
  | seen, [] => if seen == run then some 0 else none
  | seen, c :: s =>
    if c == '\x60' then (closingRun? run (seen + 1) s).map (· + 1)
    else if seen == run then some 0
    else (closingRun? run 0 s).map (· + 1)

/-- A code span at the start of a text, or the run of backticks alone if no other run matches it. -/
def codeSpanLength (s : List Char) : Nat :=
  let run := (s.takeWhile (· == '\x60')).length
  run + (closingRun? run 0 (s.drop run)).getD 0

/-- A comment at the start of a text. -/
def commentLength (s : List Char) : Nat :=
  lengthThrough "-->".toList s

/-- Whether a character can stand in the scheme of a link. -/
def isSchemeChar (c : Char) : Bool :=
  isAsciiAlphanumeric c || c == '+' || c == '.' || c == '-'

/-- A link with a scheme, behind its opening bracket. -/
def schemeLinkLength? : List Char → Option Nat
  | [] => none
  | c :: s =>
    let scheme := s.takeWhile isSchemeChar
    if !c.isAlpha || scheme.isEmpty || 31 < scheme.length then none
    else
      match s.drop scheme.length with
      | ':' :: t =>
        let target := t.takeWhile fun d => !isBlank d && d != '<' && d != '>'
        if (t.drop target.length).head? == some '>' then
          some (scheme.length + target.length + 3)
        else none
      | _ => none

/-- Whether a character can stand in front of the sign of a mail address. -/
def isMailboxChar (c : Char) : Bool :=
  isAsciiAlphanumeric c || ".!#$%&'*+/=?^_\x60\x7b|\x7d~-".toList.contains c

/-- Whether a part of a host name has no hyphen at its ends. -/
def isHostLabel (label : List Char) : Bool :=
  !label.isEmpty && label.head? != some '-' && label.getLast? != some '-'

/-- Cut a text at every point. -/
def pointPieces : List Char → List (List Char)
  | [] => [[]]
  | c :: s =>
    if c == '.' then [] :: pointPieces s
    else
      match pointPieces s with
      | [] => [[c]]
      | p :: ps => (c :: p) :: ps

/-- A link to a mail address, behind its opening bracket. -/
def mailLinkLength? (s : List Char) : Option Nat :=
  let mailbox := s.takeWhile isMailboxChar
  if mailbox.isEmpty then none
  else
    match s.drop mailbox.length with
    | '@' :: t =>
      let host := t.takeWhile fun c => isAsciiAlphanumeric c || c == '-' || c == '.'
      if (pointPieces host).all isHostLabel && (t.drop host.length).head? == some '>' then
        some (mailbox.length + host.length + 2)
      else none
    | _ => none

/-- A link in angle brackets at the start of a text. -/
def autolinkLength? : List Char → Option Nat
  | '<' :: s => ((schemeLinkLength? s).or (mailLinkLength? s)).map (· + 1)
  | _ => none

end Markup
end StoryDocs
