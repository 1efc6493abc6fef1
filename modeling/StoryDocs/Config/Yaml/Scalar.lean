import StoryDocs.Config.Yaml.Cursor
import StoryDocs.Text.Digit

/-!
# Scalars

The texts of an indented configuration: plain ones, quoted ones, and blocks of lines.
-/

namespace StoryDocs
namespace Config
namespace Yaml

open Text

/-- How a scalar is written. -/
inductive ScalarStyle where
  | plain
  | quoted
  | literal
  | folded
  deriving DecidableEq, Repr, Inhabited

/-- The marks of flow collections. -/
def isFlowMark (c : Char) : Bool :=
  c == ',' || c == '[' || c == ']' || c == '\x7b' || c == '\x7d'

/-- Read the characters of a plain scalar up to a blank or a mark that ends it. -/
def plainRun (flow : Bool) : List Char → Option (List Char)
  | [] => some []
  | c :: s =>
    if isSpace c || isBreak c then some []
    else if flow && c == ':' && (s.head?.map fun d => isFlowMark d || d == '?').getD false then none
    else if (c == ':' && atBlank s) || (flow && isFlowMark c) then some []
    else (plainRun flow s).map (c :: ·)

/-- Read a plain scalar from a gap on; `text` is what was read, and the result tells whether a line end
comes behind the scalar.  `fuel` bounds the number of runs. -/
def plainFrom (flow : Bool) (indent : Int) :
    Nat → List Char → Gap → Cursor → Option (List Char × Bool × Cursor)
  | 0, _, _, _ => none
  | fuel + 1, text, gap, c =>
    if c.atDocumentMark || c.head? == some '#' then some (text, gap.first.isSome, c)
    else do
      let run ← plainRun flow c.rest
      if run.isEmpty then some (text, gap.first.isSome, c)
      else
        let text := text ++ gap.fold ++ run
        let c := c.advance run.length
        if c.rest.isEmpty || !atBlank c.rest then some (text, false, c)
        else
          let (gap, c) ← Gap.read indent (c.rest.length + 1) {} c
          if !flow && (c.column : Int) < indent then some (text, gap.first.isSome, c)
          else plainFrom flow indent fuel text gap c

/-- Read a plain scalar. -/
def plain (flow : Bool) (indent : Int) (c : Cursor) : Option (List Char × Bool × Cursor) :=
  plainFrom flow indent (c.rest.length + 1) [] {} c

/-- Read `n` hexadecimal digits of an escape. -/
def hexEscape? (n : Nat) (c : Cursor) : Option (Char × Cursor) :=
  let digits := c.rest.take n
  if digits.length == n then
    ((hex? digits).bind scalar?).map fun ch => (ch, c.advance n)
  else none

/-- Read an escape behind its backslash. -/
def escape? (c : Cursor) : Option (Char × Cursor) :=
  let short (ch : Char) : Option (Char × Cursor) := some (ch, c.advance 1)
  match c.head? with
  | some '0' => short '\x00'
  | some 'a' => short '\x07'
  | some 'b' => short '\x08'
  | some 't' => short '\t'
  | some '\t' => short '\t'
  | some 'n' => short '\n'
  | some 'v' => short '\x0b'
  | some 'f' => short '\x0c'
  | some 'r' => short '\r'
  | some 'e' => short '\x1b'
  | some ' ' => short ' '
  | some '\x22' => short '\x22'
  | some '/' => short '/'
  | some '\\' => short '\\'
  | some 'N' => short '\u0085'
  | some '_' => short '\u00a0'
  | some 'L' => short '\u2028'
  | some 'P' => short '\u2029'
  | some 'x' => hexEscape? 2 (c.advance 1)
  | some 'u' => hexEscape? 4 (c.advance 1)
  | some 'U' => hexEscape? 8 (c.advance 1)
  | _ => none

/-- Read a quoted scalar up to its closing quote; `fuel` bounds its length. -/
def quoted (single : Bool) : Nat → Cursor → Option (List Char × Cursor)
  | 0, _ => none
  | fuel + 1, c =>
    if c.atDocumentMark then none
    else
      match c.rest with
      | [] => none
      | '\x27' :: rest =>
        if !single then (quoted single fuel (c.advance 1)).map fun (t, c) => ('\x27' :: t, c)
        else if rest.head? == some '\x27' then
          (quoted single fuel (c.advance 2)).map fun (t, c) => ('\x27' :: t, c)
        else some ([], c.advance 1)
      | '\x22' :: _ =>
        if single then (quoted single fuel (c.advance 1)).map fun (t, c) => ('\x22' :: t, c)
        else some ([], c.advance 1)
      | b :: rest =>
        if isSpace b || isBreak b then do
          let (gap, c) ← Gap.read 0 (c.rest.length + 1) {} c
          let (t, c) ← quoted single fuel c
          return (gap.fold ++ t, c)
        else if b == '\\' && !single then
          if !rest.isEmpty && atBreak rest then do
            let c := (c.advance 1).passBreak
            let (gap, c) ← Gap.read 0 (c.rest.length + 1) { first := some [] } c
            let (t, c) ← quoted single fuel c
            return (gap.fold ++ t, c)
          else do
            let (ch, c) ← escape? (c.advance 1)
            let (t, c) ← quoted single fuel c
            return (ch :: t, c)
        else (quoted single fuel (c.advance 1)).map fun (t, c) => (b :: t, c)

/-- What becomes of the line ends behind a block scalar. -/
inductive Chomping where
  | strip
  | clip
  | keep
  deriving DecidableEq, Repr, Inhabited

/-- Read the mark of a chomping. -/
def chomping? : Option Char → Option Chomping
  | some '+' => some .keep
  | some '-' => some .strip
  | _ => none

/-- Read the depth of a block scalar, a digit that is no zero; fails on a zero. -/
def increment? (c : Cursor) : Option (Nat × Cursor) :=
  match c.head? with
  | some d =>
    if d == '0' then none
    else if d.isDigit then some (d.toNat - '0'.toNat, c.advance 1)
    else some (0, c)
  | none => some (0, c)

/-- Read the header of a block scalar: chomping and depth in any order. -/
def blockHeader (c : Cursor) : Option (Chomping × Nat × Cursor) :=
  match chomping? c.head? with
  | some chomping => (increment? (c.advance 1)).map fun (n, c) => (chomping, n, c)
  | none => do
    let (n, c) ← increment? c
    match (if n == 0 then none else chomping? c.head?) with
    | some chomping => return (chomping, n, c.advance 1)
    | none => return (.clip, n, c)

/-- Pass blank lines and indentation in a block scalar; an `indent` of zero is not known yet, and
`deepest` is the deepest indentation so far.  `fuel` bounds the number of lines. -/
def blockBreaks (indent : Nat) : Nat → Nat → List Char → Cursor → Option (List Char × Nat × Cursor)
  | 0, _, _, _ => none
  | fuel + 1, deepest, breaks, c =>
    let room := if indent == 0 then c.rest.length else indent - c.column
    let c := c.advance ((c.rest.take room).takeWhile (· == ' ')).length
    let deepest := max deepest c.column
    if (indent == 0 || c.column < indent) && c.head? == some '\t' then none
    else
      match c.breakLine? with
      | some (b, c) => blockBreaks indent fuel deepest (breaks ++ [b]) c
      | none => some (breaks, deepest, c)

/-- Read the lines of a block scalar; `text` is what was read, `ended` the line end of the last line and
`breaks` the blank lines behind it.  `fuel` bounds the number of lines. -/
def blockLines (literal : Bool) (indent : Nat) :
    Nat → List Char → Bool → List Char → List Char → Cursor →
      Option (List Char × List Char × List Char × Cursor)
  | 0, _, _, _, _, _ => none
  | fuel + 1, text, wasBlank, ended, breaks, c =>
    if c.column != indent || c.rest.isEmpty then some (text, ended, breaks, c)
    else do
      let isBlank := (c.head?.map isSpace).getD false
      let text :=
        if !literal && ended == ['\n'] && !wasBlank && !isBlank then
          text ++ (if breaks.isEmpty then [' '] else breaks)
        else text ++ ended ++ breaks
      let line := c.rest.takeWhile fun ch => !isBreak ch
      let c := c.advance line.length
      let (ended, c) := match c.breakLine? with
        | some (b, c) => ([b], c)
        | none => ([], c)
      let (breaks, _, c) ← blockBreaks indent (c.rest.length + 1) 0 [] c
      blockLines literal indent fuel (text ++ line) isBlank ended breaks c

/-- Read a block scalar behind its mark; `parent` is the indentation of the block that holds it. -/
def block (literal : Bool) (parent : Int) (c : Cursor) : Option (List Char × Cursor) := do
  let (chomping, increment, c) ← blockHeader c
  let c := c.advanceWhile isSpace
  let c := if c.head? == some '#' then c.advanceWhile (fun ch => !isBreak ch) else c
  guard (atBreak c.rest)
  let c := c.passBreak
  let known := if increment == 0 then 0 else (max parent 0).toNat + increment
  let (breaks, deepest, c) ← blockBreaks known (c.rest.length + 1) 0 [] c
  let indent := if known == 0 then max deepest (max (parent + 1).toNat 1) else known
  let (text, ended, breaks, c) ←
    blockLines literal indent (c.rest.length + 1) [] false [] breaks c
  match chomping with
  | .strip => return (text, c)
  | .clip => return (text ++ ended, c)
  | .keep => return (text ++ ended ++ breaks, c)

end Yaml
end Config
end StoryDocs
