import StoryDocs.Markup.TagScan

/-!
# Reading documents

`Piece.ofText` says what starts at a place, and `State.step` takes it off the text.  The state keeps the
elements that are open, each with the nodes before it, so that what was read and what is left always
make up the source.
-/

namespace StoryDocs
namespace Markup

open Text

/-- What starts at a place, with how many characters it covers. -/
inductive Piece where
  | prose (size : Nat)
  | script (size : Nat)
  | expression (size : Nat)
  | opening (tag : OpeningTag) (size : Nat)
  | closing (name : List Char) (size : Nat)

namespace Piece

/-- What starts at an opening angle bracket. -/
def ofBracket (s : List Char) : Except Fault Piece :=
  if startsWith "<!--".toList s then .ok (.prose (commentLength s))
  else if startsWith "</".toList s then
    (readClosingTag s).map fun t => .closing t.value t.size
  else
    match autolinkLength? s with
    | some n => .ok (.prose n)
    | none =>
      match s with
      | _ :: c :: _ =>
        if c.isAlpha || c == '>' then (readOpeningTag s).map fun t => .opening t.value t.size
        else .ok (.prose 1)
      | _ => .ok (.prose 1)

/-- What starts at a place where neither a script block nor a code sample does. -/
def ofInline (s : List Char) : Except Fault Piece :=
  match s with
  | [] => .ok (.prose 0)
  | c :: t =>
    if c == '\\' then .ok (.prose (if t.isEmpty then 1 else 2))
    else if c == '\x60' then .ok (.prose (codeSpanLength s))
    else if c == '<' then ofBracket s
    else if c == '\x7b' then
      match groupLength? s with
      | some n => .ok (.expression n)
      | none => .error ⟨0, .unterminatedExpression⟩
    else .ok (.prose 1)

/-- What starts at a place; script blocks stand outside all elements. -/
def ofText (outside startsLine : Bool) (s : List Char) : Except Fault Piece :=
  if startsLine && outside && startsScript s then .ok (.script (scriptLength s))
  else
    match if startsLine then fencedLength? s else none with
    | some n => .ok (.prose n)
    | none => ofInline s

end Piece

/-- An open element: its tag, and the nodes before it with the last one first. -/
structure Frame where
  tag : Tag
  opening : List Char
  before : List Node

/-- How far a document is read. -/
structure State where
  /-- The open elements, the innermost first. -/
  frames : List Frame := []
  /-- The nodes of the innermost open element, the last one first. -/
  nodes : List Node := []
  /-- Prose that is not yet a node, in reverse. -/
  pending : List Char := []
  place : Place := .start
  rest : List Char

namespace State

/-- Make a node of the pending prose. -/
def flushed (s : State) : List Node :=
  if s.pending.isEmpty then s.nodes else .text s.pending.reverse :: s.nodes

/-- Move over the next `n` characters. -/
def skip (s : State) (n : Nat) : State :=
  { s with place := s.place.after (s.rest.take n), rest := s.rest.drop n }

/-- Take the next `n` characters as prose. -/
def takeProse (s : State) (n : Nat) : State :=
  { s.skip n with pending := (s.rest.take n).reverse ++ s.pending }

/-- Take the next `n` characters as a node. -/
def takeNode (s : State) (n : Nat) (node : Node) : State :=
  { s.skip n with pending := [], nodes := node :: s.flushed }

/-- Take an opening tag of `n` characters. -/
def takeOpening (s : State) (n : Nat) (t : OpeningTag) : State :=
  let opening := s.rest.take n
  let tag : Tag :=
    { name := t.name, attributes := t.tagEnd.attributes, flow := s.place.indented,
      position := s.place.position }
  if t.tagEnd.selfClosing then
    s.takeNode n (.element { tag with source := some ⟨opening, none⟩ } [])
  else
    { s.skip n with
      frames := ⟨tag, opening, s.flushed⟩ :: s.frames
      nodes := []
      pending := [] }

/-- Take a closing tag of `n` characters. -/
def takeClosing (s : State) (n : Nat) (name : List Char) : Except Error State :=
  match s.frames with
  | [] => .error ⟨.stray (String.ofList name), s.place.position⟩
  | f :: fs =>
    if name != f.tag.name then
      .error ⟨.mismatched (String.ofList f.tag.name) (String.ofList name), s.place.position⟩
    else
      let source : TagSource := ⟨f.opening, some (s.rest.take n)⟩
      let element := Node.element { f.tag with source := some source } s.flushed.reverse
      .ok { s.skip n with frames := fs, nodes := element :: f.before, pending := [] }

/-- Take the next piece off the text. -/
def step (s : State) : Except Error State :=
  match Piece.ofText s.frames.isEmpty s.place.startsLine s.rest with
  | .error f => .error (f.toError s.place.position s.rest)
  | .ok (.prose n) => .ok (s.takeProse n)
  | .ok (.script n) => .ok (s.takeNode n (.script (s.rest.take n)))
  | .ok (.expression n) =>
    .ok (s.takeNode n (.expression ((s.rest.drop 1).take (n - 2)) s.place.indented))
  | .ok (.opening t n) => .ok (s.takeOpening n t)
  | .ok (.closing name n) => s.takeClosing n name

/-- End the document. -/
def finish (s : State) : Except Error Document :=
  match s.frames with
  | [] => .ok ⟨s.flushed.reverse⟩
  | f :: _ => .error ⟨.unclosed (String.ofList f.tag.name), f.tag.position⟩

/-- Read on to the end of the text; every step takes at least one character, so the bound is the
length of the text. -/
def run : Nat → State → Except Error Document
  | 0, s => s.finish
  | bound + 1, s =>
    if s.rest.isEmpty then s.finish
    else
      match s.step with
      | .error e => .error e
      | .ok s => run bound s

end State

/-- Read a document. -/
def parse (source : List Char) : Except Error Document :=
  State.run source.length { rest := source }

end Markup
end StoryDocs
