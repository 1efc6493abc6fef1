import StoryDocs.Markup.Error
import StoryDocs.Markup.Node
import StoryDocs.Markup.Scan

/-!
# Tags

Opening and closing tags are read from the text at which they start.  A fault says how many characters
lie before the place it is reported at.
-/

namespace StoryDocs
namespace Markup

open Text

/-- What is wrong and how far behind the start. -/
structure Fault where
  after : Nat
  cause : Cause
  deriving DecidableEq, Repr, Inhabited

namespace Fault

/-- The fault of a text that does not go on as expected. -/
def unexpected (after : Nat) (rest : List Char) (expected : String) : Fault :=
  match rest with
  | c :: _ => ⟨after, .unexpected c expected⟩
  | [] => ⟨after, .unexpectedEnd expected⟩

/-- The same fault seen from further before. -/
def shift (n : Nat) (f : Fault) : Fault :=
  { f with after := n + f.after }

/-- The error of a fault in a text that starts at a position. -/
def toError (f : Fault) (start : Position) (s : List Char) : Error :=
  ⟨f.cause, start.after (s.take f.after)⟩

end Fault

/-- Whether a character can start the name of an attribute. -/
def startsName (c : Char) : Bool :=
  c.isAlpha || c == '_' || c == '$'

/-- Whether a character can stand in the name of an element or attribute. -/
def isNameChar (c : Char) : Bool :=
  isAsciiAlphanumeric c || c == '_' || c == '$' || c == '.' || c == ':' || c == '-'

/-- How many blanks stand at the start of a text. -/
def blankLength (s : List Char) : Nat :=
  (s.takeWhile isAsciiBlank).length

/-- Something read and how many characters it took. -/
structure Read (α : Type) where
  value : α
  size : Nat
  deriving Repr

/-- Read a group in braces and give the text between them. -/
def readGroup (s : List Char) : Except Fault (Read (List Char)) :=
  match groupLength? s with
  | some n => .ok ⟨(s.drop 1).take (n - 2), n⟩
  | none => .error ⟨0, .unterminatedExpression⟩

/-- Read spread attributes in braces. -/
def readSpread (s : List Char) : Except Fault (Read Attribute) :=
  match readGroup s with
  | .error f => .error f
  | .ok group =>
    match dropLead? "...".toList (trim group.value) with
    | some source => .ok ⟨.spread (trim source), group.size⟩
    | none => .error ⟨0, .invalidSpread⟩

/-- Read the value of the attribute `name` behind its equals sign and blanks; `before` characters lie
between the start of the name and the value. -/
def readValue (name : List Char) (before : Nat) (s : List Char) :
    Except Fault (Read AttributeValue) :=
  match s with
  | c :: t =>
    if c == '\x22' || c == '\x27' then
      let text := t.takeWhile (· != c)
      if text.length < t.length then .ok ⟨.literal text, text.length + 2⟩
      else .error ⟨0, .unterminatedAttribute (String.ofList name)⟩
    else if c == '\x7b' then
      match readGroup s with
      | .ok group => .ok ⟨.expression group.value, group.size⟩
      | .error f => .error (f.shift before)
    else .error (.unexpected before s "a quoted string or \x60\x7b\x60 after \x60=\x60")
  | [] => .error (.unexpected before s "a quoted string or \x60\x7b\x60 after \x60=\x60")

/-- Read an attribute with a name; blanks behind a name without a value belong to it. -/
def readProperty (s : List Char) : Except Fault (Read Attribute) :=
  let name := s.takeWhile isNameChar
  let rest := s.drop name.length
  let gap := blankLength rest
  match rest.drop gap with
  | '=' :: t =>
    let before := name.length + gap + 1 + blankLength t
    match readValue name before (t.drop (blankLength t)) with
    | .ok value => .ok ⟨.property name (some value.value), before + value.size⟩
    | .error f => .error f
  | _ => .ok ⟨.property name none, name.length + gap⟩

/-- The attributes of a tag and whether it closes itself. -/
structure TagEnd where
  attributes : List Attribute
  selfClosing : Bool
  deriving Repr

/-- Read attributes up to the end of an opening tag.  The bound is larger than the length of the
text. -/
def readAttributes : Nat → List Char → Except Fault (Read TagEnd)
  | 0, s => .error (.unexpected 0 s "an attribute, \x60/>\x60 or \x60>\x60")
  | bound + 1, s =>
    let gap := blankLength s
    let rest := s.drop gap
    let next (found : Except Fault (Read Attribute)) : Except Fault (Read TagEnd) :=
      match found with
      | .error f => .error (f.shift gap)
      | .ok a =>
        match readAttributes bound (rest.drop a.size) with
        | .error f => .error (f.shift (gap + a.size))
        | .ok e => .ok ⟨⟨a.value :: e.value.attributes, e.value.selfClosing⟩, gap + a.size + e.size⟩
    match rest with
    | '/' :: '>' :: _ => .ok ⟨⟨[], true⟩, gap + 2⟩
    | '>' :: _ => .ok ⟨⟨[], false⟩, gap + 1⟩
    | c :: _ =>
      if c == '\x7b' then next (readSpread rest)
      else if startsName c then next (readProperty rest)
      else .error (.unexpected gap rest "an attribute, \x60/>\x60 or \x60>\x60")
    | [] => .error (.unexpected gap rest "an attribute, \x60/>\x60 or \x60>\x60")

/-- An opening tag: its name and its end. -/
structure OpeningTag where
  name : List Char
  tagEnd : TagEnd
  deriving Repr

/-- Read an opening tag from its bracket on. -/
def readOpeningTag (s : List Char) : Except Fault (Read OpeningTag) :=
  let name := (s.drop 1).takeWhile isNameChar
  let rest := s.drop (name.length + 1)
  match readAttributes (rest.length + 1) rest with
  | .error f => .error (f.shift (name.length + 1))
  | .ok e => .ok ⟨⟨name, e.value⟩, name.length + 1 + e.size⟩

/-- Read a closing tag from its bracket on and give its name. -/
def readClosingTag (s : List Char) : Except Fault (Read (List Char)) :=
  let gap := blankLength (s.drop 2)
  let rest := s.drop (gap + 2)
  let name := rest.takeWhile isNameChar
  let tail := rest.drop name.length
  let size := gap + 2 + name.length + blankLength tail
  match tail.drop (blankLength tail) with
  | '>' :: _ => .ok ⟨name, size + 1⟩
  | other => .error (.unexpected size other "\x60>\x60 to end the closing tag")

end Markup
end StoryDocs
