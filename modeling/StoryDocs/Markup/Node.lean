import StoryDocs.Markup.Position

/-!
# Documents

A document is a list of nodes: prose, script blocks, expressions in braces and elements.  An element
keeps the text of its tags until it is edited, so that a document prints as it was written.
-/

namespace StoryDocs
namespace Markup

open Text

/-- The value of a named attribute. -/
inductive AttributeValue where
  /-- A quoted text without its quotes. -/
  | literal (text : List Char)
  /-- The text between braces. -/
  | expression (source : List Char)
  deriving DecidableEq, Repr, Inhabited

/-- An attribute of an element. -/
inductive Attribute where
  /-- A name, alone or with a value. -/
  | property (name : List Char) (value : Option AttributeValue)
  /-- Attributes spread from an expression; the text behind the dots. -/
  | spread (source : List Char)
  deriving DecidableEq, Repr, Inhabited

namespace Attribute

/-- The name of an attribute, unless it is a spread one. -/
def name? : Attribute → Option (List Char)
  | property name _ => some name
  | spread _ => none

/-- The quoted value of an attribute. -/
def literal? : Attribute → Option (List Char)
  | property _ (some (.literal text)) => some text
  | _ => none

end Attribute

/-- The text of the tags of an element. -/
structure TagSource where
  opening : List Char
  /-- None for an element that closes itself. -/
  closing : Option (List Char)
  deriving DecidableEq, Repr, Inhabited

/-- An element without its children. -/
structure Tag where
  /-- The name; empty for a fragment. -/
  name : List Char
  attributes : List Attribute := []
  /-- Whether the element starts its line. -/
  flow : Bool := false
  position : Position := .nowhere
  /-- The text of the tags, if they are still as written. -/
  source : Option TagSource := none
  deriving DecidableEq, Repr, Inhabited

namespace Tag

/-- The first attribute with a name. -/
def attribute? (t : Tag) (name : List Char) : Option Attribute :=
  t.attributes.find? fun a => a.name? == some name

/-- Replace the attributes; the tags are written anew. -/
def withAttributes (t : Tag) (attributes : List Attribute) : Tag :=
  { t with attributes := attributes, source := none }

/-- Forget how the tags were written. -/
def unsourced (t : Tag) : Tag :=
  { t with source := none }

end Tag

/-- A node of a document. -/
inductive Node where
  | text (value : List Char)
  | script (value : List Char)
  /-- The text between braces, and whether it starts its line. -/
  | expression (value : List Char) (flow : Bool)
  | element (tag : Tag) (children : List Node)
  deriving Inhabited

namespace Node

/-- Whether a node is prose of blanks alone. -/
def isBlank : Node → Bool
  | text value => allBlank value
  | _ => false

/-- The text of a script block. -/
def script? : Node → Option (List Char)
  | script value => some value
  | _ => none

end Node

/-- The nodes of a document in order. -/
structure Document where
  children : List Node
  deriving Inhabited

namespace Document

/-- The script blocks of a document. -/
def scripts (d : Document) : List (List Char) :=
  d.children.filterMap Node.script?

end Document
end Markup
end StoryDocs
