import StoryDocs.Markup.Node

/-!
# Printing documents

Nodes print as they were written.  An element whose tags are not known, or that closed itself and has
children now, gets new tags from its attributes.
-/

namespace StoryDocs
namespace Markup

/-- An attribute as it is written in a new tag. -/
def Attribute.print : Attribute → List Char
  | .property name none => name
  | .property name (some (.literal text)) =>
    let quote := if text.contains '\x22' then '\x27' else '\x22'
    name ++ '=' :: quote :: text ++ [quote]
  | .property name (some (.expression source)) => name ++ '=' :: '\x7b' :: source ++ ['\x7d']
  | .spread source => '\x7b' :: '.' :: '.' :: '.' :: source ++ ['\x7d']

/-- The start of a new tag: its name and attributes. -/
def Tag.head (t : Tag) : List Char :=
  '<' :: t.name ++ t.attributes.flatMap fun a => ' ' :: a.print

/-- An element around children that are printed already; `childless` tells whether it has none. -/
def Tag.print (t : Tag) (childless : Bool) (inner : List Char) : List Char :=
  let generated :=
    if childless && !t.name.isEmpty then t.head ++ " />".toList
    else t.head ++ '>' :: inner ++ '<' :: '/' :: t.name ++ ['>']
  match t.source with
  | some ⟨opening, some closing⟩ => opening ++ inner ++ closing
  | some ⟨opening, none⟩ => if childless then opening else generated
  | none => generated

mutual

/-- Print a node. -/
def Node.print : Node → List Char
  | .text value => value
  | .script value => value
  | .expression value _ => '\x7b' :: value ++ ['\x7d']
  | .element tag children => tag.print children.isEmpty (Node.printAll children)

/-- Print nodes in order. -/
def Node.printAll : List Node → List Char
  | [] => []
  | n :: ns => n.print ++ Node.printAll ns

end

/-- Print a document. -/
def Document.print (d : Document) : List Char :=
  Node.printAll d.children

end Markup
end StoryDocs
