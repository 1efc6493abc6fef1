import StoryDocs.Markup.Printer
import StoryDocs.Script.Fragment
import StoryDocs.Script.Program
import StoryDocs.Story.Extraction
import StoryDocs.Text.Dedent

/-!
# Synthesis

The story module consists of the scripts of the document, a default export with the attributes of the
metadata, and one named export per story with its render function, name and attributes.
-/

namespace StoryDocs

open Text Markup Script

namespace Synthesis

/-- The indentation of a property. -/
def indent : List Char := [' ', ' ']

/-- A property of an object literal, every line indented. -/
def indentProperty (property : List Char) : List Char :=
  unlines ((lines property).map fun l => if l.isEmpty then [] else indent ++ l)

/-- An object literal with one property per line. -/
def renderObject (properties : List (List Char)) : List Char :=
  if properties.isEmpty then "\x7b\x7d".toList
  else
    "\x7b\n".toList ++ properties.flatMap (fun p => indentProperty p ++ [',', '\n']) ++ ['\x7d']

/-- A property with a key. -/
def keyed (name value : List Char) : List Char :=
  Naming.propertyKey name ++ ':' :: ' ' :: value

/-- Readers of expressions; the text is what errors call the expression. -/
abbrev ExpressionReader := List Char → Dialect → String → Except Script.Error Fragment

/-- The property of an attribute with its expression read by `parse`; `owner` is what errors call its
element. -/
def propertyWith (parse : ExpressionReader) (dialect : Dialect) (owner : String) :
    Attribute → Except Script.Error (List Char)
  | .property name none => .ok (keyed name "true".toList)
  | .property name (some (.literal text)) => .ok (keyed name (Naming.quoted text))
  | .property name (some (.expression source)) =>
    let context := "attribute \x60" ++ String.ofList name ++ "\x60 of " ++ owner
    (parse source dialect context).map fun f => keyed name (dedent f.source)
  | .spread source =>
    (parse source dialect ("spread attribute of " ++ owner)).map fun f => "...".toList ++ dedent f.source

/-- The property of an attribute. -/
abbrev property := propertyWith Fragment.parse

/-- What errors and remarks call a story. -/
def ownerOf (s : Story) : String :=
  "story \x60" ++ String.ofList s.name ++ "\x60"

/-- The render function of a node, or the remark that it has none. -/
def renderNodeWith (parse : ExpressionReader) (dialect : Dialect) (s : Story) (n : Node) :
    Except Script.Error (Option (List Char) × List Diagnostic) :=
  let owner := ownerOf s
  let context := "body of " ++ owner
  let prose (message : String) : Option (List Char) × List Diagnostic :=
    (none, [.atPosition .proseStoryBody s.position message])
  match n with
  | .expression value _ =>
    (parse value dialect context).map fun f =>
      (some (dedent (if f.isBoundFunction then f.source else f.thunk)), [])
  | .element tag children =>
    if dialect.supportsTags then
      (parse (Node.print (.element tag children)) dialect context).map fun f => (some (dedent f.thunk), [])
    else
      .ok (prose (owner ++ " has a JSX body but the \x60" ++ dialect.name ++
        "\x60 parser has no JSX; no render function generated"))
  | _ => .ok (prose (owner ++ " has a prose body; no render function generated"))

/-- The render function of a story, from its first child that is not blank. -/
def renderStoryWith (parse : ExpressionReader) (dialect : Dialect) (s : Story) :
    Except Script.Error (Option (List Char) × List Diagnostic) :=
  match s.children.filter fun n => !n.isBlank with
  | [] => .ok (none, [])
  | [n] => renderNodeWith parse dialect s n
  | n :: _ =>
    let extra := Diagnostic.atPosition .extraStoryChildren s.position
      (ownerOf s ++ " has more than one child; only the first is used")
    (renderNodeWith parse dialect s n).map fun (render, remarks) => (render, extra :: remarks)

/-- The properties of a story. -/
def storyPropertiesWith (parse : ExpressionReader) (dialect : Dialect) (s : Story) :
    Except Script.Error (List (List Char) × List Diagnostic) := do
  let (render, remarks) ← renderStoryWith parse dialect s
  let attributes ← s.attributes.mapM (propertyWith parse dialect (ownerOf s))
  let head := render.toList.map ("render: ".toList ++ ·)
  return (head ++ ("name: ".toList ++ Naming.quoted s.name) :: attributes, remarks)

/-- The render function of a node. -/
abbrev renderNode := renderNodeWith Fragment.parse

/-- The render function of a story. -/
abbrev renderStory := renderStoryWith Fragment.parse

/-- The properties of a story, read as expressions are. -/
abbrev storyProperties := storyPropertiesWith Fragment.parse

/-- The export of a story. -/
def storyExport (key : List Char) (properties : List (List Char)) : Statement where
  kind := .namedExport
  text := "export const ".toList ++ key ++ " = ".toList ++ renderObject properties ++ [';']

/-- The default export of a story module. -/
def defaultExport (properties : List (List Char)) : Statement where
  kind := .defaultExport
  text := "export default ".toList ++ renderObject properties ++ [';']

/-- The default export of the metadata, and the remark that there is none. -/
def metadataExport (dialect : Dialect) (metadata : Option (List Attribute)) :
    Except Script.Error (Statement × List Diagnostic) :=
  match metadata with
  | some attributes =>
    (attributes.mapM (property dialect "\x60Meta\x60")).map fun ps => (defaultExport ps, [])
  | none =>
    .ok (defaultExport [],
      [{ code := .missingMeta
         message := "no \x60<Meta>\x60 element; the default export is empty" }])

/-- The exports of stories. -/
def storyExports (dialect : Dialect) :
    List (List Char × Story) → Except Script.Error (List Statement × List Diagnostic)
  | [] => .ok ([], [])
  | (key, s) :: rest => do
    let (properties, remarks) ← storyProperties dialect s
    let (statements, more) ← storyExports dialect rest
    return (storyExport key properties :: statements, remarks ++ more)

end Synthesis

/-- Add the exports of an extraction to the scripts of a document. -/
def synthesize (dialect : Dialect) (preamble : Program) (x : Extraction) :
    Except Script.Error (Program × List Diagnostic) := do
  let (default, remarks) ← Synthesis.metadataExport dialect x.metadata
  let (exports, more) ← Synthesis.storyExports dialect x.stories
  return (⟨preamble.statements ++ default :: exports⟩, remarks ++ more)

end StoryDocs
