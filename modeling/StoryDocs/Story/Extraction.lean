import StoryDocs.Diagnostic
import StoryDocs.Markup.Node
import StoryDocs.Naming
import StoryDocs.Text.Line

/-!
# Extraction

One pass over a document takes the data out of its metadata and story elements and leaves references to
the story module behind.  A story without a literal name is removed with its line.
-/

namespace StoryDocs

open Text Markup

/-- A story that was taken out of a document. -/
structure Story where
  /-- The name as written. -/
  name : List Char
  /-- The other attributes in order. -/
  attributes : List Attribute
  children : List Node
  position : Position
  deriving Inhabited

/-- What was taken out of a document. -/
structure Extraction where
  /-- The attributes of the metadata elements; none if there is no such element. -/
  metadata : Option (List Attribute) := none
  /-- The stories under the names they are exported by, in the order of their first appearance. -/
  stories : List (List Char × Story) := []
  deriving Inhabited

/-- What was taken out so far, and the remarks about it. -/
structure Collected where
  extraction : Extraction := {}
  remarks : List Diagnostic := []
  deriving Inhabited

/-- A remark about something at a position. -/
def Diagnostic.atPosition (code : Diagnostic.Code) (p : Position) (message : String) : Diagnostic :=
  { code, message, line := some p.line, column := some p.column }

namespace Extraction

/-- Put a story under a name; a name that is there already keeps its place. -/
def put (key : List Char) (s : Story) : List (List Char × Story) → List (List Char × Story)
  | [] => [(key, s)]
  | (k, old) :: rest => if k == key then (k, s) :: rest else (k, old) :: put key s rest

/-- Whether a story is exported by a name. -/
def hasKey (x : Extraction) (key : List Char) : Bool :=
  x.stories.any fun (k, _) => k == key

end Extraction

/-- The name of metadata elements. -/
def metaElement : List Char := "Meta".toList

/-- The name of story elements. -/
def storyElement : List Char := "Story".toList

/-- The attribute that refers to an exported value. -/
def reference (target : List Char) : Attribute :=
  .property "of".toList (some (.expression target))

namespace Story

/-- The literal name of a story element. -/
def literalName? (tag : Tag) : Option (List Char) :=
  (tag.attribute? "name".toList).bind Attribute.literal?

/-- The story of an element with a literal name. -/
def ofElement (name : List Char) (tag : Tag) (children : List Node) : Story where
  name := name
  attributes := tag.attributes.filter fun a => a.name? != some "name".toList
  children := children
  position := tag.position

end Story

namespace Collected

/-- Add a remark. -/
def remark (c : Collected) (d : Diagnostic) : Collected :=
  { c with remarks := c.remarks ++ [d] }

/-- Take the attributes of a metadata element; those of several are joined. -/
def addMetadata (c : Collected) (tag : Tag) : Collected :=
  match c.extraction.metadata with
  | none => { c with extraction := { c.extraction with metadata := some tag.attributes } }
  | some attributes =>
    let c := c.remark (.atPosition .multipleMeta tag.position
      "more than one \x60<Meta>\x60 element; attributes are merged")
    { c with extraction := { c.extraction with metadata := some (attributes ++ tag.attributes) } }

/-- The remarks about a story that is exported by `key`. -/
def storyRemarks (x : Extraction) (key : List Char) (s : Story) : List Diagnostic :=
  let invalid :=
    if Naming.isBindingName key then []
    else [.atPosition .invalidIdentifier s.position
      ("story name \x60" ++ String.ofList s.name ++ "\x60 gives \x60" ++ String.ofList key ++
        "\x60, which is not a valid export name")]
  let duplicate :=
    if x.hasKey key then
      [.atPosition .duplicateStory s.position
        ("story \x60" ++ String.ofList key ++
          "\x60 is defined more than once; the last definition wins")]
    else []
  invalid ++ duplicate

/-- Take a story. -/
def addStory (c : Collected) (key : List Char) (s : Story) : Collected where
  extraction := { c.extraction with stories := Extraction.put key s c.extraction.stories }
  remarks := c.remarks ++ storyRemarks c.extraction key s

/-- Note that a story without a literal name was removed. -/
def dropStory (c : Collected) (tag : Tag) : Collected :=
  c.remark (.atPosition .unnamedStory tag.position
    "\x60<Story>\x60 without a literal \x60name\x60 attribute removed")

end Collected

/-- Drop the spaces and tabs that a removed element leaves at the end of the prose before it. -/
def trimIndent : List Node → List Node
  | .text value :: before =>
    match dropTail isIndent value with
    | [] => before
    | kept => .text kept :: before
  | before => before

/-- Drop blank lines from the start; the last line is dropped too if all are blank. -/
def dropBlankLines : List (List Char) → List (List Char)
  | [] => []
  | [last] => if allBlank last then [] else [last]
  | l :: ls => if allBlank l then dropBlankLines ls else l :: ls

/-- The prose behind a removed element without the rest of its line and the blank lines after it. -/
def stripLine (value : List Char) : List Char :=
  unlines (dropBlankLines (pieces value))

/-- A node behind a removed element, without the rest of the line if it is prose. -/
def stripNode : Node → List Node
  | .text value =>
    match stripLine value with
    | [] => []
    | kept => [.text kept]
  | n => [n]

/-- Replace metadata and story elements by references into the module called `ns`.  `strip` tells
whether the line of a removed element goes on here, and `done` holds the nodes before, the last one
first. -/
def extractFrom (ns : List Char) :
    List Node → Bool → List Node → Collected → List Node × Collected
  | [], _, done, c => (done.reverse, c)
  | .element tag children :: rest, _, done, c =>
    if tag.name == metaElement then
      extractFrom ns rest false (.element (tag.withAttributes [reference ns]) children :: done)
        (c.addMetadata tag)
    else if tag.name == storyElement then
      match Story.literalName? tag with
      | some name =>
        let key := Naming.capitalize name
        extractFrom ns rest false
          (.element (tag.withAttributes [reference (ns ++ '.' :: key)]) [] :: done)
          (c.addStory key (Story.ofElement name tag children))
      | none =>
        extractFrom ns rest tag.flow (if tag.flow then trimIndent done else done) (c.dropStory tag)
    else
      let (inner, c) := extractFrom ns children false [] c
      extractFrom ns rest false (.element tag inner :: done) c
  | n :: rest, strip, done, c =>
    extractFrom ns rest false ((if strip then stripNode n else [n]) ++ done) c

/-- Take metadata and stories out of a document. -/
def extract (ns : List Char) (d : Document) : Document × Collected :=
  let (children, c) := extractFrom ns d.children false [] {}
  (⟨children⟩, c)

end StoryDocs
