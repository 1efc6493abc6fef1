import StoryDocs.Proofs.Markup.Printing
import StoryDocs.Story.Extraction

/-!
# Segments of a document

Extraction looks at a document as at a row of segments: prose, metadata and story elements as wholes, and
all between them that it leaves alone.  An element inside metadata or a story belongs to their segment and
is not visited.
-/

namespace StoryDocs

open Text Markup

/-- A stretch of a document as extraction sees it. -/
inductive Segment where
  | prose (value : List Char)
  /-- A script block, an expression, or a tag of an element of another kind. -/
  | fixed (value : List Char)
  /-- A visited metadata element. -/
  | metadata (tag : Tag) (children : List Node) (hname : tag.name = metaElement)
  /-- A visited story element. -/
  | story (tag : Tag) (children : List Node) (hname : tag.name = storyElement)

namespace Segment

/-- The text of a segment. -/
def source : Segment → List Char
  | prose value => value
  | fixed value => value
  | metadata tag children _ => Node.print (.element tag children)
  | story tag children _ => Node.print (.element tag children)

/-- The name that a visited story with a literal name is exported by. -/
def key? : Segment → Option (List Char)
  | story tag _ _ => (Story.literalName? tag).map Naming.capitalize
  | _ => none

/-- Whether a segment is a visited story. -/
def isStory : Segment → Bool
  | story _ _ _ => true
  | _ => false

/-- Whether a segment is a story that is removed and that starts its line. -/
def dropped : Segment → Bool
  | story tag _ _ => (Story.literalName? tag).isNone && tag.flow
  | _ => false

end Segment

/-- The text of an opening tag as written. -/
def Markup.Tag.openingText (t : Tag) : List Char :=
  (t.source.map TagSource.opening).getD []

/-- The text of a closing tag as written; empty if the element closes itself. -/
def Markup.Tag.closingText (t : Tag) : List Char :=
  (t.source.bind TagSource.closing).getD []

mutual

/-- The segments of a node. -/
def Markup.Node.segments : Node → List Segment
  | .text value => [.prose value]
  | .script value => [.fixed value]
  | .expression value flow => [.fixed (Node.print (.expression value flow))]
  | .element tag children =>
    if hmeta : tag.name = metaElement then [.metadata tag children hmeta]
    else if hstory : tag.name = storyElement then [.story tag children hstory]
    else .fixed tag.openingText :: Node.segmentsAll children ++ [.fixed tag.closingText]

/-- The segments of nodes in order. -/
def Markup.Node.segmentsAll : List Node → List Segment
  | [] => []
  | n :: ns => n.segments ++ Node.segmentsAll ns

end

/-- The segments of a document. -/
def Markup.Document.segments (d : Document) : List Segment :=
  Node.segmentsAll d.children

theorem storyElement_ne_metaElement : storyElement ≠ metaElement := by
  decide

namespace Segment

variable {tag : Tag} {children : List Node}

@[simp] theorem segments_text (value : List Char) : (Node.text value).segments = [.prose value] := by
  rw [Node.segments]

@[simp] theorem segments_script (value : List Char) :
    (Node.script value).segments = [.fixed value] := by
  rw [Node.segments]

@[simp] theorem segments_expression (value : List Char) (flow : Bool) :
    (Node.expression value flow).segments = [.fixed (Node.print (.expression value flow))] := by
  rw [Node.segments]

theorem segments_metadata (hname : tag.name = metaElement) :
    (Node.element tag children).segments = [.metadata tag children hname] := by
  rw [Node.segments]
  simp [hname]

theorem segments_story (hname : tag.name = storyElement) :
    (Node.element tag children).segments = [.story tag children hname] := by
  rw [Node.segments]
  simp [hname, storyElement_ne_metaElement]

theorem segments_other (hmeta : tag.name ≠ metaElement) (hstory : tag.name ≠ storyElement) :
    (Node.element tag children).segments =
      .fixed tag.openingText :: Node.segmentsAll children ++ [.fixed tag.closingText] := by
  rw [Node.segments]
  simp [hmeta, hstory]

@[simp] theorem segmentsAll_nil : Node.segmentsAll [] = [] := by
  rw [Node.segmentsAll]

@[simp] theorem segmentsAll_cons (n : Node) (ns : List Node) :
    Node.segmentsAll (n :: ns) = n.segments ++ Node.segmentsAll ns := by
  rw [Node.segmentsAll]

/-- Names come from stories alone. -/
theorem filterMap_key?_filter_isStory (segments : List Segment) :
    (segments.filter isStory).filterMap key? = segments.filterMap key? := by
  induction segments with
  | nil => rfl
  | cons s rest ih =>
      cases s with
      | story tag children hname =>
          rw [List.filter_cons_of_pos rfl, List.filterMap_cons, List.filterMap_cons, ih]
      | prose | fixed | metadata =>
          rw [List.filter_cons_of_neg (by simp [isStory]), ih]
          rfl

theorem flatMap_segmentsAll {ns : List Node}
    (h : ∀ n ∈ ns, n.segments.flatMap source = n.print) :
    (Node.segmentsAll ns).flatMap source = Node.printAll ns := by
  induction ns with
  | nil => simp
  | cons n ns ih =>
      have hrest := ih fun m hm => h m (by simp [hm])
      simp [List.flatMap_append, h n (by simp), hrest]

/-- The segments of a pristine node make up its text. -/
theorem flatMap_segments {n : Node} (h : n.Pristine) : n.segments.flatMap source = n.print := by
  induction h with
  | text value => simp [Node.segments, source, Node.print]
  | script value => simp [Node.segments, source, Node.print]
  | expression value flow => simp [Node.segments, source]
  | childless hsource =>
      rw [Node.segments]
      split
      · simp [source]
      split
      · simp [source]
      · simp [source, Tag.openingText, Tag.closingText, hsource, Node.print, Tag.print]
  | enclosing hsource _ ih =>
      have hinner := flatMap_segmentsAll ih
      rw [Node.segments]
      split
      · simp [source]
      split
      · simp [source]
      · simp [source, Tag.openingText, Tag.closingText, hsource, Node.print, Tag.print, hinner]

end Segment
end StoryDocs
