import StoryDocs.Markup.Parser
import StoryDocs.Proofs.Story.Extraction

/-!
# References in the remaining document

A document holds no story data when each of its stories is a bare reference to an exported story and each
of its metadata elements refers to the story module.  Extraction leaves such a document, except for what
stands inside metadata elements: their children are kept as they are.
-/

namespace StoryDocs

open Text Markup

/-- A node in which, at every depth, story elements are references to exported stories and metadata
elements are references to the story module. -/
inductive Markup.Node.Refers (ns : List Char) (keys : List (List Char)) : Node → Prop
  | leaf {n : Node} (hleaf : ∀ tag children, n ≠ .element tag children) : Refers ns keys n
  | element {tag : Tag} {children : List Node}
      (hstory : tag.name = storyElement →
        children = [] ∧ ∃ key ∈ keys, tag.attributes = [reference (ns ++ '.' :: key)])
      (hmeta : tag.name = metaElement → tag.attributes = [reference ns])
      (hchildren : ∀ n ∈ children, Refers ns keys n) : Refers ns keys (.element tag children)

/-- The children of a metadata element hold no story data; other segments have nothing to hold any. -/
def Segment.InnerRefers (ns : List Char) (keys : List (List Char)) : Segment → Prop
  | metadata _ children _ => ∀ n ∈ children, n.Refers ns keys
  | _ => True

namespace Markup.Node

variable {ns : List Char} {keys : List (List Char)} {tag : Tag} {children : List Node}

theorem refers_text (value : List Char) : (Node.text value).Refers ns keys :=
  .leaf fun _ _ => Node.noConfusion

theorem refers_script (value : List Char) : (Node.script value).Refers ns keys :=
  .leaf fun _ _ => Node.noConfusion

theorem refers_expression (value : List Char) (flow : Bool) :
    (Node.expression value flow).Refers ns keys :=
  .leaf fun _ _ => Node.noConfusion

theorem Refers.inner (h : (Node.element tag children).Refers ns keys) :
    ∀ n ∈ children, n.Refers ns keys := by
  cases h with
  | leaf hleaf => exact absurd rfl (hleaf tag children)
  | element _ _ hchildren => exact hchildren

/-- A metadata element that refers to the module is clean if its children are. -/
theorem refers_metadata_iff (hname : tag.name = metaElement) :
    (Node.element (tag.withAttributes [reference ns]) children).Refers ns keys ↔
      ∀ n ∈ children, n.Refers ns keys := by
  refine ⟨Refers.inner, fun hchildren => .element (fun hstory => ?_) (fun _ => rfl) hchildren⟩
  exact absurd (hstory.symm.trans hname) storyElement_ne_metaElement

/-- So is an element of another kind. -/
theorem refers_other_iff (hmeta : tag.name ≠ metaElement) (hstory : tag.name ≠ storyElement) :
    (Node.element tag children).Refers ns keys ↔ ∀ n ∈ children, n.Refers ns keys :=
  ⟨Refers.inner, fun hchildren =>
    .element (fun h => absurd h hstory) (fun h => absurd h hmeta) hchildren⟩

/-- A reference to an exported story is clean. -/
theorem refers_story (hname : tag.name = storyElement) {key : List Char} (hkey : key ∈ keys) :
    (Node.element (tag.withAttributes [reference (ns ++ '.' :: key)]) []).Refers ns keys :=
  .element (fun _ => ⟨rfl, key, hkey, rfl⟩)
    (fun hmeta => absurd (hname.symm.trans hmeta) storyElement_ne_metaElement) (by simp)

end Markup.Node

open Markup.Node

variable {ns : List Char} {keys : List (List Char)}

theorem refers_stripNode (value : List Char) :
    ∀ n ∈ stripNode (.text value), n.Refers ns keys := by
  rw [stripNode]
  split
  · simp
  · simpa using refers_text _

/-- Trimming changes prose alone. -/
theorem refers_trimIndent_iff (done : List Node) :
    (∀ n ∈ trimIndent done, n.Refers ns keys) ↔ ∀ n ∈ done, n.Refers ns keys := by
  unfold trimIndent
  split
  · split
    · simp [refers_text]
    · simp [refers_text]
  · rfl

/-- Extraction leaves story data in what it kept before and inside metadata elements, and nowhere
else. -/
theorem refers_extractFrom_iff (ns : List Char) {nodes : List Node}
    (hkeys : ∀ s ∈ Node.segmentsAll nodes, ∀ key, s.key? = some key → key ∈ keys) (strip : Bool)
    (done : List Node) (c : Collected) :
    (∀ n ∈ (extractFrom ns nodes strip done c).1, n.Refers ns keys) ↔
      (∀ n ∈ done, n.Refers ns keys) ∧
        ∀ s ∈ Node.segmentsAll nodes, s.InnerRefers ns keys := by
  induction nodes using extraction_induction generalizing strip done c with
  | nil => simp [extractFrom_nil]
  | text value rest ih =>
      have hadded : ∀ n ∈ (if strip then stripNode (.text value) else [.text value]),
          n.Refers ns keys := by
        cases strip with
        | false => simpa using refers_text value
        | true => exact refers_stripNode value
      rw [extractFrom_text, ih fun s hs => hkeys s (by simp [hs]), List.forall_mem_append,
        and_iff_right hadded]
      simp [Segment.InnerRefers]
  | script value rest ih =>
      rw [extractFrom_script, ih fun s hs => hkeys s (by simp [hs])]
      simp [refers_script, Segment.InnerRefers]
  | expression value flow rest ih =>
      rw [extractFrom_expression, ih fun s hs => hkeys s (by simp [hs])]
      simp [refers_expression, Segment.InnerRefers]
  | metadata tag children rest hname ih =>
      -- The element itself is a reference now, and its children are what they were.
      rw [extractFrom_metadata hname, ih fun s hs => hkeys s (by simp [hs])]
      simp [refers_metadata_iff hname, Segment.segments_metadata hname, Segment.InnerRefers,
        and_assoc, and_left_comm]
  | named tag children rest name hname hliteral ih =>
      have hkey : Naming.capitalize name ∈ keys :=
        hkeys (.story tag children hname) (by simp [Segment.segments_story hname]) _
          (by simp [Segment.key?, hliteral])
      rw [extractFrom_named hname hliteral, ih fun s hs => hkeys s (by simp [hs])]
      simp [refers_story hname hkey, Segment.segments_story hname, Segment.InnerRefers]
  | unnamed tag children rest hname hliteral ih =>
      have hdone : (∀ n ∈ (if tag.flow then trimIndent done else done), n.Refers ns keys) ↔
          ∀ n ∈ done, n.Refers ns keys := by
        split
        · exact refers_trimIndent_iff done
        · rfl
      rw [extractFrom_unnamed hname hliteral, ih fun s hs => hkeys s (by simp [hs]), hdone]
      simp [Segment.segments_story hname, Segment.InnerRefers]
  | other tag children rest hmeta hstory ihc ih =>
      have hinner := ihc (fun s hs => hkeys s (by simp [Segment.segments_other hmeta hstory, hs]))
        false [] c
      rw [extractFrom_other hmeta hstory, ih fun s hs => hkeys s (by simp [hs])]
      simp [refers_other_iff hmeta hstory, hinner, Segment.segments_other hmeta hstory,
        Segment.InnerRefers, or_imp, forall_and, and_assoc, and_left_comm]

/-- After extraction every story is a bare reference to an exported story and every metadata element a
reference to the module, at every depth, if and only if this holds inside the metadata elements that were
visited: extraction does not look there. -/
theorem extract_refers_iff (ns : List Char) (d : Document) :
    (∀ n ∈ (extract ns d).1.children, n.Refers ns (extract ns d).2.extraction.keys) ↔
      ∀ tag children hname, Segment.metadata tag children hname ∈ d.segments →
        ∀ n ∈ children, n.Refers ns (extract ns d).2.extraction.keys := by
  have hkeys : ∀ s ∈ d.segments, ∀ key, s.key? = some key →
      key ∈ (extract ns d).2.extraction.keys := by
    intro s hs key hkey
    rw [extract_keys, List.mem_eraseDups]
    exact List.mem_filterMap.mpr ⟨s, hs, hkey⟩
  have hiff := refers_extractFrom_iff ns hkeys false [] {}
  refine hiff.trans ⟨fun h tag children hname hmem => h.2 _ hmem, fun h => ⟨by simp, ?_⟩⟩
  intro s hs
  cases s with
  | metadata tag children hname => exact h tag children hname hs
  | prose | fixed | story => trivial

/-- A story inside metadata keeps its body. -/
theorem not_refers_story_inside_metadata :
    ∃ d, parse "<Meta>a<Story>b</Story>c</Meta>".toList = .ok d ∧
      ¬ ∀ n ∈ (extract "FoobarStories".toList d).1.children,
        n.Refers "FoobarStories".toList (extract "FoobarStories".toList d).2.extraction.keys := by
  obtain ⟨tag, story, before, body, behind, hparse, hmeta, hstory⟩ :
      ∃ tag story before body behind,
        parse "<Meta>a<Story>b</Story>c</Meta>".toList =
            .ok ⟨[.element tag [before, .element story [body], behind]]⟩ ∧
          tag.name = metaElement ∧ story.name = storyElement :=
    ⟨_, _, _, _, _, rfl, rfl, rfl⟩
  refine ⟨_, hparse, fun h => ?_⟩
  have hmetadata := h
    (.element (tag.withAttributes [reference "FoobarStories".toList])
      [before, .element story [body], behind])
    (by rw [extract, extractFrom_metadata hmeta, extractFrom_nil]; simp)
  have hkept := hmetadata.inner (.element story [body]) (by simp)
  cases hkept with
  | leaf hleaf => exact hleaf _ _ rfl
  | element hbare => exact List.cons_ne_nil _ _ (hbare hstory).1

end StoryDocs
