import Mathlib.Data.List.Induction
import StoryDocs.Proofs.Story.Segment

/-!
# Steps of extraction

Extraction goes through a list of nodes and has one step for each kind of node.  The steps are stated here
once, together with the induction that follows them.  What is collected depends on the segments of the
document alone, in their order.
-/

namespace StoryDocs

open Text Markup

/-! ## One step for each kind of node -/

section Steps

variable {ns : List Char} {rest done children : List Node} {strip : Bool} {c : Collected} {tag : Tag}

theorem extractFrom_nil : extractFrom ns [] strip done c = (done.reverse, c) := by
  rw [extractFrom]

theorem extractFrom_text (value : List Char) :
    extractFrom ns (.text value :: rest) strip done c =
      extractFrom ns rest false
        ((if strip then stripNode (.text value) else [.text value]) ++ done) c := by
  rw [extractFrom]
  simp

theorem extractFrom_script (value : List Char) :
    extractFrom ns (.script value :: rest) strip done c =
      extractFrom ns rest false (.script value :: done) c := by
  rw [extractFrom]
  · simp [stripNode]
  · simp

theorem extractFrom_expression (value : List Char) (flow : Bool) :
    extractFrom ns (.expression value flow :: rest) strip done c =
      extractFrom ns rest false (.expression value flow :: done) c := by
  rw [extractFrom]
  · simp [stripNode]
  · simp

theorem extractFrom_metadata (hname : tag.name = metaElement) :
    extractFrom ns (.element tag children :: rest) strip done c =
      extractFrom ns rest false (.element (tag.withAttributes [reference ns]) children :: done)
        (c.addMetadata tag) := by
  rw [extractFrom]
  simp [hname]

theorem extractFrom_named {name : List Char} (hname : tag.name = storyElement)
    (hliteral : Story.literalName? tag = some name) :
    extractFrom ns (.element tag children :: rest) strip done c =
      extractFrom ns rest false
        (.element (tag.withAttributes [reference (ns ++ '.' :: Naming.capitalize name)]) [] :: done)
        (c.addStory (Naming.capitalize name) (Story.ofElement name tag children)) := by
  rw [extractFrom]
  simp [hname, storyElement_ne_metaElement, hliteral]

theorem extractFrom_unnamed (hname : tag.name = storyElement)
    (hliteral : Story.literalName? tag = none) :
    extractFrom ns (.element tag children :: rest) strip done c =
      extractFrom ns rest tag.flow (if tag.flow then trimIndent done else done)
        (c.dropStory tag) := by
  rw [extractFrom]
  simp [hname, storyElement_ne_metaElement, hliteral]

theorem extractFrom_other (hmeta : tag.name ≠ metaElement) (hstory : tag.name ≠ storyElement) :
    extractFrom ns (.element tag children :: rest) strip done c =
      extractFrom ns rest false
        (.element tag (extractFrom ns children false [] c).1 :: done)
        (extractFrom ns children false [] c).2 := by
  rw [extractFrom]
  simp [hmeta, hstory]

end Steps

/-- Induction along extraction: over the nodes of a list, and over the children of an element that is
neither metadata nor a story. -/
theorem extraction_induction {motive : List Node → Prop} (nil : motive [])
    (text : ∀ value rest, motive rest → motive (.text value :: rest))
    (script : ∀ value rest, motive rest → motive (.script value :: rest))
    (expression : ∀ value flow rest, motive rest → motive (.expression value flow :: rest))
    (metadata : ∀ tag children rest, tag.name = metaElement → motive rest →
      motive (.element tag children :: rest))
    (named : ∀ tag children rest name, tag.name = storyElement →
      Story.literalName? tag = some name → motive rest → motive (.element tag children :: rest))
    (unnamed : ∀ tag children rest, tag.name = storyElement → Story.literalName? tag = none →
      motive rest → motive (.element tag children :: rest))
    (other : ∀ tag children rest, tag.name ≠ metaElement → tag.name ≠ storyElement →
      motive children → motive rest → motive (.element tag children :: rest)) :
    ∀ nodes, motive nodes
  | [] => nil
  | .text value :: rest =>
    text value rest
      (extraction_induction nil text script expression metadata named unnamed other rest)
  | .script value :: rest =>
    script value rest
      (extraction_induction nil text script expression metadata named unnamed other rest)
  | .expression value flow :: rest =>
    expression value flow rest
      (extraction_induction nil text script expression metadata named unnamed other rest)
  | .element tag children :: rest => by
    have hchildren :=
      extraction_induction nil text script expression metadata named unnamed other children
    have hrest :=
      extraction_induction nil text script expression metadata named unnamed other rest
    by_cases hmeta : tag.name = metaElement
    · exact metadata tag children rest hmeta hrest
    by_cases hstory : tag.name = storyElement
    · cases hliteral : Story.literalName? tag with
      | some name => exact named tag children rest name hstory hliteral hrest
      | none => exact unnamed tag children rest hstory hliteral hrest
    · exact other tag children rest hmeta hstory hchildren hrest

/-! ## What is collected -/

namespace Collected

/-- Take what a segment holds. -/
def addSegment (c : Collected) : Segment → Collected
  | .metadata tag _ _ => c.addMetadata tag
  | .story tag children _ =>
    match Story.literalName? tag with
    | some name => c.addStory (Naming.capitalize name) (Story.ofElement name tag children)
    | none => c.dropStory tag
  | _ => c

end Collected

/-- Extraction collects from one segment after the other. -/
theorem extractFrom_collected (ns : List Char) (nodes : List Node) (strip : Bool)
    (done : List Node) (c : Collected) :
    (extractFrom ns nodes strip done c).2 =
      (Node.segmentsAll nodes).foldl Collected.addSegment c := by
  induction nodes using extraction_induction generalizing strip done c with
  | nil => simp [extractFrom_nil]
  | text value rest ih => simp [extractFrom_text, ih, Collected.addSegment]
  | script value rest ih => simp [extractFrom_script, ih, Collected.addSegment]
  | expression value flow rest ih => simp [extractFrom_expression, ih, Collected.addSegment]
  | metadata tag children rest hname ih =>
      simp [extractFrom_metadata hname, Segment.segments_metadata hname, ih, Collected.addSegment]
  | named tag children rest name hname hliteral ih =>
      simp [extractFrom_named hname hliteral, Segment.segments_story hname, ih, Collected.addSegment,
        hliteral]
  | unnamed tag children rest hname hliteral ih =>
      simp [extractFrom_unnamed hname hliteral, Segment.segments_story hname, ih, Collected.addSegment,
        hliteral]
  | other tag children rest hmeta hstory ihc ih =>
      simp [extractFrom_other hmeta hstory, Segment.segments_other hmeta hstory, ihc, ih,
        Collected.addSegment]

theorem extract_collected (ns : List Char) (d : Document) :
    (extract ns d).2 = d.segments.foldl Collected.addSegment {} :=
  extractFrom_collected ns d.children false [] {}

/-! ## The names of the stories -/

/-- A further name is left unless it was there before. -/
theorem eraseDups_concat (names : List (List Char)) (name : List Char) :
    (names ++ [name]).eraseDups =
      if name ∈ names then names.eraseDups else names.eraseDups ++ [name] := by
  rw [List.eraseDups_append]
  by_cases hseen : name ∈ names
  · simp [List.removeAll, hseen]
  · simp [List.removeAll, hseen, List.eraseDups_cons]

/-- Of equal names only the first is left. -/
theorem nodup_eraseDups (names : List (List Char)) : names.eraseDups.Nodup := by
  induction names using List.reverseRecOn with
  | nil => simp
  | append_singleton names name ih =>
      rw [eraseDups_concat]
      split
      · exact ih
      · rename_i hnew
        have hfresh : name ∉ names.eraseDups := fun hmem => hnew (List.mem_eraseDups.mp hmem)
        rw [List.nodup_append]
        refine ⟨ih, by simp, ?_⟩
        intro a ha b hb heq
        rw [heq, List.mem_singleton.mp hb] at ha
        exact hfresh ha

namespace Extraction

/-- The names that the stories are exported by. -/
def keys (x : Extraction) : List (List Char) :=
  x.stories.map Prod.fst

/-- A story under a known name keeps the names. -/
theorem map_fst_put_of_mem {key : List Char} (s : Story) {stories : List (List Char × Story)}
    (h : key ∈ stories.map Prod.fst) : (put key s stories).map Prod.fst = stories.map Prod.fst := by
  induction stories with
  | nil => cases h
  | cons entry rest ih =>
      obtain ⟨k, old⟩ := entry
      rw [put]
      by_cases hk : k = key
      · simp [hk]
      · have hrest : key ∈ rest.map Prod.fst := by simpa [Ne.symm hk] using h
        simp [hk, ih hrest]

/-- A story under a new name adds the name at the end. -/
theorem map_fst_put_of_not_mem {key : List Char} (s : Story) {stories : List (List Char × Story)}
    (h : key ∉ stories.map Prod.fst) :
    (put key s stories).map Prod.fst = stories.map Prod.fst ++ [key] := by
  induction stories with
  | nil => rfl
  | cons entry rest ih =>
      obtain ⟨k, old⟩ := entry
      rw [List.map_cons, List.mem_cons, not_or] at h
      rw [put]
      simp [Ne.symm h.1, ih h.2]

end Extraction

namespace Collected

@[simp] theorem keys_addMetadata (c : Collected) (tag : Tag) :
    (c.addMetadata tag).extraction.keys = c.extraction.keys := by
  unfold addMetadata
  split
  · rfl
  · rfl

/-- A segment adds the name of its story, unless it is there already. -/
theorem keys_addSegment {c : Collected} {seen : List (List Char)}
    (h : c.extraction.keys = seen.eraseDups) (s : Segment) :
    (c.addSegment s).extraction.keys = (seen ++ s.key?.toList).eraseDups := by
  cases s with
  | prose value => simpa [addSegment, Segment.key?] using h
  | fixed value => simpa [addSegment, Segment.key?] using h
  | metadata tag children hname => simpa [addSegment, Segment.key?] using h
  | story tag children hname =>
      cases hliteral : Story.literalName? tag with
      | none => simpa [addSegment, Segment.key?, hliteral, dropStory, remark] using h
      | some name =>
          simp only [addSegment, hliteral, addStory, Extraction.keys, Segment.key?, Option.map_some,
            Option.toList_some, eraseDups_concat] at h ⊢
          -- A name that was seen keeps its place, and a new one goes to the end.
          split
          · rename_i hseen
            rw [Extraction.map_fst_put_of_mem _ (by rw [h]; exact List.mem_eraseDups.mpr hseen), h]
          · rename_i hnew
            rw [Extraction.map_fst_put_of_not_mem _
              (by rw [h]; exact fun hmem => hnew (List.mem_eraseDups.mp hmem)), h]

theorem keys_foldl_addSegment {c : Collected} {seen : List (List Char)}
    (h : c.extraction.keys = seen.eraseDups) (segments : List Segment) :
    (segments.foldl addSegment c).extraction.keys =
      (seen ++ segments.filterMap Segment.key?).eraseDups := by
  induction segments generalizing c seen with
  | nil => simpa using h
  | cons s rest ih =>
      rw [List.foldl_cons, ih (keys_addSegment h s)]
      cases hkey : s.key? with
      | none => simp [hkey]
      | some key => simp [hkey]

/-- Remarks are never withdrawn. -/
theorem remarks_addSegment (c : Collected) (s : Segment) :
    ∃ more, (c.addSegment s).remarks = c.remarks ++ more := by
  cases s with
  | prose value => exact ⟨[], (List.append_nil _).symm⟩
  | fixed value => exact ⟨[], (List.append_nil _).symm⟩
  | metadata tag children hname =>
      rw [addSegment, addMetadata]
      split
      · exact ⟨[], (List.append_nil _).symm⟩
      · exact ⟨_, rfl⟩
  | story tag children hname =>
      rw [addSegment]
      split
      · exact ⟨_, rfl⟩
      · exact ⟨_, rfl⟩

theorem remarks_foldl_addSegment (c : Collected) (segments : List Segment) :
    ∃ more, (segments.foldl addSegment c).remarks = c.remarks ++ more := by
  induction segments generalizing c with
  | nil => exact ⟨[], (List.append_nil _).symm⟩
  | cons s rest ih =>
      obtain ⟨first, hfirst⟩ := c.remarks_addSegment s
      obtain ⟨more, hmore⟩ := ih (c.addSegment s)
      exact ⟨first ++ more, by rw [List.foldl_cons, hmore, hfirst, List.append_assoc]⟩

/-- A story under a name that cannot be bound is remarked on. -/
theorem exists_invalid_remark {s : Segment} {key : List Char} (hkey : s.key? = some key)
    (hname : Naming.isBindingName key = false) (c : Collected) :
    ∃ d ∈ (c.addSegment s).remarks, d.code = .invalidIdentifier := by
  cases s with
  | prose | fixed | metadata => cases hkey
  | story tag children hstory =>
      obtain ⟨name, hliteral, rfl⟩ := Option.map_eq_some_iff.mp hkey
      simp only [addSegment, hliteral, addStory, storyRemarks, hname]
      exact ⟨_, List.mem_append_right _ (List.mem_append_left _ List.mem_cons_self), rfl⟩

/-- If no name is remarked on, all names can be bound. -/
theorem isBindingName_of_remarks {segments : List Segment} {c : Collected}
    (h : ∀ d ∈ (segments.foldl addSegment c).remarks, d.code ≠ .invalidIdentifier) :
    ∀ s ∈ segments, ∀ key, s.key? = some key → Naming.isBindingName key = true := by
  intro s hs key hkey
  cases hname : Naming.isBindingName key with
  | true => rfl
  | false =>
      obtain ⟨before, behind, rfl⟩ := List.append_of_mem hs
      rw [List.foldl_append, List.foldl_cons] at h
      obtain ⟨more, hmore⟩ := remarks_foldl_addSegment ((before.foldl addSegment c).addSegment s) behind
      obtain ⟨d, hd, hcode⟩ := exists_invalid_remark hkey hname (before.foldl addSegment c)
      exact absurd hcode (h d (by rw [hmore]; exact List.mem_append_left _ hd))

end Collected

/-- The stories are exported by the names of the visited stories, each once and in the order of first
appearance. -/
theorem extract_keys (ns : List Char) (d : Document) :
    (extract ns d).2.extraction.keys = (d.segments.filterMap Segment.key?).eraseDups := by
  have hstart : (({} : Collected).extraction).keys = ([] : List (List Char)).eraseDups := rfl
  rw [extract_collected, Collected.keys_foldl_addSegment hstart, List.nil_append]

end StoryDocs
