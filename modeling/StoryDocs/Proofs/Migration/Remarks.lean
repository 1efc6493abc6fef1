import StoryDocs.Proofs.Markup.Positions
import StoryDocs.Proofs.Migration.Stages
import StoryDocs.Proofs.Script.Demotion
import StoryDocs.Proofs.Story.Records

/-!
# Remarks of a migration

A migration remarks on what it did on the author's behalf, stage by stage.  How many remarks there are of a
kind is told by the visited elements of the documentation, by the records that are left of them and by the
exports of its scripts.  A remark with a place points at the bracket of a visited element.
-/

namespace StoryDocs

open Text Markup Script

/-! ## Visited elements -/

namespace Segment

/-- The tag of a visited element. -/
def tag? : Segment → Option Tag
  | metadata tag _ _ => some tag
  | story tag _ _ => some tag
  | _ => none

theorem name_of_tag? {s : Segment} {tag : Tag} (h : s.tag? = some tag) :
    tag.name = metaElement ∨ tag.name = storyElement := by
  cases s with
  | prose | fixed => cases h
  | metadata t children hname =>
      cases h
      exact .inl hname
  | story t children hname =>
      cases h
      exact .inr hname

/-- Whether a segment is a visited metadata element. -/
def isMetadata : Segment → Bool
  | metadata _ _ _ => true
  | _ => false

/-- Whether a segment is a visited story whose first attribute called `name` is missing or no literal. -/
def isUnnamed : Segment → Bool
  | story tag _ _ => (Story.literalName? tag).isNone
  | _ => false

/-- Visited elements stand where their tags say, each behind the segments before it and at the bracket of its
opening tag. -/
def Placed : Position → List Segment → Prop
  | _, [] => True
  | p, s :: rest =>
    (∀ tag, s.tag? = some tag → tag.position = p ∧ ('<' :: tag.name) <+: s.source) ∧
      Placed (p.after s.source) rest

theorem placed_append {p : Position} {segments more : List Segment} :
    Placed p (segments ++ more) ↔
      Placed p segments ∧ Placed (p.after (segments.flatMap source)) more := by
  induction segments generalizing p with
  | nil => simp [Placed, Position.after]
  | cons s rest ih =>
      rw [List.cons_append, Placed, Placed, ih, List.flatMap_cons, Position.after_append, and_assoc]

theorem placed_fixed {p : Position} {value : List Char} : Placed p [.fixed value] :=
  ⟨fun _ htag => (Option.some_ne_none _ htag.symm).elim, trivial⟩

end Segment

/-- A pristine element prints as its tags around its children. -/
theorem Markup.Node.Pristine.print_element {tag : Tag} {children : List Node}
    (h : (Node.element tag children).Pristine) :
    Node.print (.element tag children) =
      tag.openingText ++ Node.printAll children ++ tag.closingText := by
  cases h with
  | childless hsource =>
      simp [Node.print, Tag.print, Tag.openingText, Tag.closingText, hsource]
  | enclosing hsource _ =>
      simp [Node.print, Tag.print, Tag.openingText, Tag.closingText, hsource]

/-- The visited elements of nodes in their places are in their places. -/
theorem Markup.Placed.segments {p : Position} {ns : List Node} (h : Markup.Placed p ns)
    (hpristine : ∀ n ∈ ns, n.Pristine) : Segment.Placed p (Node.segmentsAll ns) := by
  induction h with
  | nil p => exact trivial
  | @leaf p n rest hleaf _ ih =>
      rw [List.forall_mem_cons] at hpristine
      rw [Segment.segmentsAll_cons, Segment.placed_append, Segment.flatMap_segments hpristine.1]
      refine ⟨?_, ih hpristine.2⟩
      cases n with
      | element tag children => exact absurd rfl (hleaf tag children)
      | text value => exact ⟨fun _ htag => (Option.some_ne_none _ htag.symm).elim, trivial⟩
      | script value => exact Segment.placed_fixed
      | expression value flow => exact Segment.placed_fixed
  | @element p tag source children rest hposition hsource hname _ _ ihchildren ihrest =>
      rw [List.forall_mem_cons] at hpristine
      obtain ⟨hnode, hrest⟩ := hpristine
      rw [Segment.segmentsAll_cons, Segment.placed_append, Segment.flatMap_segments hnode]
      refine ⟨?_, ihrest hrest⟩
      have hopening : tag.openingText = source.opening := by simp [Tag.openingText, hsource]
      -- An element that is visited starts with the bracket of its opening tag.
      have hstarts : ('<' :: tag.name) <+: Node.print (.element tag children) := by
        rw [hnode.print_element, hopening, List.append_assoc]
        exact hname.trans (List.prefix_append _ _)
      by_cases hmeta : tag.name = metaElement
      · rw [Segment.segments_metadata hmeta]
        refine ⟨?_, trivial⟩
        rintro _ ⟨⟩
        exact ⟨hposition, hstarts⟩
      by_cases hstory : tag.name = storyElement
      · rw [Segment.segments_story hstory]
        refine ⟨?_, trivial⟩
        rintro _ ⟨⟩
        exact ⟨hposition, hstarts⟩
      · rw [Segment.segments_other hmeta hstory, List.cons_append]
        refine ⟨fun _ htag => (Option.some_ne_none _ htag.symm).elim, ?_⟩
        rw [Segment.placed_append]
        refine ⟨?_, Segment.placed_fixed⟩
        rw [Segment.source, hopening]
        exact ihchildren hnode.children

/-! ## Counting remarks -/

namespace Diagnostic

/-- How many remarks have a code. -/
def count (code : Code) (ds : List Diagnostic) : Nat :=
  ds.countP fun d => d.code == code

section Count

variable {code : Code} {ds es : List Diagnostic}

@[simp] theorem count_nil : count code [] = 0 := rfl

@[simp] theorem count_append : count code (ds ++ es) = count code ds + count code es := by
  simp [count]

@[simp] theorem count_singleton (d : Diagnostic) :
    count code [d] = if d.code = code then 1 else 0 := by
  simp [count, List.countP_cons]

@[simp] theorem count_stamp (file : Option String) :
    count code (ds.map (stamp file)) = count code ds := by
  rw [count, List.countP_map]
  rfl

theorem count_eq_zero (h : ∀ d ∈ ds, d.code ≠ code) : count code ds = 0 := by
  rw [count, List.countP_eq_zero]
  simpa using h

/-- A code that no remark can have is the code of none. -/
theorem count_eq_zero_of_mem {codes : List Code} (h : ∀ d ∈ ds, d.code ∈ codes)
    (hcode : code ∉ codes) : count code ds = 0 := by
  refine count_eq_zero fun d hd heq => hcode ?_
  rw [← heq]
  exact h d hd

end Count

/-- A remark as the stages give it: it names no file yet, and it has one of the positions or none. -/
structure Unstamped (positions : List Position) (d : Diagnostic) : Prop where
  file : d.file = none
  place : (d.line = none ∧ d.column = none) ∨
    ∃ p ∈ positions, d.line = some p.line ∧ d.column = some p.column

theorem unstamped_atPosition {positions : List Position} {p : Position} (hp : p ∈ positions)
    (code : Code) (message : String) : (atPosition code p message).Unstamped positions :=
  ⟨rfl, .inr ⟨p, hp, rfl, rfl⟩⟩

end Diagnostic

/-! ## Remarks of extraction -/

namespace Collected

/-- The kinds of remarks that extraction gives. -/
def codes : List Diagnostic.Code :=
  [.unnamedStory, .duplicateStory, .multipleMeta, .invalidIdentifier]

/-- The kinds of remarks on a segment behind what was extracted. -/
def codesOf (x : Extraction) (s : Segment) : List Diagnostic.Code :=
  (if s.isMetadata && x.metadata.isSome then [.multipleMeta] else []) ++
    ((if s.isUnnamed then [.unnamedStory] else []) ++
      ((if s.key?.any fun key => !Naming.isBindingName key then [.invalidIdentifier] else []) ++
        (if s.key?.any x.hasKey then [.duplicateStory] else [])))

theorem codes_addSegment (c : Collected) (s : Segment) :
    (c.addSegment s).remarks.map (·.code) = c.remarks.map (·.code) ++ codesOf c.extraction s := by
  cases s with
  | prose | fixed => simp [addSegment, codesOf, Segment.isMetadata, Segment.isUnnamed, Segment.key?]
  | metadata tag children hname =>
      rw [addSegment, addMetadata]
      split
      · rename_i hnone
        simp [codesOf, hnone, Segment.isUnnamed, Segment.key?]
      · rename_i attributes hsome
        simp [codesOf, hsome, Segment.isMetadata, Segment.isUnnamed, Segment.key?, remark,
          Diagnostic.atPosition]
  | story tag children hname =>
      cases hliteral : Story.literalName? tag with
      | none =>
          simp [addSegment, hliteral, codesOf, Segment.isMetadata, Segment.isUnnamed, Segment.key?,
            dropStory, remark, Diagnostic.atPosition]
      | some name =>
          simp only [addSegment, hliteral, addStory, storyRemarks, List.map_append, codesOf,
            Segment.isMetadata, Segment.isUnnamed, Segment.key?, Option.map_some, Option.any_some,
            Bool.false_and, Option.isNone_some, Bool.false_eq_true, if_false, List.nil_append]
          congr 2
          · cases Naming.isBindingName (Naming.capitalize name) <;> rfl
          · cases c.extraction.hasKey (Naming.capitalize name) <;> rfl

/-- What holds of the remarks so far and of all remarks at a visited element holds of the remarks behind it. -/
theorem forall_remarks_addSegment {motive : Diagnostic → Prop} {c : Collected} {s : Segment}
    (h : ∀ d ∈ c.remarks, motive d)
    (hs : ∀ tag, s.tag? = some tag → ∀ code ∈ codes, ∀ message,
      motive (.atPosition code tag.position message)) :
    ∀ d ∈ (c.addSegment s).remarks, motive d := by
  cases s with
  | prose | fixed => exact h
  | metadata tag children hname =>
      rw [addSegment, addMetadata]
      split
      · exact h
      · rw [remark, List.forall_mem_append, List.forall_mem_singleton]
        exact ⟨h, hs tag rfl _ (by simp [codes]) _⟩
  | story tag children hname =>
      rw [addSegment]
      split
      · rw [addStory, storyRemarks, List.forall_mem_append, List.forall_mem_append]
        refine ⟨h, ?_, ?_⟩
        · split
          · simp
          · rw [List.forall_mem_singleton]
            exact hs tag rfl _ (by simp [codes]) _
        · split
          · rw [List.forall_mem_singleton]
            exact hs tag rfl _ (by simp [codes]) _
          · simp
      · rw [dropStory, remark, List.forall_mem_append, List.forall_mem_singleton]
        exact ⟨h, hs tag rfl _ (by simp [codes]) _⟩

/-- What holds of all remarks at visited elements holds of the remarks of an extraction. -/
theorem forall_remarks_foldl {motive : Diagnostic → Prop} {segments : List Segment}
    (h : ∀ s ∈ segments, ∀ tag, s.tag? = some tag → ∀ code ∈ codes, ∀ message,
      motive (.atPosition code tag.position message)) :
    ∀ d ∈ (segments.foldl addSegment {}).remarks, motive d := by
  induction segments using List.reverseRecOn with
  | nil => simp
  | append_singleton segments s ih =>
      rw [List.forall_mem_append, List.forall_mem_singleton] at h
      rw [List.foldl_append, List.foldl_cons, List.foldl_nil]
      exact forall_remarks_addSegment (ih h.1) h.2

theorem code_mem_foldl (segments : List Segment) :
    ∀ d ∈ (segments.foldl addSegment {}).remarks, d.code ∈ codes :=
  forall_remarks_foldl fun _ _ _ _ _ hcode _ => hcode

/-- Only visited elements are extracted from. -/
theorem foldl_filter_visited (segments : List Segment) (c : Collected) :
    (segments.filter fun s => s.tag?.isSome).foldl addSegment c = segments.foldl addSegment c := by
  induction segments generalizing c with
  | nil => rfl
  | cons s rest ih =>
      cases s with
      | prose | fixed => exact ih c
      | metadata | story => exact ih _

/-- How many remarks of a kind an extraction gives. -/
def countOf (code : Diagnostic.Code) (segments : List Segment) : Nat :=
  Diagnostic.count code (segments.foldl addSegment {}).remarks

/-- A further segment adds its own remarks. -/
theorem countOf_concat (code : Diagnostic.Code) (segments : List Segment) (s : Segment) :
    countOf code (segments ++ [s]) =
      countOf code segments + (codesOf (segments.foldl addSegment {}).extraction s).count code := by
  have hcount : ∀ ds : List Diagnostic, Diagnostic.count code ds = (ds.map (·.code)).count code := by
    intro ds
    rw [List.count, List.countP_map]
    rfl
  rw [countOf, countOf, hcount, hcount, List.foldl_append, List.foldl_cons, List.foldl_nil,
    codes_addSegment, List.count_append]

/-- Each visited story without a literal name is remarked on. -/
theorem countOf_unnamedStory (segments : List Segment) :
    countOf .unnamedStory segments = segments.countP Segment.isUnnamed := by
  induction segments using List.reverseRecOn with
  | nil => rfl
  | append_singleton segments s ih =>
      rw [countOf_concat, ih, List.countP_append, List.countP_singleton, codesOf]
      cases s.isUnnamed <;> simp [apply_ite (List.count _)]

/-- Metadata is extracted exactly if a metadata element is visited. -/
theorem isSome_metadata_foldl (segments : List Segment) :
    (segments.foldl addSegment {}).extraction.metadata.isSome = true ↔
      0 < segments.countP Segment.isMetadata := by
  have hlength : (segments.filterMap Segment.metadata?).length = segments.countP Segment.isMetadata := by
    rw [List.length_filterMap_eq_countP]
    refine List.countP_congr fun s _ => ?_
    cases s <;> rfl
  rw [metadata_foldl, joined, ← hlength, List.length_pos_iff]
  split
  · rename_i hempty
    simp [hempty]
  · rename_i hsome
    simp [hsome]

/-- Each visited metadata element behind the first is remarked on. -/
theorem countOf_multipleMeta (segments : List Segment) :
    countOf .multipleMeta segments = segments.countP Segment.isMetadata - 1 := by
  induction segments using List.reverseRecOn with
  | nil => rfl
  | append_singleton segments s ih =>
      rw [countOf_concat, ih, List.countP_append, List.countP_singleton, codesOf]
      cases s.isMetadata with
      | false => simp [apply_ite (List.count _)]
      | true =>
          by_cases hsome : (segments.foldl addSegment {}).extraction.metadata.isSome = true
          · have hpos := (isSome_metadata_foldl segments).mp hsome
            simp [hsome, apply_ite (List.count _)]
            omega
          · have hzero := mt (isSome_metadata_foldl segments).mpr hsome
            simp [hsome, apply_ite (List.count _)]
            omega

/-- Each visited story whose name cannot be bound is remarked on. -/
theorem countOf_invalidIdentifier (segments : List Segment) :
    countOf .invalidIdentifier segments =
      (segments.filterMap Segment.key?).countP fun key => !Naming.isBindingName key := by
  induction segments using List.reverseRecOn with
  | nil => rfl
  | append_singleton segments s ih =>
      rw [countOf_concat, ih, List.filterMap_append, List.countP_append, codesOf]
      cases hkey : s.key? with
      | none => simp [hkey, apply_ite (List.count _)]
      | some key => simp [hkey, apply_ite (List.count _), List.countP_cons]

/-- A key is known exactly if a story with it was visited. -/
theorem hasKey_foldl (segments : List Segment) (key : List Char) :
    (segments.foldl addSegment {}).extraction.hasKey key = true ↔
      key ∈ segments.filterMap Segment.key? := by
  have hstart : ({} : Collected).extraction.keys = ([] : List (List Char)).eraseDups := rfl
  have hkeys := keys_foldl_addSegment hstart segments
  rw [List.nil_append] at hkeys
  rw [← List.mem_eraseDups, ← hkeys, Extraction.hasKey, Extraction.keys, List.any_eq_true, List.mem_map]
  simp

/-- Each visited story with a name that a story before has is remarked on: so many stories are there beyond one
for each name. -/
theorem countOf_duplicateStory (segments : List Segment) :
    countOf .duplicateStory segments + (segments.filterMap Segment.key?).eraseDups.length =
      (segments.filterMap Segment.key?).length := by
  induction segments using List.reverseRecOn with
  | nil => rfl
  | append_singleton segments s ih =>
      rw [countOf_concat, List.filterMap_append, List.length_append, codesOf]
      cases hkey : s.key? with
      | none => simpa [hkey, apply_ite (List.count _)] using ih
      | some key =>
          have hknown := hasKey_foldl segments key
          have hlast : [s].filterMap Segment.key? = [key] := by simp [hkey]
          rw [hlast, eraseDups_concat]
          by_cases hseen : key ∈ segments.filterMap Segment.key?
          · simp [apply_ite (List.count _), hknown.mpr hseen, hseen]
            omega
          · simp [apply_ite (List.count _), mt hknown.mp hseen, hseen]
            omega

end Collected
/-! ## Remarks of synthesis -/

namespace Synthesis

/-- The kinds of remarks that synthesis gives. -/
def codes : List Diagnostic.Code :=
  [.missingMeta, .proseStoryBody, .extraStoryChildren]

/-- Whether a story has several children that are not blank. -/
def hasExtraChildren (s : Story) : Bool :=
  decide (2 ≤ (s.children.filter fun n => !n.isBlank).length)

variable {dialect : Dialect} {s : Story}

/-- A body is remarked on only if it is prose. -/
theorem remarks_renderNode {n : Node} {render : Option (List Char)} {remarks : List Diagnostic}
    (h : renderNode dialect s n = .ok (render, remarks)) :
    ∀ d ∈ remarks, ∃ message, d = .atPosition .proseStoryBody s.position message := by
  cases n with
  | expression value flow =>
      obtain ⟨f, _, hf⟩ := map_eq_ok_iff.mp h
      cases hf
      simp
  | element tag children =>
      rw [renderNode, renderNodeWith] at h
      split at h
      · obtain ⟨f, _, hf⟩ := map_eq_ok_iff.mp h
        cases hf
        simp
      · cases h
        simp
  | text value =>
      cases h
      simp
  | script value =>
      cases h
      simp

/-- A remark about the body of a story. -/
def IsBodyRemark (s : Story) (d : Diagnostic) : Prop :=
  ∃ code ∈ ([.proseStoryBody, .extraStoryChildren] : List Diagnostic.Code), ∃ message,
    d = .atPosition code s.position message

/-- The body of a story is remarked on, once as having several children if it has. -/
theorem remarks_renderStory {render : Option (List Char)} {remarks : List Diagnostic}
    (h : renderStory dialect s = .ok (render, remarks)) :
    Diagnostic.count .extraStoryChildren remarks = (if hasExtraChildren s then 1 else 0) ∧
      ∀ d ∈ remarks, IsBodyRemark s d := by
  have hnode : ∀ {n : Node} {more : List Diagnostic}, renderNode dialect s n = .ok (render, more) →
      Diagnostic.count .extraStoryChildren more = 0 ∧ ∀ d ∈ more, IsBodyRemark s d := by
    intro n more hrender
    constructor
    · refine Diagnostic.count_eq_zero fun d hd => ?_
      obtain ⟨message, rfl⟩ := remarks_renderNode hrender d hd
      exact Diagnostic.Code.noConfusion
    · intro d hd
      obtain ⟨message, rfl⟩ := remarks_renderNode hrender d hd
      exact ⟨_, by simp, message, rfl⟩
  rw [renderStory, renderStoryWith] at h
  split at h
  · rename_i hnone
    cases h
    simp [hasExtraChildren, hnone]
  · rename_i n hone
    simpa [hasExtraChildren, hone] using hnode h
  · rename_i n rest hsome hseveral
    obtain ⟨⟨_, more⟩, hrender, hremarks⟩ := map_eq_ok_iff.mp h
    cases hremarks
    have hlength : 0 < rest.length := List.length_pos_iff.mpr hsome
    have hextra : hasExtraChildren s = true := by
      rw [hasExtraChildren, hseveral, List.length_cons, decide_eq_true_iff]
      omega
    obtain ⟨hcount, hbody⟩ := hnode hrender
    rw [hextra, List.forall_mem_cons]
    refine ⟨?_, ⟨_, by simp, _, rfl⟩, hbody⟩
    simpa [Diagnostic.count, Diagnostic.atPosition, List.countP_cons] using hcount

/-- The stories are remarked on one by one. -/
theorem remarks_storyExports {stories : List (List Char × Story)} {exports : List Statement}
    {remarks : List Diagnostic} (h : storyExports dialect stories = .ok (exports, remarks)) :
    Diagnostic.count .extraStoryChildren remarks =
        stories.countP (fun entry => hasExtraChildren entry.2) ∧
      ∀ d ∈ remarks, ∃ entry ∈ stories, IsBodyRemark entry.2 d := by
  induction stories generalizing exports remarks with
  | nil =>
      cases h
      simp
  | cons entry rest ih =>
      obtain ⟨⟨properties, first⟩, hproperties, h⟩ := bind_eq_ok_iff.mp h
      obtain ⟨⟨statements, more⟩, hrest, h⟩ := bind_eq_ok_iff.mp h
      cases h
      obtain ⟨⟨render, _⟩, hrender, hproperties⟩ := bind_eq_ok_iff.mp hproperties
      obtain ⟨_, _, hproperties⟩ := bind_eq_ok_iff.mp hproperties
      cases hproperties
      obtain ⟨hcount, hbody⟩ := remarks_renderStory hrender
      obtain ⟨hcounts, hbodies⟩ := ih hrest
      rw [Diagnostic.count_append, hcount, hcounts, List.countP_cons, List.forall_mem_append]
      refine ⟨Nat.add_comm _ _, ?_, ?_⟩
      · exact fun d hd => ⟨entry, List.mem_cons_self, hbody d hd⟩
      · intro d hd
        obtain ⟨later, hlater, hremark⟩ := hbodies d hd
        exact ⟨later, List.mem_cons_of_mem _ hlater, hremark⟩

/-- The metadata is remarked on exactly if there is none. -/
theorem remarks_metadataExport {metadata : Option (List Attribute)} {statement : Statement}
    {remarks : List Diagnostic} (h : metadataExport dialect metadata = .ok (statement, remarks)) :
    Diagnostic.count .missingMeta remarks = (if metadata.isNone then 1 else 0) ∧
      ∀ d ∈ remarks, d.code = .missingMeta ∧ d.file = none ∧ d.line = none ∧ d.column = none := by
  cases metadata with
  | none =>
      cases h
      simp
  | some attributes =>
      obtain ⟨_, _, hs⟩ := map_eq_ok_iff.mp h
      cases hs
      simp

end Synthesis

/-! ## Remarks of a migration -/

namespace Migration

open Synthesis

namespace Stages

variable {o : Options} {source fileName : List Char}

/-- What was taken out of the documentation. -/
def extraction (st : Stages o source fileName) : Extraction :=
  (extract (namespaceOf fileName) st.imported).2.extraction

/-- The exports that synthesis adds, and its remarks. -/
theorem exists_exports (st : Stages o source fileName) :
    ∃ default exports remarks more, metadataExport o.dialect st.extraction.metadata = .ok (default, remarks) ∧
      storyExports o.dialect st.extraction.stories = .ok (exports, more) ∧
      st.program.statements = st.preamble.demote.statements ++ default :: exports ∧
      st.remarks = remarks ++ more := by
  obtain ⟨⟨default, remarks⟩, hdefault, h⟩ := bind_eq_ok_iff.mp st.program_eq
  obtain ⟨⟨exports, more⟩, hexports, h⟩ := bind_eq_ok_iff.mp h
  obtain ⟨hprogram, hremarks⟩ := Prod.mk.inj (Except.ok.inj h)
  exact ⟨default, exports, remarks, more, hdefault, hexports, by rw [← hprogram], hremarks.symm⟩

/-- The remarks of a migration, stage by stage. -/
theorem diagnostics_result (st : Stages o source fileName) : st.result.diagnostics =
    (namespaceRemarks (leafOf fileName) (namespaceOf fileName) ++
      (extract (namespaceOf fileName) st.imported).2.remarks ++ st.preamble.dropped.map droppedRemark ++
      st.remarks ++ (layOut o st.program.print
        (Naming.moduleFileName (baseOf fileName) o.dialect.extension.toList)).2).map
      (Diagnostic.stamp (some (String.ofList fileName))) := rfl

/-- The stages before extraction leave the visited elements as they were read. -/
theorem collected_eq (st : Stages o source fileName) :
    (extract (namespaceOf fileName) st.imported).2 =
      st.document.segments.foldl Collected.addSegment {} := by
  rw [extract_collected, ← Collected.foldl_filter_visited,
    st.imported_filter (fun _ => rfl) (fun _ => rfl), Collected.foldl_filter_visited]

theorem source_eq (st : Stages o source fileName) :
    st.document.segments.flatMap Segment.source = source := by
  have hpristine := parse_pristine st.document_eq
  rw [Document.segments, Segment.flatMap_segmentsAll fun n hn => Segment.flatMap_segments (hpristine n hn)]
  exact parse_print st.document_eq

theorem segments_placed (st : Stages o source fileName) : Segment.Placed .start st.document.segments :=
  (parse_placed st.document_eq).segments (parse_pristine st.document_eq)

theorem code_mem_remarks (st : Stages o source fileName) : ∀ d ∈ st.remarks, d.code ∈ Synthesis.codes := by
  obtain ⟨_, _, remarks, more, hdefault, hexports, _, hremarks⟩ := st.exists_exports
  rw [hremarks, List.forall_mem_append]
  constructor
  · intro d hd
    rw [((remarks_metadataExport hdefault).2 d hd).1]
    simp [Synthesis.codes]
  · intro d hd
    obtain ⟨entry, _, code, hcode, message, rfl⟩ := (remarks_storyExports hexports).2 d hd
    exact List.mem_cons_of_mem _ hcode

/-- How often a kind of remark is given, stage by stage; only layout remarks on the module. -/
theorem count_diagnostics (st : Stages o source fileName) {code : Diagnostic.Code}
    (hcode : code ≠ .unformattedModule) : Diagnostic.count code st.result.diagnostics =
      (if Naming.isBindingName (namespaceOf fileName) = false ∧ code = .invalidIdentifier then 1 else 0) +
        Collected.countOf code st.document.segments +
        (if code = .droppedExport then st.preamble.dropped.length else 0) +
        Diagnostic.count code st.remarks := by
  have hns : Diagnostic.count code (namespaceRemarks (leafOf fileName) (namespaceOf fileName)) =
      if Naming.isBindingName (namespaceOf fileName) = false ∧ code = .invalidIdentifier then 1 else 0 := by
    rw [namespaceRemarks]
    cases Naming.isBindingName (namespaceOf fileName) with
    | true => simp
    | false => simp [@eq_comm _ code]
  have hdropped : Diagnostic.count code (st.preamble.dropped.map droppedRemark) =
      if code = .droppedExport then st.preamble.dropped.length else 0 := by
    rw [Diagnostic.count, List.countP_map]
    split
    · rename_i heq
      rw [heq, List.countP_eq_length]
      exact fun _ _ => rfl
    · rename_i hne
      rw [List.countP_eq_zero]
      intro _ _ heq
      exact hne (beq_iff_eq.mp heq).symm
  have hlaid : Diagnostic.count code (layOut o st.program.print
      (Naming.moduleFileName (baseOf fileName) o.dialect.extension.toList)).2 = 0 := by
    rw [layOut]
    split
    · rfl
    · rw [Diagnostic.count_singleton]
      exact if_neg hcode.symm
  rw [diagnostics_result, Diagnostic.count_stamp, Diagnostic.count_append, Diagnostic.count_append,
    Diagnostic.count_append, Diagnostic.count_append, hns, hdropped, hlaid, collected_eq, Collected.countOf,
    Nat.add_zero]

/-- Before they are given the name of the file, all remarks are unstamped and stand at visited elements. -/
theorem unstamped (st : Stages o source fileName) : ∀ d ∈
    namespaceRemarks (leafOf fileName) (namespaceOf fileName) ++
      (extract (namespaceOf fileName) st.imported).2.remarks ++ st.preamble.dropped.map droppedRemark ++
      st.remarks ++ (layOut o st.program.print
        (Naming.moduleFileName (baseOf fileName) o.dialect.extension.toList)).2,
      d.Unstamped (st.document.segments.filterMap fun s => s.tag?.map Tag.position) := by
  have hposition : ∀ s ∈ st.document.segments, ∀ tag, s.tag? = some tag →
      tag.position ∈ st.document.segments.filterMap fun s => s.tag?.map Tag.position := by
    intro s hs tag htag
    exact List.mem_filterMap.mpr ⟨s, hs, by rw [htag]; rfl⟩
  obtain ⟨_, _, remarks, more, hdefault, hexports, _, hremarks⟩ := st.exists_exports
  rw [List.forall_mem_append, List.forall_mem_append, List.forall_mem_append, List.forall_mem_append, and_assoc,
    and_assoc, and_assoc]
  refine ⟨?_, ?_, ?_, ?_, ?_⟩
  · rw [namespaceRemarks]
    split
    · simp
    · rw [List.forall_mem_singleton]
      exact ⟨rfl, .inl ⟨rfl, rfl⟩⟩
  · rw [collected_eq]
    refine Collected.forall_remarks_foldl fun s hs tag htag code _ message => ?_
    exact Diagnostic.unstamped_atPosition (hposition s hs tag htag) code message
  · intro d hd
    obtain ⟨_, _, rfl⟩ := List.mem_map.mp hd
    exact ⟨rfl, .inl ⟨rfl, rfl⟩⟩
  · rw [hremarks, List.forall_mem_append]
    constructor
    · intro d hd
      obtain ⟨_, hfile, hplace⟩ := (remarks_metadataExport hdefault).2 d hd
      exact ⟨hfile, .inl hplace⟩
    · intro d hd
      obtain ⟨⟨key, r⟩, hentry, code, _, message, rfl⟩ := (remarks_storyExports hexports).2 d hd
      -- A record is that of a visited story.
      rw [extraction, collected_eq, Collected.mem_stories_foldl] at hentry
      obtain ⟨before, s, behind, hsplit, hrecord, _⟩ := hentry
      have hs : s ∈ st.document.segments := by
        rw [hsplit]
        simp
      cases s with
      | prose | fixed | metadata => cases hrecord
      | story tag children hname =>
          obtain ⟨name, _, hentry⟩ := Option.map_eq_some_iff.mp hrecord
          cases hentry
          exact Diagnostic.unstamped_atPosition (hposition _ hs tag rfl) code message
  · rw [layOut]
    split
    · simp
    · rw [List.forall_mem_singleton]
      exact ⟨rfl, .inl ⟨rfl, rfl⟩⟩

end Stages

/-- A remark points at a visited element of a documentation: it stands behind the segments in front of the
element, and its line and column are those of the bracket there. -/
def PointsAt (document : Document) (source : List Char) (d : Diagnostic) : Prop :=
  ∃ before s behind tag, document.segments = before ++ s :: behind ∧ s.tag? = some tag ∧
    (tag.name = metaElement ∨ tag.name = storyElement) ∧ ('<' :: tag.name) <+: s.source ∧
    source = before.flatMap Segment.source ++ s.source ++ behind.flatMap Segment.source ∧
    d.line = some ((before.flatMap Segment.source).count '\n' + 1) ∧
    d.column = some (((before.flatMap Segment.source).reverse.takeWhile (· != '\n')).length + 1)

/-- Remarks account for what a migration did on the author's behalf. -/
structure Accounted {o : Options} {source fileName : List Char} (st : Stages o source fileName)
    (ds : List Diagnostic) : Prop where
  /-- Stories without a literal name were removed. -/
  unnamed : Diagnostic.count .unnamedStory ds = st.document.segments.countP Segment.isUnnamed
  /-- Stories took the place of others with their name. -/
  duplicate : Diagnostic.count .duplicateStory ds =
    (st.document.segments.filterMap Segment.key?).length -
      (st.document.segments.filterMap Segment.key?).eraseDups.length
  /-- Metadata elements were joined with the first. -/
  joined : Diagnostic.count .multipleMeta ds = st.document.segments.countP Segment.isMetadata - 1
  /-- The default export was left empty. -/
  missing : Diagnostic.count .missingMeta ds =
    if st.document.segments.countP Segment.isMetadata = 0 then 1 else 0
  /-- Names were exported or imported that cannot be bound. -/
  invalid : Diagnostic.count .invalidIdentifier ds =
    (st.document.segments.filterMap Segment.key?).countP (fun key => !Naming.isBindingName key) +
      if Naming.isBindingName (namespaceOf fileName) then 0 else 1
  /-- Exports were not carried over. -/
  dropped : Diagnostic.count .droppedExport ds = st.preamble.dropped.length
  /-- All other statements of the scripts were, the exported ones as plain declarations. -/
  kept : Diagnostic.count .droppedExport ds + st.preamble.demote.statements.length =
    st.preamble.statements.length
  /-- Children of stories were not rendered. -/
  extra : Diagnostic.count .extraStoryChildren ds =
    st.extraction.stories.countP fun entry => hasExtraChildren entry.2
  /-- All of them name the file. -/
  file : ∀ d ∈ ds, d.file = some (String.ofList fileName)
  /-- Those with a place point at visited elements. -/
  place : ∀ d ∈ ds, (d.line = none ∧ d.column = none) ∨ PointsAt st.document source d

namespace Stages

variable {o : Options} {source fileName : List Char}

/-- A remark at the position of a visited element points at the element. -/
theorem pointsAt_of_position (st : Stages o source fileName) {d : Diagnostic} {p : Position}
    (hp : p ∈ st.document.segments.filterMap fun s => s.tag?.map Tag.position)
    (hline : d.line = some p.line) (hcolumn : d.column = some p.column) :
    PointsAt st.document source d := by
  obtain ⟨s, hs, htagged⟩ := List.mem_filterMap.mp hp
  obtain ⟨tag, htag, rfl⟩ := Option.map_eq_some_iff.mp htagged
  obtain ⟨before, behind, hsplit⟩ := List.append_of_mem hs
  have hplaced := st.segments_placed
  rw [hsplit, Segment.placed_append, Segment.Placed] at hplaced
  obtain ⟨hposition, hbracket⟩ := hplaced.2.1 tag htag
  refine ⟨before, s, behind, tag, hsplit, htag, Segment.name_of_tag? htag, hbracket, ?_, ?_, ?_⟩
  · rw [← st.source_eq, hsplit]
    simp
  · rw [hline, hposition, Position.line_after_start]
  · rw [hcolumn, hposition, Position.column_after_start]

theorem accounted (st : Stages o source fileName) : Accounted st st.result.diagnostics := by
  obtain ⟨_, _, remarks, more, hdefault, hexports, _, hremarks⟩ := st.exists_exports
  have hextraction : st.extraction = (st.document.segments.foldl Collected.addSegment {}).extraction :=
    congrArg Collected.extraction st.collected_eq
  -- Extraction and synthesis have their own kinds of remarks.
  have hcollected : ∀ code, code ∉ Collected.codes → Collected.countOf code st.document.segments = 0 :=
    fun code hcode => Diagnostic.count_eq_zero_of_mem (Collected.code_mem_foldl _) hcode
  have hsynthesis : ∀ code, code ∉ Synthesis.codes → Diagnostic.count code st.remarks = 0 :=
    fun code hcode => Diagnostic.count_eq_zero_of_mem st.code_mem_remarks hcode
  have hmissing : ∀ d ∈ remarks, d.code ∈ [Diagnostic.Code.missingMeta] := by
    intro d hd
    rw [((remarks_metadataExport hdefault).2 d hd).1]
    simp
  have hbodies : ∀ d ∈ more, d.code ∈ [Diagnostic.Code.proseStoryBody, .extraStoryChildren] := by
    intro d hd
    obtain ⟨_, _, code, hcode, message, rfl⟩ := (remarks_storyExports hexports).2 d hd
    exact hcode
  have hdropped : Diagnostic.count .droppedExport st.result.diagnostics = st.preamble.dropped.length := by
    rw [st.count_diagnostics (by decide), hsynthesis _ (by decide), hcollected _ (by decide)]
    simp
  constructor
  case unnamed =>
    rw [st.count_diagnostics (by decide), hsynthesis _ (by decide), Collected.countOf_unnamedStory]
    simp
  case duplicate =>
    have hcount := Collected.countOf_duplicateStory st.document.segments
    rw [st.count_diagnostics (by decide), hsynthesis _ (by decide)]
    simp only [reduceCtorEq, and_false, if_false]
    omega
  case joined =>
    rw [st.count_diagnostics (by decide), hsynthesis _ (by decide), Collected.countOf_multipleMeta]
    simp
  case missing =>
    have hnone : st.extraction.metadata.isNone = decide (st.document.segments.countP Segment.isMetadata = 0) := by
      rw [hextraction, Bool.eq_iff_iff, decide_eq_true_iff, ← Nat.not_lt.trans Nat.le_zero,
        ← Collected.isSome_metadata_foldl]
      simp
    rw [st.count_diagnostics (by decide), hcollected _ (by decide), hremarks, Diagnostic.count_append,
      (remarks_metadataExport hdefault).1, Diagnostic.count_eq_zero_of_mem hbodies (by decide), hnone]
    simp
  case invalid =>
    rw [st.count_diagnostics (by decide), hsynthesis _ (by decide), Collected.countOf_invalidIdentifier]
    cases Naming.isBindingName (namespaceOf fileName) <;> simp [Nat.add_comm]
  case dropped => exact hdropped
  case kept =>
    rw [hdropped]
    exact Program.length_dropped_add_length_demote st.preamble_eq
  case extra =>
    rw [st.count_diagnostics (by decide), hcollected _ (by decide), hremarks, Diagnostic.count_append,
      (remarks_storyExports hexports).1, Diagnostic.count_eq_zero_of_mem hmissing (by decide)]
    simp
  case file =>
    intro d hd
    rw [diagnostics_result] at hd
    obtain ⟨raw, hraw, rfl⟩ := List.mem_map.mp hd
    rw [Diagnostic.stamp, (st.unstamped raw hraw).file]
    rfl
  case place =>
    intro d hd
    rw [diagnostics_result] at hd
    obtain ⟨raw, hraw, rfl⟩ := List.mem_map.mp hd
    rcases (st.unstamped raw hraw).place with hnowhere | ⟨p, hp, hline, hcolumn⟩
    · exact .inl hnowhere
    · exact .inr (st.pointsAt_of_position hp hline hcolumn)

end Stages

/-- The remarks of a migration that succeeds account for every change, and each names the file and points at the
element that it is about, if it is about one. -/
theorem run_accounted {o : Options} {source fileName : List Char} {m : Migrated}
    (h : run o source fileName = .ok m) :
    ∃ st : Stages o source fileName, st.result = m ∧ Accounted st m.diagnostics := by
  obtain ⟨st, rfl⟩ := run_eq_ok_iff.mp h
  exact ⟨st, rfl, st.accounted⟩

/-- Two stories with one name, and a story without a name in a line of its own. -/
def duplicateSource : List Char :=
  "<Story name='b' /> <Story name='b' />\n<Story />".toList

theorem run_accounted_duplicate :
    ∃ m, run {} duplicateSource "Foo.mdx".toList = .ok m ∧
      ∃ st : Stages {} duplicateSource "Foo.mdx".toList, st.result = m ∧ Accounted st m.diagnostics := by
  obtain ⟨first, second, third, hparse, hfirst, hsecond, hthird, hattributes, hothers, hnone⟩ :
      ∃ first second third,
        parse duplicateSource = .ok
          ⟨[.element first [], .text [' '], .element second [], .text ['\n'], .element third []]⟩ ∧
        first.name = storyElement ∧ second.name = storyElement ∧ third.name = storyElement ∧
        first.attributes = [.property "name".toList (some (.literal "b".toList))] ∧
        second.attributes = [.property "name".toList (some (.literal "b".toList))] ∧
        third.attributes = [] :=
    ⟨_, _, _, rfl, rfl, rfl, rfl, rfl, rfl, rfl⟩
  obtain ⟨preamble, hpreamble⟩ : ∃ p, Program.parse [] .tsx "script blocks" = .ok p := ⟨_, rfl⟩
  have hliteral : Story.literalName? first = some "b".toList := by
    simp [Story.literalName?, Tag.attribute?, hattributes, Attribute.name?, Attribute.literal?]
  have hother : Story.literalName? second = some "b".toList := by
    simp [Story.literalName?, Tag.attribute?, hothers, Attribute.name?, Attribute.literal?]
  have hunnamed : Story.literalName? third = none := by
    simp [Story.literalName?, Tag.attribute?, hnone]
  have hextraction : (extract (namespaceOf "Foo.mdx".toList) (importedOf "Foo.mdx".toList
      [.element first [], .text [' '], .element second [], .text ['\n'], .element third []])).2.extraction =
        ⟨none, [(Naming.capitalize "b".toList, ⟨"b".toList, [], [], second.position⟩)]⟩ := by
    rw [extract_collected]
    simp [importedOf, addImport, addToFirst?, Document.segments, Segment.segments_story hfirst,
      Segment.segments_story hsecond, Segment.segments_story hthird, Collected.addSegment, hliteral, hother,
      hunnamed, Collected.addStory, Collected.dropStory, Collected.remark, Extraction.put, Story.ofElement,
      hothers, Attribute.name?]
  obtain ⟨program, remarks, hprogram⟩ : ∃ program remarks, synthesize .tsx preamble.demote
      (extract (namespaceOf "Foo.mdx".toList) (importedOf "Foo.mdx".toList
        [.element first [], .text [' '], .element second [], .text ['\n'], .element third []])).2.extraction =
          .ok (program, remarks) := by
    rw [hextraction]
    exact ⟨_, _, rfl⟩
  obtain ⟨m, hrun⟩ : ∃ m, run {} duplicateSource "Foo.mdx".toList = .ok m :=
    ⟨_, run_eq_ok_iff.mpr ⟨⟨_, _, _, program, remarks, hparse, rfl, hpreamble, hprogram⟩, rfl⟩⟩
  exact ⟨m, hrun, run_accounted hrun⟩

end Migration
end StoryDocs
