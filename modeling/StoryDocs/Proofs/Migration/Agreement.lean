import Mathlib.Data.List.Induction
import StoryDocs.Proofs.Migration.Stages
import StoryDocs.Proofs.Script.Demotion
import StoryDocs.Proofs.Story.Rewriting

/-!
# Agreement of the two files

The documentation refers to its stories, and the story module exports them.  Both files are made from the
stories that extraction visits, so that each reference has its export and each export its reference.
-/

namespace StoryDocs
namespace Migration

open Text Markup Script

/-- What the documentation holds in place of a story that is exported by `key`. -/
def storyReference (ns key : List Char) : List Char :=
  "<Story of=\x7b".toList ++ ns ++ '.' :: key ++ "\x7d />".toList

/-- The stories that are exported, each name once. -/
def exportedKeys (d : Document) : List (List Char) :=
  (d.segments.filterMap Segment.key?).eraseDups

theorem nodup_exportedKeys (d : Document) : (exportedKeys d).Nodup :=
  nodup_eraseDups _

/-- A story with a name becomes its reference. -/
theorem eq_storyReference_of_becomes {ns key text : List Char} {behind before : Bool} {s : Segment}
    (h : s.Becomes ns behind before text) (hkey : s.key? = some key) :
    text = storyReference ns key := by
  cases h with
  | named hliteral =>
      simp only [Segment.key?, hliteral, Option.map_some, Option.some.injEq] at hkey
      rw [← hkey]
      rfl
  | unnamed hliteral => simp [Segment.key?, hliteral] at hkey
  | fixed | prose | alone | around => cases hkey

/-- Each segment becomes some text, with the texts in the order of the segments. -/
theorem exists_becomes_of_mem_zip {ns : List Char} {behind : Bool} {segments : List Segment}
    {texts : List (List Char)} (h : Rewritten ns behind segments texts) {s : Segment}
    {text : List Char} (hmem : (s, text) ∈ segments.zip texts) :
    ∃ behind before, s.Becomes ns behind before text := by
  induction h with
  | nil => cases hmem
  | cons hfirst _ ih =>
      rw [List.zip_cons_cons, List.mem_cons] at hmem
      rcases hmem with heq | hrest
      · cases heq
        exact ⟨_, _, hfirst⟩
      · exact ih hrest

theorem exists_mem_zip {ns : List Char} {behind : Bool} {segments : List Segment}
    {texts : List (List Char)} (h : Rewritten ns behind segments texts) {s : Segment}
    (hmem : s ∈ segments) : ∃ text, (s, text) ∈ segments.zip texts := by
  induction h with
  | nil => cases hmem
  | cons _ _ ih =>
      rcases List.mem_cons.mp hmem with rfl | hrest
      · exact ⟨_, by rw [List.zip_cons_cons]; exact List.mem_cons_self⟩
      · obtain ⟨text, htext⟩ := ih hrest
        exact ⟨text, by rw [List.zip_cons_cons]; exact List.mem_cons_of_mem _ htext⟩

/-- The names of the stories that have a reference among the new texts are those of all stories. -/
theorem mem_keys_iff_reference {ns : List Char} {behind : Bool} {segments : List Segment}
    {texts : List (List Char)} (h : Rewritten ns behind segments texts) (key : List Char) :
    key ∈ segments.filterMap Segment.key? ↔
      ∃ s, s.key? = some key ∧ (s, storyReference ns key) ∈ segments.zip texts := by
  constructor
  · intro hmem
    obtain ⟨s, hs, hkey⟩ := List.mem_filterMap.mp hmem
    obtain ⟨text, htext⟩ := exists_mem_zip h hs
    obtain ⟨_, _, hbecomes⟩ := exists_becomes_of_mem_zip h htext
    rw [eq_storyReference_of_becomes hbecomes hkey] at htext
    exact ⟨s, hkey, htext⟩
  · rintro ⟨s, hkey, hzip⟩
    exact List.mem_filterMap.mpr ⟨s, (List.of_mem_zip hzip).1, hkey⟩

/-- Agreement of the two files of a migration.  `texts` are the parts of the documentation, one for each
segment of the document that extraction starts from; `default` and `exports` are the statements that
synthesis adds. -/
structure Agree {o : Options} {source fileName : List Char} (st : Stages o source fileName)
    (m : Migrated) (texts : List (List Char)) (default : Statement) (exports : List Statement) :
    Prop where
  /-- The stories of the documentation are those of the source. -/
  stories :
    st.imported.segments.filter Segment.isStory = st.document.segments.filter Segment.isStory
  documentation : m.documentation = texts.flatten
  rewritten : Rewritten (namespaceOf fileName) false st.imported.segments texts
  /-- A story with a literal name is printed as its reference. -/
  references : ∀ s text key, (s, text) ∈ st.imported.segments.zip texts → s.key? = some key →
    text = storyReference (namespaceOf fileName) key
  module : m.module = (layOut o st.program.print m.fileName).1
  statements : st.program.statements = st.preamble.demote.statements ++ default :: exports
  /-- There is no other export. -/
  preamble : ∀ s ∈ st.preamble.demote.statements, s.kind ∈ [.import, .statement, .trivia]
  default : default.ExportsDefault
  exports : List.Forall₂ Statement.ExportsStory (exportedKeys st.document) exports
  nodup : (exportedKeys st.document).Nodup
  /-- The names that are exported are those that are referred to. -/
  referenced : ∀ key, key ∈ exportedKeys st.document ↔
    ∃ s, s.key? = some key ∧
      (s, storyReference (namespaceOf fileName) key) ∈ st.imported.segments.zip texts

/-- The two files of a migration agree: every visited story with a literal name is printed as its
reference, and the module consists of the demoted scripts, one default export, and one export for each
name of these stories, each name once and in the order of first appearance. -/
theorem run_agree {o : Options} {source fileName : List Char} {m : Migrated}
    (h : run o source fileName = .ok m) :
    ∃ (st : Stages o source fileName) (texts : List (List Char)) (default : Statement)
      (exports : List Statement), Agree st m texts default exports := by
  obtain ⟨st, rfl⟩ := run_eq_ok_iff.mp h
  obtain ⟨default, exports, hstatements, hdefault, hexports⟩ := synthesize_statements st.program_eq
  -- Names come from stories, and moving imports keeps the stories.
  have hkeys : st.imported.segments.filterMap Segment.key? =
      st.document.segments.filterMap Segment.key? := by
    rw [← Segment.filterMap_key?_filter_isStory, st.imported_stories,
      Segment.filterMap_key?_filter_isStory]
  have hrewritten :=
    rewritten_rewrittenAll (namespaceOf fileName) false st.imported.segments
  refine ⟨st, _, default, exports, {
    stories := st.imported_stories
    documentation := printAll_extract _ st.imported_pristine st.imported_aligned
    rewritten := hrewritten
    references := ?_
    module := rfl
    statements := hstatements
    preamble := fun s hs => Program.kind_of_mem_demote st.preamble_eq hs
    default := hdefault
    exports := ?_
    nodup := nodup_exportedKeys st.document
    referenced := ?_ }⟩
  · intro s text key hmem hkey
    obtain ⟨_, _, hbecomes⟩ := exists_becomes_of_mem_zip hrewritten hmem
    exact eq_storyReference_of_becomes hbecomes hkey
  · rw [extract_keys] at hexports
    rw [exportedKeys, ← hkeys]
    exact hexports
  · intro key
    rw [exportedKeys, List.mem_eraseDups, ← hkeys]
    exact mem_keys_iff_reference hrewritten key

/-- A file with one story, inside another element. -/
theorem run_agree_nested :
    ∃ (m : Migrated)
      (st : Stages {} "<A><Story name='b' /></A>".toList "Foo.stories.mdx".toList)
      (texts : List (List Char)) (default : Statement) (exports : List Statement),
      run {} "<A><Story name='b' /></A>".toList "Foo.stories.mdx".toList = .ok m ∧
        Agree st m texts default exports := by
  obtain ⟨outer, tag, hparse, houter, hname, hattributes⟩ :
      ∃ outer tag, parse "<A><Story name='b' /></A>".toList =
          .ok ⟨[.element outer [.element tag []]]⟩ ∧
        outer.name = "A".toList ∧ tag.name = storyElement ∧
          tag.attributes = [.property "name".toList (some (.literal "b".toList))] :=
    ⟨_, _, rfl, rfl, rfl, rfl⟩
  obtain ⟨preamble, hpreamble⟩ : ∃ p, Program.parse [] .tsx "script blocks" = .ok p := ⟨_, rfl⟩
  have hother := @Segment.segments_other outer [.element tag []] (by rw [houter]; decide)
    (by rw [houter]; decide)
  have hliteral : Story.literalName? tag = some "b".toList := by
    simp [Story.literalName?, Tag.attribute?, hattributes, Attribute.name?, Attribute.literal?]
  have hextraction : (extract (namespaceOf "Foo.stories.mdx".toList)
      (importedOf "Foo.stories.mdx".toList [.element outer [.element tag []]])).2.extraction =
        ⟨none, [(Naming.capitalize "b".toList, ⟨"b".toList, [], [], tag.position⟩)]⟩ := by
    rw [extract_collected]
    simp [importedOf, addImport, addToFirst?, Document.segments, hother,
      Segment.segments_story hname, Collected.addSegment, hliteral, Collected.addStory,
      Extraction.put, Story.ofElement, hattributes, Attribute.name?]
  obtain ⟨program, remarks, hprogram⟩ : ∃ program remarks, synthesize .tsx preamble.demote
      (extract (namespaceOf "Foo.stories.mdx".toList)
        (importedOf "Foo.stories.mdx".toList [.element outer [.element tag []]])).2.extraction =
          .ok (program, remarks) := by
    rw [hextraction]
    exact ⟨_, _, rfl⟩
  obtain ⟨m, hrun⟩ : ∃ m, run {} "<A><Story name='b' /></A>".toList "Foo.stories.mdx".toList =
      .ok m :=
    ⟨_, run_eq_ok_iff.mpr ⟨⟨_, _, _, program, remarks, hparse, rfl, hpreamble, hprogram⟩, rfl⟩⟩
  obtain ⟨st, texts, default, exports, hagree⟩ := run_agree hrun
  exact ⟨m, st, texts, default, exports, hrun, hagree⟩

end Migration
end StoryDocs
