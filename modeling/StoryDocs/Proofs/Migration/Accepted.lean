import StoryDocs.Proofs.Files.Path
import StoryDocs.Proofs.Migration.Modules

/-!
# Modules that are accepted

The story module is put together from pieces that were accepted one by one.  If the statements of the scripts are of
the syntax, and so are the expressions of attributes and bodies wherever they are put, the whole module is: every
parser that reads the syntax accepts it, item by item.
-/

namespace StoryDocs

open Text Markup Script

namespace Synthesis

variable {tags : Bool} {dialect : Dialect} {key : List Char} {ps : List (List Char)} {shapes : List Shape}

/-! ## Exports -/

/-- A statement whose text is a module of the syntax, up to the end of its last line. -/
def CoreStatement (tags : Bool) (s : Statement) (shapes : List Shape) : Prop :=
  CoreModule tags (s.text ++ ['\n']) shapes

theorem coreStatement_of_item {s : Statement} {item : Shape} (h : CoreItem tags s.text item) :
    CoreStatement tags s [item] := by
  have hmodule := CoreModule.cons .nil h (.nil isGap_feed)
  rwa [List.nil_append] at hmodule

/-- The default export of attributes that can be moved. -/
theorem exists_coreStatement_metadata {metadata : Option (List Attribute)} {statement : Statement}
    {remarks : List Diagnostic} (h : metadataExport dialect metadata = .ok (statement, remarks))
    (hmovable : ∀ attributes, metadata = some attributes → ∀ a ∈ attributes,
      MovableAttribute dialect.features.tags a) :
    ∃ item, IsDefault item ∧ CoreStatement dialect.features.tags statement [item] := by
  obtain ⟨ps, shapes, rfl, hcores⟩ : ∃ ps shapes, statement = defaultExport ps ∧
      List.Forall₂ (CoreMember dialect.features.tags) ps shapes := by
    cases metadata with
    | none =>
        cases h
        exact ⟨[], [], rfl, .nil⟩
    | some attributes =>
        obtain ⟨ps, hps, hs⟩ := map_eq_ok_iff.mp h
        cases hs
        obtain ⟨shapes, _, hcores⟩ := exists_coreMembers readsCore_parse? id hps (hmovable attributes rfl)
        exact ⟨ps, shapes, rfl, hcores⟩
  obtain ⟨comma, hitem⟩ := coreItem_defaultExport hcores
  exact ⟨_, ⟨shapes, comma, rfl⟩, coreStatement_of_item hitem⟩

/-- The export of an object literal of the syntax. -/
theorem exists_coreItem_storyExport (hkey : IsKey key) (h : List.Forall₂ (CoreMember tags) ps shapes) :
    ∃ item, IsConstant key item ∧ CoreItem tags (storyExport key ps).text item := by
  obtain ⟨comma, hobject⟩ := core_renderObject h
  have hspace : IsSpace [' '] := ⟨isGap_space, by decide⟩
  have hitem := CoreItem.exported hspace (.mk hspace hkey.word hkey.binding isGap_space hspace hobject .nil)
  exact ⟨_, ⟨shapes, comma, rfl⟩, by simpa [storyExport] using hitem⟩

/-- The exports of stories that can be moved. -/
theorem exists_coreStatements_stories {stories : List (List Char × Story)} {exports : List Statement}
    {remarks : List Diagnostic} (h : storyExports dialect stories = .ok (exports, remarks))
    (hmovable : ∀ entry ∈ stories, IsKey entry.1 ∧ MovableStory dialect entry.2) :
    ∃ items, List.Forall₂ IsConstant (stories.map Prod.fst) items ∧
      List.Forall₂ (CoreStatement dialect.features.tags) exports (items.map fun item => [item]) := by
  induction stories generalizing exports remarks with
  | nil =>
      cases h
      exact ⟨[], .nil, .nil⟩
  | cons entry rest ih =>
      rw [List.forall_mem_cons] at hmovable
      obtain ⟨⟨hkey, hstory⟩, hrests⟩ := hmovable
      obtain ⟨⟨properties, _⟩, hproperties, h⟩ := bind_eq_ok_iff.mp h
      obtain ⟨⟨statements, _⟩, hrest, h⟩ := bind_eq_ok_iff.mp h
      cases h
      obtain ⟨render, shapes, _, _, hcores⟩ := exists_story_coreMembers readsCore_parse? hproperties hstory
      obtain ⟨item, hconstant, hitem⟩ := exists_coreItem_storyExport hkey hcores
      obtain ⟨items, hconstants, hstatements⟩ := ih hrest hrests
      exact ⟨item :: items, .cons hconstant hconstants, .cons (coreStatement_of_item hitem) hstatements⟩

end Synthesis

namespace Migration

open Synthesis

/-- The story module is read with tags. -/
theorem allow_moduleFeatures (o : Options) (fileName : List Char) (tags : Bool) :
    (moduleFeatures o fileName).Allow tags := by
  intro _
  have hname : Naming.moduleFileName (baseOf fileName) o.dialect.extension.toList =
      baseOf fileName ++ (".stories".toList ++ '.' :: o.dialect.extension.toList) := by
    simp [Naming.moduleFileName]
  have hextension : Files.extension? (baseOf fileName ++ (".stories".toList ++ '.' :: o.dialect.extension.toList)) =
      some o.dialect.extension.toList :=
    Files.extension?_append (baseOf fileName) (by decide) (by cases o.dialect <;> decide) (by cases o.dialect <;> decide)
      (by cases o.dialect <;> decide)
  rw [moduleFeatures, Layout.featuresOf, hname, hextension]
  cases o.dialect <;> rfl

/-! ## Statements in turn -/

/-- Statements of the syntax are a module of it, one behind the other. -/
theorem coreModule_linedUp {tags : Bool} {ss : List Statement} {shapes : List (List Shape)}
    (h : List.Forall₂ (CoreStatement tags) ss shapes) : CoreModule tags (Program.linedUp ss) shapes.flatten := by
  induction h with
  | nil => exact .nil .nil
  | @cons s shapes ss more hs _ ih =>
      obtain ⟨g, hgap, _, hblank⟩ := Program.exists_gapBehind s ss
      have hmodule := hs.append (ih.gap_front (isGap_blank hblank))
      rw [Program.linedUp, hgap, List.flatten_cons]
      simpa using hmodule

namespace Stages

variable {o : Options} {source fileName : List Char}

/-- The pieces of the story module are of the syntax, and can be moved. -/
structure Movable (st : Stages o source fileName) : Prop where
  /-- The statements of the scripts, without their exports. -/
  preamble : ∀ s ∈ st.preamble.demote.statements, ∃ shapes, CoreStatement o.dialect.features.tags s shapes
  metadata : ∀ attributes, st.extraction.metadata = some attributes → ∀ a ∈ attributes,
    MovableAttribute o.dialect.features.tags a
  stories : ∀ entry ∈ st.extraction.stories, IsWord entry.1 ∧ MovableStory o.dialect entry.2

/-- The story module of such pieces is a module of the syntax: the statements of the scripts, a default export and an
export for each story. -/
theorem Movable.exists_coreModule {st : Stages o source fileName} (h : st.Movable)
    (hnames : ∀ d ∈ st.result.diagnostics, d.code ≠ .invalidIdentifier) :
    ∃ scripts default exports,
      CoreModule o.dialect.features.tags st.program.print (scripts.flatten ++ default :: exports) ∧
      List.Forall₂ (CoreStatement o.dialect.features.tags) st.preamble.demote.statements scripts ∧ IsDefault default ∧
        List.Forall₂ IsConstant st.extraction.keys exports := by
  obtain ⟨statement, statements, _, _, hmetadata, hexports, hprogram, _⟩ := st.exists_exports
  have hkeys := st.bindingWord_of_diagnostics hnames
  have hstories : ∀ entry ∈ st.extraction.stories, IsKey entry.1 ∧ MovableStory o.dialect entry.2 := by
    intro entry hentry
    obtain ⟨hword, hstory⟩ := h.stories entry hentry
    exact ⟨⟨hword, hkeys _ (List.mem_map_of_mem hentry)⟩, hstory⟩
  obtain ⟨scripts, hscripts⟩ : ∃ scripts,
      List.Forall₂ (CoreStatement o.dialect.features.tags) st.preamble.demote.statements scripts := by
    have hall := h.preamble
    generalize st.preamble.demote.statements = ss at hall
    induction ss with
    | nil => exact ⟨[], .nil⟩
    | cons s ss ih =>
        rw [List.forall_mem_cons] at hall
        obtain ⟨shapes, hs⟩ := hall.1
        obtain ⟨scripts, hrest⟩ := ih hall.2
        exact ⟨shapes :: scripts, .cons hs hrest⟩
  obtain ⟨default, hdefault, hstatement⟩ := exists_coreStatement_metadata hmetadata h.metadata
  obtain ⟨exports, hconstants, hstatements⟩ := exists_coreStatements_stories hexports hstories
  have hall : List.Forall₂ (CoreStatement o.dialect.features.tags) st.program.statements
      (scripts ++ [default] :: exports.map fun item => [item]) := by
    rw [hprogram]
    exact List.rel_append hscripts (.cons hstatement hstatements)
  have hmodule := coreModule_linedUp hall
  have hflat : (scripts ++ [default] :: exports.map fun item => [item]).flatten = scripts.flatten ++
    default :: exports := by
    simp [← List.flatMap_def]
  obtain ⟨_, body, htext⟩ := metadataExport_exportsDefault hmetadata
  have hmem : statement ∈ st.program.statements := by
    rw [hprogram]
    simp
  have hprint : st.program.print = Program.linedUp st.program.statements :=
    Program.print_eq_linedUp hmem (by simp [htext])
  rw [← hprint, hflat] at hmodule
  exact ⟨scripts, default, exports, hmodule, hscripts, hdefault, hconstants⟩

end Stages

/-- Valid pieces give a valid module: if no name is remarked on and all pieces are of the syntax and can be moved, the
story module is a module of the syntax, so every parser that reads the syntax accepts it, with one item for each.  The
migration then lays it out and does not remark on it. -/
theorem module_accepted {o : Options} {source fileName : List Char} {m : Migrated}
    (hrun : run o source fileName = .ok m) (hnames : ∀ d ∈ m.diagnostics, d.code ≠ .invalidIdentifier)
    (st : Stages o source fileName) (hmovable : st.Movable) :
    (∃ scripts default exports,
      CoreModule o.dialect.features.tags st.program.print (scripts.flatten ++ default :: exports) ∧
      List.Forall₂ (CoreStatement o.dialect.features.tags) st.preamble.demote.statements scripts ∧ IsDefault default ∧
      List.Forall₂ IsConstant st.extraction.keys exports ∧
      ∀ parse?, ReadsCore parse? → ∃ items, parse? (Layout.featuresOf m.fileName) st.program.print = some items ∧
        items.map Tree.shape = scripts.flatten ++ default :: exports) ∧
    (∀ d ∈ m.diagnostics, d.code ≠ .unformattedModule) ∧
      ∃ items, Module.parse? (Layout.featuresOf m.fileName) st.program.print = some items ∧
        m.module = Layout.layText o.style (Layout.Literals.ofModule st.program.print items) st.program.print := by
  obtain rfl : st.result = m := Except.ok.inj (st.run_eq.symm.trans hrun)
  obtain ⟨scripts, default, exports, hmodule, hscripts, hdefault, hexports⟩ := hmovable.exists_coreModule hnames
  have hfeatures : (Layout.featuresOf st.result.fileName).Allow o.dialect.features.tags :=
    allow_moduleFeatures o fileName _
  obtain ⟨items, hitems, _⟩ := readsCore_parse? hfeatures hmodule
  exact ⟨⟨scripts, default, exports, hmodule, hscripts, hdefault, hexports, fun _ hparser => hparser hfeatures hmodule⟩,
    st.code_ne_of_accepted hitems, items, hitems, congrArg Prod.fst (st.layOut_of_accepted hitems)⟩

/-- A script that imports a name, metadata with an object literal over several lines, and a story that renders it. -/
def rowSource : List Char :=
  importScript "row".toList ++ "\n\n<Meta title='t' row=\x7b".toList ++ rowObject ++
    "\x7d />\n\n<Story name='primary'>\x7b".toList ++ rowObject ++ "\x7d</Story>\n".toList

/-- The story module of this document. -/
def rowProgram : Program :=
  ⟨[⟨.import, importScript "row".toList, none⟩,
    defaultExport [keyed "title".toList (Naming.quoted "t".toList), keyed "row".toList (dedent rowObject)],
    storyExport "Primary".toList
      ["render: ".toList ++ dedent ("() => (".toList ++ rowObject ++ [')']),
        "name: ".toList ++ Naming.quoted "primary".toList]]⟩

/-- The title and the object. -/
def rowAttributes : List Attribute :=
  [.property "title".toList (some (.literal "t".toList)), .property "row".toList (some (.expression rowObject))]

theorem rowAttributes_movable : ∀ a ∈ rowAttributes, MovableAttribute true a := by
  simp only [rowAttributes, List.forall_mem_cons, List.not_mem_nil, false_imp_iff, implies_true, and_true]
  refine ⟨?_, ?_, movableBody_rowObject.movable⟩
  · show WordKey _
    decide +kernel
  · decide

theorem rowAttributes_accepted (owner : String) : rowAttributes.mapM (property .tsx owner) = .ok
    [keyed "title".toList (Naming.quoted "t".toList), keyed "row".toList (dedent rowObject)] := by
  obtain ⟨f, hparse, hsource, _⟩ := exists_parse_rowObject
  have hrow := propertyWith_expression hparse owner "row".toList
  rw [hsource] at hrow
  exact mapM_eq_ok_iff.mpr (.cons rfl (.cons hrow .nil))

theorem synthesize_row {about story : Tag} (habout : about.attributes = rowAttributes) :
    synthesize .tsx (Program.demote ⟨[⟨.import, importScript "row".toList, none⟩]⟩)
      (sheetExtraction "primary".toList about story [.expression rowObject false]) = .ok (rowProgram, []) := by
  have hexports := fun position => @storyExports_singleton _ _ _ "Primary".toList (storyProperties_some
    (@renderStory_rowObject ⟨"primary".toList, [], [.expression rowObject false], position⟩ _ rfl) fun _ => rfl)
  rw [sheetExtraction, capitalize_primary, habout]
  exact synthesize_of_exports (metadataExport_some (rowAttributes_accepted _)) (hexports story.position)

/-- A script that imports everything of a module is of the syntax. -/
theorem coreItem_importScript {tags : Bool} {name : List Char} (hword : IsWord name)
    (hbinding : Grammar.BindingWord (String.ofList name)) :
    CoreItem tags (importScript name) (importAllShape (String.ofList name) "./x") := by
  have hspace : IsSpace [' '] := ⟨isGap_space, by decide⟩
  have hitem := @CoreItem.import tags _ _
    (.names hspace (.group (.all isGap_space hspace hword hbinding)) hspace isGap_space
    (.inr rfl) "./x".toList .nil)
  rw [String.ofList_toList] at hitem
  rw [importScript, ← List.append_nil (importAll _ _), importAll_eq, quoted_eq_written]
  simp only [List.append_assoc, List.cons_append, List.nil_append] at hitem ⊢
  exact hitem

set_option maxRecDepth 4000 in
/-- The migration of the object goes through its stages, and all pieces of its module can be moved. -/
theorem exists_stages_row : ∃ st : Stages {} rowSource "Foo.mdx".toList,
    st.Movable ∧ st.program = rowProgram ∧ st.Quiet := by
  obtain ⟨about, story, hparse, habout, hattributes, hstory, hnamed⟩ : ∃ about story : Tag,
      parse rowSource = .ok ⟨sheet (importScript "row".toList) about story [.expression rowObject false]⟩ ∧
        about.name = metaElement ∧ about.attributes = rowAttributes ∧ story.name = storyElement ∧
        story.attributes = named "primary".toList := ⟨_, _, rfl, rfl, rfl, rfl, rfl⟩
  have hpreamble : Program.parse (importScript "row".toList) .tsx "script blocks" =
      .ok ⟨[⟨.import, importScript "row".toList, none⟩]⟩ := by decide +kernel
  obtain ⟨st, hquiet, hscripts, hstatements, hprogram, hextraction⟩ :=
    exists_stages_sheet hparse rfl hpreamble rfl habout hstory hnamed isBindingName_primary
      isBindingName_namespaceOf_foo (synthesize_row hattributes)
  have hmovable : st.Movable :=
    { preamble := by
        have hcore : CoreStatement true ⟨.import, importScript "row".toList, none⟩ _ :=
          coreStatement_of_item (coreItem_importScript (by decide) (by decide))
        rw [hstatements]
        exact List.forall_mem_singleton.mpr ⟨_, hcore⟩
      metadata := by
        intro attributes h
        rw [hextraction] at h
        cases h
        rw [hattributes]
        exact rowAttributes_movable
      stories := by
        have hword : IsWord "Primary".toList := by decide
        rw [hextraction, sheetExtraction, List.forall_mem_singleton, capitalize_primary]
        refine ⟨hword, List.forall_mem_nil _, ?_⟩
        rintro source ⟨⟩
        exact movableBody_rowObject }
  exact ⟨st, hmovable, hprogram, hquiet⟩

/-- The module of the object is accepted, with what its pieces say. -/
theorem module_accepted_row : ∃ m items, run {} rowSource "Foo.mdx".toList = .ok m ∧ m.diagnostics = [] ∧
    rowProgram.print = ["import * as row from './x';", "", "export default \x7b", "  title: 't',", "  row: \x7b",
      "    id: row.id, // key", "    cell: <Cell of=\x7brow\x7d />,", "    ...rest /* all */", "  \x7d,", "\x7d;", "",
      "export const Primary = \x7b", "  render: () => (\x7b", "    id: row.id, // key",
        "    cell: <Cell of=\x7brow\x7d />,",
      "    ...rest /* all */", "  \x7d),", "  name: 'primary',", "\x7d;"].flatMap (fun l => l.toList ++ ['\n']) ∧
    Module.parse? (Layout.featuresOf m.fileName) rowProgram.print = some items ∧
      m.module = Layout.layText {} (Layout.Literals.ofModule rowProgram.print items) rowProgram.print := by
  obtain ⟨st, hmovable, hprogram, hquiet⟩ := exists_stages_row
  obtain ⟨_, _, items, hitems, hmodule⟩ := module_accepted st.run_eq hquiet.code_ne st hmovable
  have hdiagnostics : st.result.diagnostics = [] :=
    hquiet.diagnostics_of_accepted (Option.isSome_iff_exists.mpr ⟨items, hitems⟩)
  rw [hprogram] at hitems hmodule
  exact ⟨_, items, st.run_eq, hdiagnostics, by decide +kernel, hitems, hmodule⟩

/-- Metadata with a comment behind an expression. -/
def commentSource : List Char :=
  "<Meta a=\x7bx // c\n\x7d b=\x7by\x7d />\n".toList

/-- The comment takes the comma behind the expression, and the module is not accepted. -/
theorem comment_hides_comma : ∃ m, run {} commentSource "Foo.mdx".toList = .ok m ∧
    m.diagnostics.map (fun d => d.code) = [.unformattedModule] := by
  obtain ⟨about, hparse, hname, hattributes⟩ : ∃ about : Tag,
      parse commentSource = .ok ⟨[.element about [], .text ['\n']]⟩ ∧ about.name = metaElement ∧
        about.attributes = [.property ['a'] (some (.expression "x // c\n".toList)),
          .property ['b'] (some (.expression ['y']))] := ⟨_, rfl, rfl, rfl⟩
  have haccepted : ((Module.parse? Dialect.tsx.features (Fragment.wrap (trim "x // c\n".toList))).bind
      Fragment.expressionOf?).isSome = true := by decide +kernel
  have hplain : ((Module.parse? Dialect.tsx.features (Fragment.wrap (trim ['y']))).bind
      Fragment.expressionOf?).isSome = true := by decide +kernel
  obtain ⟨x, hx⟩ := Option.isSome_iff_exists.mp haccepted
  obtain ⟨y, hy⟩ := Option.isSome_iff_exists.mp hplain
  have hfirst := fun context => @Fragment.parse_eq_ok _ .tsx context x (by decide) hx
  have hsecond := fun context => @Fragment.parse_eq_ok _ .tsx context y (by decide) hy
  have hcollected : (extract (namespaceOf "Foo.mdx".toList)
      (importedOf "Foo.mdx".toList [.element about [], .text ['\n']])).2 = ⟨⟨some about.attributes, []⟩, []⟩ := by
    rw [extract_collected]
    simp [importedOf, addImport, addToFirst?, Document.segments, Segment.segments_metadata hname,
      Collected.addSegment, Collected.addMetadata]
  have hpreamble : Program.parse [] .tsx "script blocks" = .ok ⟨[]⟩ := rfl
  have hprogram : synthesize .tsx (Program.demote ⟨[]⟩) ⟨some about.attributes, []⟩ =
      .ok (⟨[defaultExport ["a: x // c".toList, "b: y".toList]]⟩, []) := by
    have hps : about.attributes.mapM (property .tsx "\x60Meta\x60") = .ok ["a: x // c".toList, "b: y".toList] := by
      rw [hattributes]
      exact mapM_eq_ok_iff.mpr (.cons (propertyWith_expression hfirst _ _)
        (.cons (propertyWith_expression hsecond _ _) .nil))
    exact bind_eq_ok_iff.mpr ⟨_, metadataExport_some hps, rfl⟩
  let st : Stages {} commentSource "Foo.mdx".toList :=
    ⟨_, _, _, _, _, hparse, rfl, hpreamble, by rw [hcollected]; exact hprogram⟩
  have hquiet : st.Quiet := ⟨by decide, congrArg _ hcollected, rfl, rfl⟩
  have hrejected : (Module.parse? (moduleFeatures {} "Foo.mdx".toList) st.program.print).isNone = true := by
    show (Module.parse? _ (Program.print ⟨[defaultExport ["a: x // c".toList, "b: y".toList]]⟩)).isNone = true
    decide +kernel
  exact ⟨st.result, st.run_eq, hquiet.diagnostics_of_rejected hrejected⟩

end Migration
end StoryDocs
