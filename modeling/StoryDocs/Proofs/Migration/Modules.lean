import StoryDocs.Proofs.Migration.Agreement
import StoryDocs.Proofs.Migration.Remarks
import StoryDocs.Proofs.Story.Properties
import StoryDocs.Proofs.Text.Case

/-!
# The story module as a module

The story module is put together from pieces that were accepted one by one: the statements of the scripts,
the expressions of attributes and bodies, and the names of stories.  It is accepted as a whole if each piece
is read in its place as it was read alone.  Then it binds the names of the scripts and those of the stories.
-/

namespace StoryDocs

open Text Markup Script Grammar

namespace Synthesis

variable {dialect : Dialect} {s : Story}

/-! ## Exports in turn -/

variable {features : Features} {ps : List (List Char)}

/-- An item that exports an object literal by default. -/
def IsDefault (item : Shape) : Prop :=
  ∃ shapes, DefaultOf shapes item

/-- An item that exports an object literal under a name. -/
def IsConstant (key : List Char) (item : Shape) : Prop :=
  ∃ shapes, ConstantOf key shapes item

/-- A name that a story can be exported under. -/
structure IsKey (key : List Char) : Prop where
  word : IsWord key
  binding : BindingWord (String.ofList key)

/-- The exports of stories that stand are read in turn. -/
theorem inTurn_storyExports {stories : List (List Char × Story)} {exports : List Statement}
    {remarks : List Diagnostic} (h : storyExports dialect stories = .ok (exports, remarks))
    (hstands : ∀ entry ∈ stories, IsKey entry.1 ∧ StoryStands dialect features entry.2) :
    InTurn features [] exports (stories.map fun entry => IsConstant entry.1) := by
  induction stories generalizing exports remarks with
  | nil =>
      cases h
      exact .nil
  | cons entry rest ih =>
      rw [List.forall_mem_cons] at hstands
      obtain ⟨⟨hkey, hstory⟩, hrests⟩ := hstands
      obtain ⟨⟨properties, _⟩, hproperties, h⟩ := bind_eq_ok_iff.mp h
      obtain ⟨⟨statements, _⟩, hrest, h⟩ := bind_eq_ok_iff.mp h
      cases h
      obtain ⟨shapes, hreads, hproperty⟩ := exists_story_members hproperties hstory
      refine .item ?_ (ih hrest hrests)
      exact (readsItem_storyExport hreads hproperty hkey.word hkey.binding _).imp fun item hitem => ⟨_, hitem⟩

/-- So is the default export in front of them. -/
theorem inTurn_metadataExport {metadata : Option (List Attribute)} {statement : Statement}
    {remarks : List Diagnostic} {exports : List Statement} {ms : List (Shape → Prop)}
    (h : metadataExport dialect metadata = .ok (statement, remarks))
    (hstands : ∀ attributes, metadata = some attributes → ∀ a ∈ attributes, AttributeStands dialect features a)
    (hexports : InTurn features [] exports ms) :
    InTurn features [] (statement :: exports) (IsDefault :: ms) := by
  obtain ⟨ps, shapes, rfl, hreads, hproperty⟩ : ∃ ps shapes, statement = defaultExport ps ∧
      List.Forall₂ (MemberReads features) ps shapes ∧ ∀ p ∈ ps, IsProperty p := by
    cases metadata with
    | none =>
        cases h
        exact ⟨[], [], rfl, .nil, by simp⟩
    | some attributes =>
        obtain ⟨ps, hps, hs⟩ := map_eq_ok_iff.mp h
        cases hs
        obtain ⟨shapes, hreads, hproperty⟩ := exists_members hps (hstands attributes rfl)
        exact ⟨ps, shapes, rfl, hreads, hproperty⟩
  refine .item ?_ hexports
  exact (readsItem_defaultExport hreads hproperty _).imp fun item hitem => ⟨_, hitem⟩

end Synthesis

namespace Migration

open Synthesis

/-- The grammar that the story module is read in. -/
def moduleFeatures (o : Options) (fileName : List Char) : Features :=
  Layout.featuresOf (Naming.moduleFileName (baseOf fileName) o.dialect.extension.toList)

namespace Stages

variable {o : Options} {source fileName : List Char}

/-- The scripts of the documentation as one text. -/
def scripts (st : Stages o source fileName) : List Char :=
  joinScripts (Document.scripts ⟨st.moved⟩)

theorem run_eq (st : Stages o source fileName) : run o source fileName = .ok st.result :=
  run_eq_ok_iff.mpr ⟨st, rfl⟩

theorem keys_extraction (st : Stages o source fileName) : st.extraction.keys = exportedKeys st.document := by
  rw [extraction, extract_keys, exportedKeys, ← Segment.filterMap_key?_filter_isStory, st.imported_stories,
    Segment.filterMap_key?_filter_isStory]

/-- The pieces of the story module are read in their places as they were read alone. -/
structure Fits (st : Stages o source fileName) : Prop where
  /-- The statements of the scripts are what they were, without their exports. -/
  preamble : ∀ items exports, Module.parse? o.dialect.features st.scripts = some items →
    st.program.statements = st.preamble.demote.statements ++ exports →
      InTurn (moduleFeatures o fileName) exports st.preamble.demote.statements
        (((items.map Tree.shape).filterMap Shape.kept?).map Eq)
  metadata : ∀ attributes, st.extraction.metadata = some attributes →
    ∀ a ∈ attributes, AttributeStands o.dialect (moduleFeatures o fileName) a
  stories : ∀ entry ∈ st.extraction.stories,
    IsWord entry.1 ∧ StoryStands o.dialect (moduleFeatures o fileName) entry.2
  /-- The module does not start like a script with an interpreter. -/
  start : st.program.print.head? ≠ some '#'

/-- The names of stories can be bound, if none is remarked on. -/
theorem bindingWord_of_diagnostics (st : Stages o source fileName)
    (h : ∀ d ∈ st.result.diagnostics, d.code ≠ .invalidIdentifier) :
    ∀ key ∈ st.extraction.keys, BindingWord (String.ofList key) := by
  intro key hkey
  rw [extraction, extract_keys, List.mem_eraseDups] at hkey
  obtain ⟨s, hs, hskey⟩ := List.mem_filterMap.mp hkey
  have hbinding := (st.isBindingName_of_diagnostics h).2 s hs key hskey
  rw [Naming.isBindingName, Bool.and_eq_true, Bool.not_eq_true'] at hbinding
  obtain ⟨name, rfl⟩ : ∃ name, key = Naming.capitalize name := by
    cases s with
    | prose | fixed | metadata => cases hskey
    | story tag children hname =>
        obtain ⟨name, _, rfl⟩ := Option.map_eq_some_iff.mp hskey
        exact ⟨name, rfl⟩
  -- The words that only modules keep from being bound start with a lower-case letter.
  refine ⟨hbinding.2, ?_, ?_⟩
  · intro heq
    exact Naming.capitalize_ne (by simp [NotLower]) (String.ofList_injective heq)
  · intro heq
    exact Naming.capitalize_ne (by simp [NotLower]) (String.ofList_injective heq)

theorem exists_items (st : Stages o source fileName) :
    ∃ items, Module.parse? o.dialect.features st.scripts = some items := by
  have h := st.preamble_eq
  rw [Program.parse] at h
  split at h
  · cases h
  · rename_i items hitems
    exact ⟨items, hitems⟩

/-- The statements of a module whose pieces fit are read in turn: those of the scripts, the default export,
and the exports of the stories. -/
theorem inTurn_program (st : Stages o source fileName) (hfits : st.Fits)
    (hnames : ∀ d ∈ st.result.diagnostics, d.code ≠ .invalidIdentifier) {items : List Tree}
    (hitems : Module.parse? o.dialect.features st.scripts = some items) :
    InTurn (moduleFeatures o fileName) [] st.program.statements
      (((items.map Tree.shape).filterMap Shape.kept?).map Eq ++
        IsDefault :: st.extraction.keys.map IsConstant) := by
  obtain ⟨default, exports, _, _, hdefault, hexports, hstatements, _⟩ := st.exists_exports
  have hkeys := st.bindingWord_of_diagnostics hnames
  have hstories : ∀ entry ∈ st.extraction.stories,
      IsKey entry.1 ∧ StoryStands o.dialect (moduleFeatures o fileName) entry.2 := by
    intro entry hentry
    obtain ⟨hword, hstory⟩ := hfits.stories entry hentry
    exact ⟨⟨hword, hkeys _ (List.mem_map_of_mem hentry)⟩, hstory⟩
  have hturn := inTurn_metadataExport hdefault hfits.metadata (inTurn_storyExports hexports hstories)
  rw [hstatements, Extraction.keys, List.map_map]
  exact (hfits.preamble items _ hitems hstatements).append hturn

/-- A module whose pieces fit is accepted, item by item. -/
theorem exists_module (st : Stages o source fileName) (hfits : st.Fits)
    (hnames : ∀ d ∈ st.result.diagnostics, d.code ≠ .invalidIdentifier) {items : List Tree}
    (hitems : Module.parse? o.dialect.features st.scripts = some items) :
    ∃ trees, Module.parse? (moduleFeatures o fileName) st.program.print = some trees ∧
      List.Forall₂ (fun t m => m t.shape) trees (((items.map Tree.shape).filterMap Shape.kept?).map Eq ++
        IsDefault :: st.extraction.keys.map IsConstant) := by
  obtain ⟨default, exports, hstatements, ⟨_, body, htext⟩, _⟩ := synthesize_statements st.program_eq
  have hmem : default ∈ st.program.statements := by
    rw [hstatements]
    simp
  exact (st.inTurn_program hfits hnames hitems).exists_parse hmem (by simp [htext]) hfits.start

/-- A module that is accepted is laid out without a remark. -/
theorem layOut_of_accepted (st : Stages o source fileName) {trees : List Tree}
    (h : Module.parse? (moduleFeatures o fileName) st.program.print = some trees) :
    layOut o st.program.print (Naming.moduleFileName (baseOf fileName) o.dialect.extension.toList) =
      (Layout.layText o.style (Layout.Literals.ofModule st.program.print trees) st.program.print, []) := by
  rw [moduleFeatures] at h
  simp only [layOut, Layout.format, h]

/-- Only a module that is not accepted is remarked on as unformatted. -/
theorem code_ne_of_accepted (st : Stages o source fileName) {trees : List Tree}
    (h : Module.parse? (moduleFeatures o fileName) st.program.print = some trees) :
    ∀ d ∈ st.result.diagnostics, d.code ≠ .unformattedModule := by
  have hcollected : ∀ d ∈ (extract (namespaceOf fileName) st.imported).2.remarks,
      d.code ∈ Collected.codes := by
    rw [extract_collected]
    exact Collected.code_mem_foldl _
  have hsynthesis := st.code_mem_remarks
  intro d hd
  rw [diagnostics_result, st.layOut_of_accepted h, List.append_nil] at hd
  obtain ⟨e, he, rfl⟩ := List.mem_map.mp hd
  show e.code ≠ _
  rw [List.mem_append, List.mem_append, List.mem_append] at he
  rcases he with ((he | he) | he) | he
  · rw [namespaceRemarks] at he
    split at he
    · cases he
    · rw [List.mem_singleton.mp he]
      exact Diagnostic.Code.noConfusion
  · intro heq
    exact absurd (heq ▸ hcollected e he) (by decide)
  · obtain ⟨s, _, rfl⟩ := List.mem_map.mp he
    exact Diagnostic.Code.noConfusion
  · intro heq
    exact absurd (heq ▸ hsynthesis e he) (by decide)

/-- Nothing is remarked on before the module is laid out. -/
structure Quiet (st : Stages o source fileName) : Prop where
  namespaced : Naming.isBindingName (namespaceOf fileName) = true
  collected : (extract (namespaceOf fileName) st.imported).2.remarks = []
  dropped : st.preamble.dropped = []
  remarks : st.remarks = []

theorem Quiet.diagnostics {st : Stages o source fileName} (h : st.Quiet) : st.result.diagnostics =
    (layOut o st.program.print (Naming.moduleFileName (baseOf fileName) o.dialect.extension.toList)).2.map
      (Diagnostic.stamp (some (String.ofList fileName))) := by
  rw [diagnostics_result, namespaceRemarks, if_pos h.namespaced, h.collected, h.dropped, h.remarks]
  rfl

theorem Quiet.diagnostics_of_accepted {st : Stages o source fileName} (h : st.Quiet)
    (hmodule : (Module.parse? (moduleFeatures o fileName) st.program.print).isSome = true) :
    st.result.diagnostics = [] := by
  obtain ⟨trees, htrees⟩ := Option.isSome_iff_exists.mp hmodule
  rw [h.diagnostics, st.layOut_of_accepted htrees]
  rfl

theorem Quiet.diagnostics_of_rejected {st : Stages o source fileName} (h : st.Quiet)
    (hmodule : (Module.parse? (moduleFeatures o fileName) st.program.print).isNone = true) :
    st.result.diagnostics.map (fun d => d.code) = [.unformattedModule] := by
  have hnone := Option.isNone_iff_eq_none.mp hmodule
  rw [moduleFeatures] at hnone
  rw [h.diagnostics]
  simp only [layOut, Layout.format, hnone]
  rfl

/-- Nothing is remarked on but the module as a whole. -/
theorem Quiet.code_ne {st : Stages o source fileName} (h : st.Quiet) :
    ∀ d ∈ st.result.diagnostics, d.code ≠ .invalidIdentifier := by
  intro d hd
  cases hmodule : (Module.parse? (moduleFeatures o fileName) st.program.print).isSome with
  | true =>
      rw [h.diagnostics_of_accepted hmodule] at hd
      exact absurd hd List.not_mem_nil
  | false =>
      have hcode := List.mem_map_of_mem (f := fun d => d.code) hd
      rw [h.diagnostics_of_rejected (Option.isSome_eq_false_iff.mp hmodule), List.mem_singleton] at hcode
      rw [hcode]
      decide

end Stages

/-! ## A document with one story -/

/-- A document of a script, a metadata element and a story. -/
def sheet (script : List Char) (about story : Tag) (children : List Node) : List Node :=
  [.script script, .text ['\n', '\n'], .element about [], .text ['\n', '\n'], .element story children,
    .text ['\n']]

/-- The attributes of a story that has a name alone. -/
def named (name : List Char) : List Attribute :=
  [.property "name".toList (some (.literal name))]

section Sheet

variable {script name : List Char} {about story : Tag} {children : List Node}

/-- What is taken out of such a document. -/
def sheetExtraction (name : List Char) (about story : Tag) (children : List Node) : Extraction :=
  ⟨some about.attributes, [(Naming.capitalize name, ⟨name, [], children, story.position⟩)]⟩

theorem collected_sheet (habout : about.name = metaElement) (hstory : story.name = storyElement)
    (hnamed : story.attributes = named name)
    (hname : Naming.isBindingName (Naming.capitalize name) = true) (ns fileName : List Char) :
    (extract ns (importedOf fileName (sheet script about story children))).2 =
      ⟨sheetExtraction name about story children, []⟩ := by
  have hliteral : Story.literalName? story = some name := by
    simp [Story.literalName?, Tag.attribute?, hnamed, named, Attribute.name?, Attribute.literal?]
  have htaken : Story.ofElement name story children = ⟨name, [], children, story.position⟩ := by
    rw [Story.ofElement, hnamed]
    rfl
  rw [extract_collected]
  simp [importedOf, addImport, addToFirst?, sheet, Document.segments, Segment.segments_metadata habout,
    Segment.segments_story hstory, Collected.addSegment, hliteral, htaken, Collected.addMetadata,
    Collected.addStory, Collected.storyRemarks, hname, Extraction.hasKey, Extraction.put, sheetExtraction]

/-- The migration of such a document, whose script exports nothing. -/
theorem exists_stages_sheet {source fileName : List Char} {preamble program : Program}
    (hparse : parse source = .ok ⟨sheet script about story children⟩)
    (hmoved : moveImports {} 1 (sheet script about story children) = .ok (sheet script about story children))
    (hpreamble : Program.parse script .tsx "script blocks" = .ok preamble) (hdropped : preamble.dropped = [])
    (habout : about.name = metaElement) (hstory : story.name = storyElement)
    (hnamed : story.attributes = named name)
    (hname : Naming.isBindingName (Naming.capitalize name) = true)
    (hns : Naming.isBindingName (namespaceOf fileName) = true)
    (hprogram : synthesize .tsx preamble.demote (sheetExtraction name about story children) =
      .ok (program, [])) :
    ∃ st : Stages {} source fileName, st.Quiet ∧ st.scripts = script ∧ st.preamble = preamble ∧
      st.program = program ∧ st.extraction = sheetExtraction name about story children := by
  have hcollected := @collected_sheet script name about story children habout hstory hnamed hname
    (namespaceOf fileName) fileName
  have hscripts : joinScripts (Document.scripts ⟨sheet script about story children⟩) = script := rfl
  refine ⟨⟨_, _, preamble, program, [], hparse, hmoved, ?_, ?_⟩, ?_, hscripts, rfl, rfl,
    congrArg Collected.extraction hcollected⟩
  · rw [hscripts]
    exact hpreamble
  · rw [hcollected]
    exact hprogram
  · exact ⟨hns, congrArg Collected.remarks hcollected, hdropped, rfl⟩

end Sheet

/-- A script that imports everything of a module. -/
def importScript (name : List Char) : List Char :=
  importAll name (Naming.quoted "./x".toList)

theorem shapes_importScript {features : Features} {name : List Char} (hword : IsWord name)
    (hbinding : BindingWord (String.ofList name)) {items : List Tree}
    (h : Module.parse? features (importScript name) = some items) :
    items.map Tree.shape = [importAllShape (String.ofList name) "./x"] := by
  obtain ⟨tree, hparse, hshape⟩ := (@readsItem_importAll features name hword hbinding "./x".toList
    []).exists_parse (by simp [← List.length_pos_iff, length_importAll]) (by
      rw [← List.append_nil (importAll _ _), importAll_eq]
      simp)
  have hitems : Module.parse? features (importScript name) = some [tree] := hparse
  rw [hitems] at h
  cases h
  rw [List.map_singleton, hshape]
  rfl

/-- A script that imports a component, metadata about it, and a story that shows it. -/
def buttonSource : List Char :=
  importScript "Button".toList ++ "\n\n<Meta title='t' component=\x7bButton\x7d />\n\n".toList ++
    "<Story name='primary'>\x7bButton\x7d</Story>\n".toList

/-- The story module of the button. -/
def buttonProgram : Program :=
  ⟨[⟨.import, importScript "Button".toList, none⟩,
    defaultExport [keyed "title".toList (Naming.quoted "t".toList), keyed "component".toList "Button".toList],
    storyExport "Primary".toList
      ["render: ".toList ++ ("() => ".toList ++ "Button".toList),
        "name: ".toList ++ Naming.quoted "primary".toList]]⟩

theorem isBindingName_primary : Naming.isBindingName (Naming.capitalize "primary".toList) = true := by
  decide

theorem capitalize_primary : Naming.capitalize "primary".toList = "Primary".toList := by
  decide

theorem isBindingName_namespaceOf_foo : Naming.isBindingName (namespaceOf "Foo.mdx".toList) = true := by
  decide

/-- A title and a component. -/
def buttonAttributes : List Attribute :=
  [.property "title".toList (some (.literal "t".toList)),
    .property "component".toList (some (.expression "Button".toList))]

theorem isWord_button : IsWord "Button".toList := by
  decide

theorem bindingWord_button : BindingWord (String.ofList "Button".toList) := by
  decide

theorem core_button : Core false .value "Button".toList [.node .identifier "Button" []] :=
  (Core.name isWord_button (by decide) (by decide)).alone

theorem cleanlyIndented_button : CleanlyIndented "Button".toList := by
  intro l hl
  cases hl

theorem exists_parse_button : ∃ f : Fragment, (∀ context, Fragment.parse "Button".toList .tsx context = .ok f) ∧
    f.source = "Button".toList ∧ f.tree.shape = .node .identifier "Button" [] :=
  @Fragment.exists_parse_of_core _ "Button".toList _ .tsx _ readsCore_parse? (Features.allow_false _) (by decide)
    (core_button.single.gap_behind isGap_feed _ _ rfl) (List.cons_ne_nil _ _)

theorem buttonAttributes_stand {features : Features} : ∀ a ∈ buttonAttributes, AttributeStands .tsx features a := by
  simp only [buttonAttributes, List.forall_mem_cons, List.not_mem_nil, false_imp_iff, implies_true, and_true]
  refine ⟨?_, ?_, expressionStands_of_core core_button cleanlyIndented_button⟩
  · show WordKey _
    decide
  · decide

theorem buttonAttributes_accepted (owner : String) : buttonAttributes.mapM (property .tsx owner) = .ok
    [keyed "title".toList (Naming.quoted "t".toList), keyed "component".toList "Button".toList] := by
  obtain ⟨f, hparse, hsource, _⟩ := exists_parse_button
  have hcomponent := propertyWith_expression hparse owner "component".toList
  rw [hsource] at hcomponent
  exact mapM_eq_ok_iff.mpr (.cons rfl (.cons hcomponent .nil))

/-- A story whose body is the button has a function that returns it. -/
theorem renderStory_button {s : Story} (hbody : (s.children.filter fun n => !n.isBlank) =
    [.expression "Button".toList false]) :
    renderStory .tsx s = .ok (some ("() => ".toList ++ "Button".toList), []) := by
  obtain ⟨f, hparse, hsource, hshape⟩ := exists_parse_button
  have hkind : f.tree.kind = .identifier := by
    rw [← kind_shape, hshape]
    rfl
  have hbound : f.isBoundFunction = false := by
    obtain ⟨source, kind, span, name, parts⟩ := f
    rw [show kind = .identifier from hkind]
    rfl
  have hthunk : f.thunk = "() => ".toList ++ "Button".toList := by
    rw [Fragment.thunk, Fragment.isObjectLiteral, hkind, hsource]
    rfl
  have hrender := renderStoryWith_expression hparse hbody
  rw [hbound, if_neg (by decide), hthunk] at hrender
  exact hrender

theorem synthesize_button {about story : Tag} (habout : about.attributes = buttonAttributes) :
    synthesize .tsx (Program.demote ⟨[⟨.import, importScript "Button".toList, none⟩]⟩)
      (sheetExtraction "primary".toList about story [.expression "Button".toList false]) =
        .ok (buttonProgram, []) := by
  have hmetadata : metadataExport .tsx (some buttonAttributes) = .ok (defaultExport
      [keyed "title".toList (Naming.quoted "t".toList), keyed "component".toList "Button".toList], []) :=
    metadataExport_some (buttonAttributes_accepted _)
  have hexports := fun position => @storyExports_singleton _ _ _ "Primary".toList (storyProperties_some
    (@renderStory_button ⟨"primary".toList, [], [.expression "Button".toList false], position⟩ rfl) fun _ => rfl)
  rw [sheetExtraction, capitalize_primary, habout]
  exact synthesize_of_exports hmetadata (hexports story.position)

/-- The migration of the button goes through its stages, and all pieces of its module fit. -/
theorem exists_stages_button : ∃ st : Stages {} buttonSource "Foo.mdx".toList,
    st.Fits ∧ st.scripts = importScript "Button".toList ∧ st.extraction.keys = ["Primary".toList] ∧
      st.program = buttonProgram ∧ st.result.diagnostics = [] := by
  obtain ⟨about, story, hparse, habout, hattributes, hstory, hnamed⟩ : ∃ about story : Tag,
      parse buttonSource = .ok ⟨sheet (importScript "Button".toList) about story
        [.expression "Button".toList false]⟩ ∧ about.name = metaElement ∧
        about.attributes = buttonAttributes ∧ story.name = storyElement ∧
        story.attributes = named "primary".toList := ⟨_, _, rfl, rfl, rfl, rfl, rfl⟩
  have hpreamble : Program.parse (importScript "Button".toList) .tsx "script blocks" =
      .ok ⟨[⟨.import, importScript "Button".toList, none⟩]⟩ := by decide +kernel
  obtain ⟨st, hquiet, hscripts, hstatements, hprogram, hextraction⟩ :=
    exists_stages_sheet hparse rfl hpreamble rfl habout hstory hnamed isBindingName_primary
      isBindingName_namespaceOf_foo (synthesize_button hattributes)
  have hfits : st.Fits :=
    { preamble := by
        intro items exports hitems _
        rw [hscripts] at hitems
        rw [shapes_importScript isWord_button bindingWord_button hitems, hstatements]
        exact .item ((readsItem_importAll isWord_button bindingWord_button _ _).imp fun _ h => h.symm) .nil
      metadata := by
        intro attributes h a ha
        rw [hextraction] at h
        cases h
        rw [hattributes] at ha
        exact buttonAttributes_stand a ha
      stories := by
        rw [hextraction, sheetExtraction, List.forall_mem_singleton, capitalize_primary]
        have hword : IsWord "Primary".toList := by decide
        refine ⟨hword, storyStands_of_core (List.forall_mem_nil _) ?_⟩
        rintro source ⟨⟩
        exact ⟨_, core_button, .inr (by decide), cleanlyIndented_button⟩
      start := by
        rw [hprogram]
        decide }
  have haccepted : (Module.parse? (moduleFeatures {} "Foo.mdx".toList) st.program.print).isSome = true := by
    rw [hprogram]
    decide +kernel
  refine ⟨st, hfits, hscripts, ?_, hprogram, hquiet.diagnostics_of_accepted haccepted⟩
  rw [hextraction, sheetExtraction, capitalize_primary]
  rfl

/-! ## Names of the module -/

/-- The names that a module binds at its top level. -/
def moduleNames (items : List Tree) : List String :=
  items.flatMap fun t => t.shape.boundNames

theorem boundNames_of_isDefault {item : Shape} (h : IsDefault item) : item.boundNames = [] := by
  obtain ⟨shapes, comma, rfl⟩ := h
  rfl

theorem boundNames_of_isConstant {key : List Char} {item : Shape} (h : IsConstant key item) :
    item.boundNames = [String.ofList key] := by
  obtain ⟨shapes, comma, rfl⟩ := h
  rfl

theorem moduleNames_cons (t : Tree) (ts : List Tree) :
    moduleNames (t :: ts) = t.shape.boundNames ++ moduleNames ts := rfl

theorem moduleNames_constants {trees : List Tree} {keys : List (List Char)}
    (h : List.Forall₂ (fun (t : Tree) (m : Shape → Prop) => m t.shape) trees (keys.map IsConstant)) :
    moduleNames trees = keys.map String.ofList := by
  induction keys generalizing trees with
  | nil =>
      cases h
      rfl
  | cons key keys ih =>
      cases h with
      | cons hkey hrest =>
          rw [moduleNames_cons, boundNames_of_isConstant hkey, ih hrest]
          rfl

/-- The names of a module are those of its scripts and those of its stories. -/
theorem moduleNames_items {trees : List Tree} {shapes : List Shape} {keys : List (List Char)}
    (h : List.Forall₂ (fun (t : Tree) (m : Shape → Prop) => m t.shape) trees
      (shapes.map Eq ++ IsDefault :: keys.map IsConstant)) :
    moduleNames trees = shapes.flatMap Shape.boundNames ++ keys.map String.ofList := by
  induction shapes generalizing trees with
  | nil =>
      cases h with
      | cons hdefault hkeys =>
          rw [moduleNames_cons, boundNames_of_isDefault hdefault, moduleNames_constants hkeys]
          rfl
  | cons shape shapes ih =>
      cases h with
      | cons hshape hrest =>
          rw [moduleNames_cons, ← hshape, ih hrest, List.flatMap_cons, List.append_assoc]

theorem moduleNames_eq (items : List Tree) :
    moduleNames items = (items.map Tree.shape).flatMap Shape.boundNames := by
  rw [moduleNames, List.flatMap_map]

/-- A module whose pieces fit binds the names of its scripts and those of its stories, and nothing else.  It
binds each name once exactly if the scripts do and no story has a name that they bind. -/
theorem module_binds_names {o : Options} {source fileName : List Char} {m : Migrated}
    (hrun : run o source fileName = .ok m) (hnames : ∀ d ∈ m.diagnostics, d.code ≠ .invalidIdentifier)
    (st : Stages o source fileName) (hfits : st.Fits) :
    ∃ scripts items, Module.parse? o.dialect.features st.scripts = some scripts ∧
      Module.parse? (Layout.featuresOf m.fileName) st.program.print = some items ∧
      moduleNames items = moduleNames scripts ++ (exportedKeys st.document).map String.ofList ∧
      ((moduleNames items).Nodup ↔ (moduleNames scripts).Nodup ∧
        ∀ key ∈ exportedKeys st.document, String.ofList key ∉ moduleNames scripts) := by
  obtain rfl : st.result = m := Except.ok.inj (st.run_eq.symm.trans hrun)
  obtain ⟨scripts, hscripts⟩ := st.exists_items
  obtain ⟨items, hitems, hmeanings⟩ := st.exists_module hfits hnames hscripts
  have hbound : moduleNames items = moduleNames scripts ++ (exportedKeys st.document).map String.ofList := by
    rw [moduleNames_items hmeanings, flatMap_boundNames_kept?, ← moduleNames_eq, st.keys_extraction]
  refine ⟨scripts, items, hscripts, hitems, hbound, ?_⟩
  have hnodup : ((exportedKeys st.document).map String.ofList).Nodup :=
    List.Pairwise.map String.ofList (fun _ _ hne heq => hne (String.ofList_injective heq))
      (nodup_exportedKeys st.document)
  rw [hbound, List.nodup_append]
  constructor
  · rintro ⟨honce, _, hapart⟩
    exact ⟨honce, fun key hkey hmem => hapart _ hmem _ (List.mem_map_of_mem hkey) rfl⟩
  · rintro ⟨honce, hapart⟩
    refine ⟨honce, hnodup, ?_⟩
    rintro name hname _ hkey rfl
    obtain ⟨key, hmem, rfl⟩ := List.mem_map.mp hkey
    exact hapart key hmem hname

/-- The module of the button binds what its script imports and its story. -/
theorem module_binds_names_button : ∃ m items, run {} buttonSource "Foo.mdx".toList = .ok m ∧
    Module.parse? (Layout.featuresOf m.fileName) buttonProgram.print = some items ∧
      moduleNames items = ["Button", "Primary"] := by
  obtain ⟨st, hfits, hscripts, hkeys, hprogram, hdiagnostics⟩ := exists_stages_button
  have hremarks : ∀ d ∈ st.result.diagnostics, d.code ≠ .invalidIdentifier := by
    rw [hdiagnostics]
    exact List.forall_mem_nil _
  obtain ⟨scripts, items, hread, hitems, hnames, _⟩ :=
    module_binds_names st.run_eq hremarks st hfits
  rw [hprogram] at hitems
  rw [hscripts] at hread
  refine ⟨st.result, items, st.run_eq, hitems, ?_⟩
  rw [hnames, ← st.keys_extraction, hkeys, moduleNames_eq,
    shapes_importScript isWord_button bindingWord_button hread]
  rfl

/-- A story that is named like an import of its script. -/
def clashSource : List Char :=
  importScript "Primary".toList ++ "\n\n<Meta title='t' />\n\n<Story name='primary' />\n".toList

/-- The story module of that document. -/
def clashProgram : Program :=
  ⟨[⟨.import, importScript "Primary".toList, none⟩,
    defaultExport [keyed "title".toList (Naming.quoted "t".toList)],
    storyExport "Primary".toList ["name: ".toList ++ Naming.quoted "primary".toList]]⟩

/-- The module binds the name twice, and nothing is remarked on. -/
theorem clash_not_remarked : ∃ (m : Migrated) (st : Stages {} clashSource "Foo.mdx".toList),
    run {} clashSource "Foo.mdx".toList = .ok m ∧ m.diagnostics = [] ∧
      (Module.parse? Dialect.tsx.features st.scripts).map moduleNames = some ["Primary"] ∧
      (Module.parse? (Layout.featuresOf m.fileName) st.program.print).map moduleNames =
        some ["Primary", "Primary"] := by
  obtain ⟨about, story, hparse, habout, hattributes, hstory, hnamed⟩ : ∃ about story : Tag,
      parse clashSource = .ok ⟨sheet (importScript "Primary".toList) about story []⟩ ∧
        about.name = metaElement ∧ about.attributes = buttonAttributes.take 1 ∧
        story.name = storyElement ∧ story.attributes = named "primary".toList :=
    ⟨_, _, rfl, rfl, rfl, rfl, rfl⟩
  have hpreamble : Program.parse (importScript "Primary".toList) .tsx "script blocks" =
      .ok ⟨[⟨.import, importScript "Primary".toList, none⟩]⟩ := by decide +kernel
  have hprogram : synthesize .tsx (Program.demote ⟨[⟨.import, importScript "Primary".toList, none⟩]⟩)
      (sheetExtraction "primary".toList about story []) = .ok (clashProgram, []) := by
    rw [sheetExtraction, capitalize_primary, hattributes]
    rfl
  obtain ⟨st, hquiet, hscripts, _, hprogram, _⟩ :=
    exists_stages_sheet hparse rfl hpreamble rfl habout hstory hnamed isBindingName_primary
      isBindingName_namespaceOf_foo hprogram
  have hnames : (Module.parse? (moduleFeatures {} "Foo.mdx".toList) st.program.print).map moduleNames =
      some ["Primary", "Primary"] := by
    rw [hprogram]
    decide +kernel
  refine ⟨st.result, st, st.run_eq, hquiet.diagnostics_of_accepted ?_, ?_, hnames⟩
  · rw [← Option.isSome_map, hnames]
    rfl
  · rw [hscripts]
    decide +kernel

end Migration
end StoryDocs
