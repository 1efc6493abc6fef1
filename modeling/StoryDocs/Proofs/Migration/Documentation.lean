import StoryDocs.Proofs.Markup.Rereading
import StoryDocs.Proofs.Migration.Stages
import StoryDocs.Proofs.Story.ExtractionRemains

/-!
# Reading the documentation back

The documentation of a migration is the text of the document that extraction leaves.  Reading it gives that
document again if the source is steady: what extraction removes and what the import adds then changes the
reading of no other node.  A story that is removed from the middle of a line is the first exception.
-/

namespace StoryDocs

open Text Markup Script

/-! ## Names -/

/-- A name that can be bound holds no mark of embedded code. -/
theorem Naming.all_isPlain_of_isBindingName {name : List Char} (h : Naming.isBindingName name = true) :
    name.all isPlain = true := by
  rw [isBindingName, Bool.and_eq_true] at h
  cases name with
  | nil => rfl
  | cons c s =>
      obtain ⟨hstart, hrest⟩ := Bool.and_eq_true_iff.mp h.1
      have hc : continuesName c = true := by
        rw [startsName, Bool.or_eq_true, Bool.or_eq_true] at hstart
        rw [continuesName, Bool.or_eq_true, Bool.or_eq_true]
        refine hstart.imp_left (Or.imp_left fun halpha => ?_)
        rw [isAlphanumeric, halpha, Bool.or_true, Bool.true_or]
      rw [List.all_cons, Bool.and_eq_true, List.all_eq_true]
      exact ⟨isPlain_of_continuesName hc, fun d hd =>
        isPlain_of_continuesName (List.all_eq_true.mp hrest d hd)⟩

/-! ## Script blocks under extraction -/

namespace Markup.Node

@[simp] theorem script?_text (value : List Char) : script? (.text value) = none := rfl

@[simp] theorem script?_script (value : List Char) : script? (.script value) = some value := rfl

@[simp] theorem script?_expression (value : List Char) (flow : Bool) :
    script? (.expression value flow) = none := rfl

@[simp] theorem script?_element (tag : Tag) (children : List Node) :
    script? (.element tag children) = none := rfl

/-- Nodes of other kinds are no script blocks. -/
theorem script?_eq_none {n : Node} (hn : ∀ v, n ≠ .script v) : n.script? = none := by
  cases n with
  | script v => exact absurd rfl (hn v)
  | text | expression | element => rfl

end Markup.Node

theorem filterMap_script?_trimIndent (done : List Node) :
    (trimIndent done).reverse.filterMap Node.script? = done.reverse.filterMap Node.script? := by
  unfold trimIndent
  split
  · split
    · simp [List.filterMap_cons]
    · simp [List.filterMap_cons]
  · rfl

/-- Extraction keeps the script blocks. -/
theorem filterMap_script?_extractFrom (ns : List Char) (nodes : List Node) (strip : Bool)
    (done : List Node) (c : Collected) :
    (extractFrom ns nodes strip done c).1.filterMap Node.script? =
      done.reverse.filterMap Node.script? ++ nodes.filterMap Node.script? := by
  induction nodes using extraction_induction generalizing strip done c with
  | nil => simp [extractFrom_nil]
  | text value rest ih =>
      have hstripped : ((if strip then stripNode (.text value) else [.text value]) ++ done).reverse.filterMap
          Node.script? = done.reverse.filterMap Node.script? := by
        split
        · rw [stripNode]
          split
          · rfl
          · simp
        · simp
      rw [extractFrom_text, ih, hstripped]
      rfl
  | script value rest ih => simp [extractFrom_script, ih]
  | expression value flow rest ih => simp [extractFrom_expression, ih, List.filterMap_cons]
  | metadata tag children rest hname ih => simp [extractFrom_metadata hname, ih, List.filterMap_cons]
  | named tag children rest name hname hliteral ih =>
      simp [extractFrom_named hname hliteral, ih, List.filterMap_cons]
  | unnamed tag children rest hname hliteral ih =>
      rw [extractFrom_unnamed hname hliteral, ih]
      split
      · rw [filterMap_script?_trimIndent]
        rfl
      · rfl
  | other tag children rest hmeta hstory _ ih =>
      simp [extractFrom_other hmeta hstory, ih, List.filterMap_cons]

/-! ## Script blocks with other texts -/

section Replaced

variable {r q : List Char → List Char → Prop} {ns ms : List Node}

theorem forall₂_scripts (h : List.Forall₂ (Replaces r) ns ms) :
    List.Forall₂ r (ns.filterMap Node.script?) (ms.filterMap Node.script?) := by
  induction h with
  | nil => exact .nil
  | cons hfirst _ ih =>
      cases hfirst with
      | keep hn =>
          rw [List.filterMap_cons_none (Node.script?_eq_none hn),
            List.filterMap_cons_none (Node.script?_eq_none hn)]
          exact ih
      | script h => exact .cons h ih

theorem forall₂_replaces_imp (h : List.Forall₂ (Replaces r) ns ms)
    (himp : ∀ old ∈ ns.filterMap Node.script?, ∀ new, r old new → q old new) :
    List.Forall₂ (Replaces q) ns ms := by
  induction h with
  | nil => exact .nil
  | cons hfirst _ ih =>
      cases hfirst with
      | keep hn =>
          rw [List.filterMap_cons_none (Node.script?_eq_none hn)] at himp
          exact .cons (.keep hn) (ih himp)
      | script h =>
          rw [List.filterMap_cons_some (Node.script?_script _), List.forall_mem_cons] at himp
          exact .cons (.script (himp.1 _ h)) (ih himp.2)

end Replaced

namespace Migration

/-- A script and the script with its imports moved. -/
def Moved (o : Options) (old new : List Char) : Prop :=
  ∃ context, Specifier.move old o.legacyPackage o.blocksPackage o.dialect context = .ok new

theorem moveImports_replaces {o : Options} {number : Nat} {ns ms : List Node}
    (h : moveImports o number ns = .ok ms) : List.Forall₂ (Replaces (Moved o)) ns ms := by
  fun_induction moveImports o number ns generalizing ms with
  | case1 =>
      cases h
      exact .nil
  | case2 number value ns ih =>
      obtain ⟨moved, hmoved, h⟩ := bind_eq_ok_iff.mp h
      obtain ⟨rest, hrest, h⟩ := bind_eq_ok_iff.mp h
      cases h
      exact .cons (.script ⟨_, hmoved⟩) (ih hrest)
  | case3 number n ns hn ih =>
      obtain ⟨rest, hrest, h⟩ := bind_eq_ok_iff.mp h
      cases h
      exact .cons (.keep hn) (ih hrest)

/-- Add a line to the first of some scripts, or a script that holds it. -/
def withLine (line : List Char) : List (List Char) → List (List Char)
  | [] => [line]
  | s :: ss => (s ++ '\n' :: line) :: ss

theorem addToFirst?_cases (line : List Char) (ns : List Node) :
    (addToFirst? line ns = none ∧ ns.filterMap Node.script? = []) ∨
      ∃ ms, addToFirst? line ns = some ms ∧
        ms.filterMap Node.script? = withLine line (ns.filterMap Node.script?) := by
  fun_induction addToFirst? line ns with
  | case1 => exact .inl ⟨rfl, rfl⟩
  | case2 value ns => exact .inr ⟨_, rfl, rfl⟩
  | case3 n ns hn ih =>
      have hkeep : ∀ ms, (n :: ms).filterMap Node.script? = ms.filterMap Node.script? :=
        fun ms => List.filterMap_cons_none (Node.script?_eq_none hn)
      rcases ih with ⟨hnone, hscripts⟩ | ⟨ms, hsome, hscripts⟩
      · exact .inl ⟨by rw [hnone]; rfl, by rw [hkeep, hscripts]⟩
      · exact .inr ⟨n :: ms, by rw [hsome]; rfl, by rw [hkeep, hkeep, hscripts]⟩

theorem scripts_addImport (line : List Char) (ns : List Node) :
    (addImport line ns).filterMap Node.script? = withLine line (ns.filterMap Node.script?) := by
  rw [addImport]
  rcases addToFirst?_cases line ns with ⟨hnone, hscripts⟩ | ⟨ms, hsome, hscripts⟩
  · rw [hnone, hscripts]
    simp [List.filterMap_cons, hscripts, withLine]
  · rw [hsome, Option.getD_some, hscripts]

/-! ## The import of the story module -/

/-- The line that imports the story module. -/
def importLine (fileName : List Char) : List Char :=
  Specifier.namespaceImport (namespaceOf fileName) (Naming.moduleSpecifier (baseOf fileName))

section Import

variable {fileName : List Char}

/-- The specifier of the story module needs no escapes if the namespace can be bound. -/
theorem moduleSpecifier_unescaped (h : (namespaceOf fileName).all isPlain = true) :
    ∀ c ∈ Naming.moduleSpecifier (baseOf fileName), c ≠ '\x27' ∧ c ≠ '\\' ∧ c ≠ '\n' := by
  rw [namespaceOf, Naming.moduleNamespace, List.all_append, Bool.and_eq_true] at h
  intro c hc
  rw [Naming.moduleSpecifier, List.mem_append, List.mem_append] at hc
  rcases hc with (hlead | hbase) | hend
  · exact (by decide : ∀ c ∈ "./".toList, c ≠ '\x27' ∧ c ≠ '\\' ∧ c ≠ '\n') c hlead
  · have hplain : isPlain c = true := List.all_eq_true.mp h.1 c hbase
    exact ⟨isPlain_ne hplain (by decide), isPlain_ne hplain (by decide), isPlain_ne hplain (by decide)⟩
  · exact (by decide : ∀ c ∈ ".stories".toList, c ≠ '\x27' ∧ c ≠ '\\' ∧ c ≠ '\n') c hend

theorem tick_not_mem_importLine (h : (namespaceOf fileName).all isPlain = true) :
    '\x60' ∉ importLine fileName := by
  have hns : '\x60' ∉ namespaceOf fileName :=
    fun hmem => absurd (List.all_eq_true.mp h _ hmem) (by decide)
  have hbase : '\x60' ∉ baseOf fileName := by
    rw [namespaceOf, Naming.moduleNamespace, List.mem_append, not_or] at hns
    exact hns.1
  unfold importLine Specifier.namespaceImport Naming.moduleSpecifier
  simp only [List.mem_append, not_or]
  refine ⟨⟨⟨⟨?_, hns⟩, ?_⟩, ⟨?_, hbase⟩, ?_⟩, ?_⟩
  all_goals decide

/-- A script that can stand for another one still can with the import as its last line. -/
theorem supplants_importLine (h : (namespaceOf fileName).all isPlain = true) {old new : List Char}
    (htext : ScriptText new) (hruns : RunsKept old new) :
    Supplants old (new ++ '\n' :: importLine fileName) where
  block := (htext.append_namespaceImport h (moduleSpecifier_unescaped h)).block
  runs := by
    have hline : RunsKept [] ('\n' :: importLine fileName ++ []) := by
      refine (RunsKept.refl []).put ?_
      rw [List.mem_cons, not_or]
      exact ⟨by decide, tick_not_mem_importLine h⟩
    rw [List.append_nil] at hline
    have hjoined := hruns.join_lines (.inl rfl) (.inr rfl) hline
    rwa [List.append_nil] at hjoined

end Import

/-- A script that is still readable once its imports are moved: what it has become starts a script block, has
no bracket open at its end, and has no new matches for runs of backticks. -/
def SteadyScript (o : Options) (value : List Char) : Prop :=
  ∀ moved, Moved o value moved → ScriptText moved ∧ RunsKept value moved

/-- The import goes to the end of the first script block. -/
theorem addToFirst?_replaces {fileName : List Char} (h : (namespaceOf fileName).all isPlain = true)
    {nodes ns ms : List Node}
    (hreplaces : List.Forall₂ (Replaces fun old new => ScriptText new ∧ RunsKept old new) nodes ns)
    (hadded : addToFirst? (importLine fileName) ns = some ms) :
    List.Forall₂ (Replaces Supplants) nodes ms := by
  generalize hline : importLine fileName = line at hadded
  fun_induction addToFirst? line ns generalizing nodes ms with
  | case1 => cases hadded
  | case2 value ns =>
      cases hadded
      cases hreplaces with
      | cons hfirst hrest =>
          refine .cons ?_ (forall₂_replaces_imp hrest fun _ _ _ hnew => ⟨hnew.1.block, hnew.2⟩)
          cases hfirst with
          | keep hn => exact absurd rfl (hn value)
          | script hnew =>
              rw [← hline]
              exact .script (supplants_importLine h hnew.1 hnew.2)
  | case3 n ns hn ih =>
      obtain ⟨rest, hrest, rfl⟩ := Option.map_eq_some_iff.mp hadded
      cases hreplaces with
      | cons hfirst htail =>
          refine .cons ?_ (ih htail hrest)
          cases hfirst with
          | keep hkeep => exact .keep hkeep
          | script => exact absurd rfl (hn _)

/-- Nodes that start a line are read behind a script block and an empty line. -/
theorem reads_behind_script {value : List Char} {ns : List Node} (hblock : Block value)
    (h : Reads true true ns []) : Reads true true (.script value :: .text ['\n', '\n'] :: ns) [] := by
  obtain ⟨hstart, hlength⟩ := hblock (Node.printAll (.text ['\n', '\n'] :: ns) ++ [])
    (.inr ⟨'\n' :: (Node.printAll ns ++ []), by simp [Node.print], rfl⟩)
  refine .script hstart (by rw [hlength, List.take_left]) ?_
  have hfeeds : Prose true (lineAfter true value) ['\n', '\n'] (Node.printAll ns ++ []) := by
    refine .cons (u := ['\n']) (by simp) (Piece.ofText_feed _) ?_ rfl
    exact .cons (u := ['\n']) (by simp) (Piece.ofText_feed _) (.nil _ _) rfl
  exact .text (by simp) hfeeds h

namespace Stages

variable {o : Options} {source fileName : List Char}

/-- What no remark about a name says. -/
theorem names_of_diagnostics (st : Stages o source fileName)
    (h : ∀ d ∈ st.result.diagnostics, d.code ≠ .invalidIdentifier) :
    (namespaceOf fileName).all isPlain = true ∧
      ∀ s ∈ st.document.segments, ∀ key, s.key? = some key → key.all isPlain = true := by
  obtain ⟨hns, hkeys⟩ := st.isBindingName_of_diagnostics h
  refine ⟨Naming.all_isPlain_of_isBindingName hns, ?_⟩
  intro s hs key hkey
  -- Names come from stories, and moving imports keeps the stories.
  have hmem : key ∈ st.imported.segments.filterMap Segment.key? := by
    rw [← Segment.filterMap_key?_filter_isStory, st.imported_stories,
      Segment.filterMap_key?_filter_isStory]
    exact List.mem_filterMap.mpr ⟨s, hs, hkey⟩
  obtain ⟨t, ht, htkey⟩ := List.mem_filterMap.mp hmem
  exact Naming.all_isPlain_of_isBindingName (hkeys t ht key htkey)

/-- What extraction leaves is in its place. -/
theorem remaining_reads (st : Stages o source fileName)
    (hns : (namespaceOf fileName).all isPlain = true)
    (hkeys : ∀ s ∈ st.document.segments, ∀ key, s.key? = some key → key.all isPlain = true)
    (hsteady : Steady true true st.document.children)
    (hscripts : ∀ value ∈ st.document.scripts, SteadyScript o value) :
    Reads true true (extract (namespaceOf fileName) st.imported).1.children [] := by
  have hmoved : List.Forall₂ (Replaces fun old new => ScriptText new ∧ RunsKept old new)
      st.document.children st.moved :=
    forall₂_replaces_imp (moveImports_replaces st.moved_eq) fun old hold new h => hscripts old hold new h
  have hleaves : ∀ imported, List.Forall₂ (Replaces Supplants) st.document.children imported →
      ∃ ms, Reads true true ms [] ∧ ∀ done c, Settled done →
        (extractFrom (namespaceOf fileName) imported false done c).1 = done.reverse ++ ms := by
    intro imported hreplaces
    obtain ⟨ms, hremains, hextract⟩ : Leaves (namespaceOf fileName) true .fresh st.document.children imported :=
      hsteady.leaves rfl (parse_indented st.document_eq) hreplaces hkeys (fun hne => absurd rfl hne)
        (fun heq => by cases heq)
    refine ⟨ms, ?_, fun done c hsettled => hextract done c fun _ => hsettled⟩
    exact (hremains.reread hns (parse_reads st.document_eq) ⟨fun _ => rfl, Bool.noConfusion⟩ (.refl [])
      (fun _ => rfl) (fun _ => rfl)).reads
  rcases addToFirst?_cases (importLine fileName) st.moved with ⟨hnone, _⟩ | ⟨ks, hsome, _⟩
  · -- The import is a block of its own before what is left of the source.
    obtain ⟨ms, hms, hextract⟩ := hleaves st.moved
      (forall₂_replaces_imp hmoved fun _ _ _ hnew => ⟨hnew.1.block, hnew.2⟩)
    have himported : st.imported.children =
        .script (importLine fileName) :: .text ['\n', '\n'] :: st.moved :=
      congrArg (Option.getD · _) hnone
    have hleft : (extract (namespaceOf fileName) st.imported).1.children =
        .script (importLine fileName) :: .text ['\n', '\n'] :: ms := by
      show (extractFrom (namespaceOf fileName) st.imported.children false [] {}).1 = _
      rw [himported, extractFrom_script, extractFrom_text]
      exact hextract _ _ (.of_getLast? rfl)
    rw [hleft]
    exact reads_behind_script (scriptText_namespaceImport hns (moduleSpecifier_unescaped hns)).block hms
  · -- The import is the last line of the first block.
    obtain ⟨ms, hms, hextract⟩ := hleaves ks (addToFirst?_replaces hns hmoved hsome)
    have himported : st.imported.children = ks := congrArg (Option.getD · _) hsome
    have hleft : (extract (namespaceOf fileName) st.imported).1.children = ms := by
      show (extractFrom (namespaceOf fileName) st.imported.children false [] {}).1 = _
      rw [himported]
      exact hextract [] {} rfl
    rw [hleft]
    exact hms

end Stages

/-- The documentation of a steady source is read back: reading it gives the rewritten document, up to what
its text does not tell.  Its script blocks are those of the source with their imports moved, and the import of
the story module is the last line of the first one, or a first block of its own. -/
theorem documentation_read_back {o : Options} {source fileName : List Char} {m : Migrated}
    (hrun : run o source fileName = .ok m) (hnames : ∀ d ∈ m.diagnostics, d.code ≠ .invalidIdentifier)
    {document : Document} (hparse : parse source = .ok document)
    (hsteady : Steady true true document.children)
    (hscripts : ∀ value ∈ document.scripts, SteadyScript o value) :
    ∃ (moved : List Node) (d : Document), moveImports o 1 document.children = .ok moved ∧
      parse m.documentation = .ok d ∧
      d.plain = (extract (namespaceOf fileName) (importedOf fileName moved)).1.plain ∧
      List.Forall₂ (Moved o) document.scripts (Document.scripts ⟨moved⟩) ∧
      d.scripts = withLine (importLine fileName) (Document.scripts ⟨moved⟩) := by
  obtain ⟨st, rfl⟩ := run_eq_ok_iff.mp hrun
  obtain rfl : document = st.document := Except.ok.inj (hparse.symm.trans st.document_eq)
  obtain ⟨hns, hkeys⟩ := st.names_of_diagnostics hnames
  obtain ⟨d, hread, hplain⟩ := (st.remaining_reads hns hkeys hsteady hscripts).parse
  refine ⟨st.moved, d, st.moved_eq, hread, hplain, forall₂_scripts (moveImports_replaces st.moved_eq), ?_⟩
  rw [Document.scripts_eq_of_plain hplain]
  show (extractFrom (namespaceOf fileName) st.imported.children false [] {}).1.filterMap Node.script? = _
  rw [filterMap_script?_extractFrom]
  exact scripts_addImport (importLine fileName) st.moved

/-! ## Two documents -/

/-- The migration of a document from which nothing is taken and in which no name is remarked on. -/
theorem exists_run_of_untaken {source : List Char} (fileName : List Char) {nodes : List Node}
    {preamble : Program} (hparse : parse source = .ok ⟨nodes⟩)
    (hmoved : moveImports {} 1 nodes = .ok nodes)
    (hpreamble :
      Program.parse (joinScripts (Document.scripts ⟨nodes⟩)) .tsx "script blocks" = .ok preamble)
    (hname : Naming.isBindingName (namespaceOf fileName) = true)
    (huntaken : (extract (namespaceOf fileName) (importedOf fileName nodes)).2.extraction = {})
    (hremarks : ∀ d ∈ (extract (namespaceOf fileName) (importedOf fileName nodes)).2.remarks,
      d.code ≠ .invalidIdentifier) :
    ∃ m, run {} source fileName = .ok m ∧ (∀ d ∈ m.diagnostics, d.code ≠ .invalidIdentifier) ∧
      m.documentation = (extract (namespaceOf fileName) (importedOf fileName nodes)).1.print := by
  let st : Stages {} source fileName :=
    ⟨⟨nodes⟩, nodes, preamble, _, _, hparse, hmoved, hpreamble, by rw [huntaken]; rfl⟩
  refine ⟨st.result, run_eq_ok_iff.mpr ⟨st, rfl⟩, ?_, rfl⟩
  have hnamespace : namespaceRemarks (leafOf fileName) (namespaceOf fileName) = [] := by
    rw [namespaceRemarks, if_pos hname]
  have hlayout : ∀ printed moduleName, ∀ d ∈ (layOut {} printed moduleName).2,
      d.code ≠ .invalidIdentifier := by
    intro printed moduleName d hd
    unfold layOut at hd
    split at hd
    · cases hd
    · rw [List.mem_singleton.mp hd]
      exact Diagnostic.Code.noConfusion
  intro d hd
  obtain ⟨e, he, rfl⟩ := List.mem_map.mp hd
  rw [hnamespace, List.nil_append, List.mem_append, List.mem_append, List.mem_append] at he
  show e.code ≠ .invalidIdentifier
  -- Only names are remarked on with that code, and here no name is taken.
  rcases he with ((he | he) | he) | he
  · exact hremarks e he
  · obtain ⟨s, _, rfl⟩ := List.mem_map.mp he
    exact Diagnostic.Code.noConfusion
  · rw [List.mem_singleton.mp he]
    exact Diagnostic.Code.noConfusion
  · exact hlayout _ _ e he

/-- A story without a name on a line of its own, behind a script block and before an expression. -/
def removedLine : List Char :=
  "import * as b from 'b';\n\n<Story />\n\n\x7bb\x7d\n".toList

theorem documentation_read_back_removed_line :
    ∃ (m : Migrated) (document : Document) (moved : List Node) (d : Document),
      run {} removedLine "Foo.mdx".toList = .ok m ∧ parse removedLine = .ok document ∧
        moveImports {} 1 document.children = .ok moved ∧ parse m.documentation = .ok d ∧
        d.plain = (extract (namespaceOf "Foo.mdx".toList) (importedOf "Foo.mdx".toList moved)).1.plain ∧
        List.Forall₂ (Moved {}) document.scripts (Document.scripts ⟨moved⟩) ∧
        d.scripts = withLine (importLine "Foo.mdx".toList) (Document.scripts ⟨moved⟩) := by
  obtain ⟨tag, nodes, hnodes, hparse, hname, hattributes, hflow⟩ : ∃ (tag : Tag) (nodes : List Node),
      nodes = [.script "import * as b from 'b';".toList, .text ['\n', '\n'], .element tag [],
        .text ['\n', '\n'], .expression ['b'] true, .text ['\n']] ∧
        parse removedLine = .ok ⟨nodes⟩ ∧ tag.name = storyElement ∧ tag.attributes = [] ∧
          tag.flow = true := ⟨_, _, rfl, rfl, rfl, rfl, rfl⟩
  have hliteral : Story.literalName? tag = none := by
    simp [Story.literalName?, Tag.attribute?, hattributes]
  have hcollected : (extract (namespaceOf "Foo.mdx".toList) (importedOf "Foo.mdx".toList nodes)).2 =
      Collected.dropStory {} tag := by
    rw [extract_collected, hnodes]
    simp [importedOf, addImport, addToFirst?, Document.segments, Segment.segments_story hname,
      Collected.addSegment, hliteral]
  have hremarks : ∀ d ∈ (Collected.dropStory {} tag).remarks, d.code ≠ .invalidIdentifier := by
    simp [Collected.dropStory, Collected.remark, Diagnostic.atPosition]
  have hmoved : moveImports {} 1 nodes = .ok nodes := by
    rw [hnodes]
    rfl
  have hscripts : Document.scripts ⟨nodes⟩ = ["import * as b from 'b';".toList] := by
    rw [hnodes]
    rfl
  obtain ⟨preamble, hpreamble⟩ : ∃ preamble,
      Program.parse (joinScripts (Document.scripts ⟨nodes⟩)) .tsx "script blocks" = .ok preamble := by
    have haccepted : (Module.parse? Dialect.tsx.features "import * as b from 'b';".toList).isSome =
        true := by decide +kernel
    obtain ⟨items, hitems⟩ := Option.isSome_iff_exists.mp haccepted
    exact ⟨_, by rw [hscripts, joinScripts, Program.parse, hitems]⟩
  obtain ⟨m, hrun, hnames, _⟩ := exists_run_of_untaken "Foo.mdx".toList hparse hmoved hpreamble
    (by decide +kernel) (by rw [hcollected]; rfl) (by rw [hcollected]; exact hremarks)
  have hsteady : Steady true true nodes := by
    rw [hnodes]
    refine .script (.text (fun _ => rfl) (.removed hname hliteral hflow ?_ ?_))
    · rintro value ⟨⟩
      rfl
    · exact .text (fun _ => rfl) (.expression (groupLength?_plain rfl) (.text (fun _ => rfl) (.nil _ _)))
  have hblocks : ∀ value ∈ Document.scripts ⟨nodes⟩, SteadyScript {} value := by
    rw [hscripts, List.forall_mem_singleton]
    rintro moved ⟨context, hmove⟩
    cases hmove
    have htext : ScriptText (Specifier.namespaceImport ['b'] ['b']) :=
      scriptText_namespaceImport rfl (by decide)
    exact ⟨htext, .refl _⟩
  obtain ⟨moved, d, hread⟩ := documentation_read_back hrun hnames hparse hsteady hblocks
  exact ⟨m, ⟨nodes⟩, moved, d, hrun, hparse, hread⟩

/-- A story without a name in the middle of a word. -/
def removedInWord : List Char :=
  "im<Story />port a from 'b'\n".toList

/-- Without the story, the word starts a script block: the documentation is read as another document than
the one it was printed from. -/
theorem documentation_reread_as_script :
    ∃ (m : Migrated) (document : Document) (moved : List Node) (d : Document),
      run {} removedInWord "Foobar.stories.mdx".toList = .ok m ∧
        (∀ e ∈ m.diagnostics, e.code ≠ .invalidIdentifier) ∧ parse removedInWord = .ok document ∧
        moveImports {} 1 document.children = .ok moved ∧ parse m.documentation = .ok d ∧
        d.plain ≠ (extract (namespaceOf "Foobar.stories.mdx".toList)
          (importedOf "Foobar.stories.mdx".toList moved)).1.plain := by
  obtain ⟨tag, nodes, hnodes, hparse, hname, hattributes, hflow⟩ : ∃ (tag : Tag) (nodes : List Node),
      nodes = [.text "im".toList, .element tag [], .text "port a from 'b'\n".toList] ∧
        parse removedInWord = .ok ⟨nodes⟩ ∧ tag.name = storyElement ∧ tag.attributes = [] ∧
          tag.flow = false := ⟨_, _, rfl, rfl, rfl, rfl, rfl⟩
  have hliteral : Story.literalName? tag = none := by
    simp [Story.literalName?, Tag.attribute?, hattributes]
  have hextract : extract (namespaceOf "Foobar.stories.mdx".toList)
      (importedOf "Foobar.stories.mdx".toList nodes) =
        (⟨[.script (importLine "Foobar.stories.mdx".toList), .text ['\n', '\n'], .text "im".toList,
          .text "port a from 'b'\n".toList]⟩, Collected.dropStory {} tag) := by
    have himported : importedOf "Foobar.stories.mdx".toList nodes =
        ⟨.script (importLine "Foobar.stories.mdx".toList) :: .text ['\n', '\n'] :: nodes⟩ := by
      rw [hnodes]
      rfl
    rw [himported, extract, hnodes, extractFrom_script, extractFrom_text, extractFrom_text,
      extractFrom_unnamed hname hliteral, hflow, extractFrom_text, extractFrom_nil]
    rfl
  have hremarks : ∀ d ∈ (Collected.dropStory {} tag).remarks, d.code ≠ .invalidIdentifier := by
    simp [Collected.dropStory, Collected.remark, Diagnostic.atPosition]
  have hmoved : moveImports {} 1 nodes = .ok nodes := by
    rw [hnodes]
    rfl
  have hscripts : Document.scripts ⟨nodes⟩ = [] := by
    rw [hnodes]
    rfl
  have hpreamble : Program.parse (joinScripts (Document.scripts ⟨nodes⟩)) .tsx "script blocks" =
      .ok ⟨[]⟩ := by
    rw [hscripts]
    rfl
  obtain ⟨m, hrun, hnames, hdocumentation⟩ :=
    exists_run_of_untaken "Foobar.stories.mdx".toList hparse hmoved hpreamble (by decide)
      (by rw [hextract]; rfl) (by rw [hextract]; exact hremarks)
  rw [hextract] at hdocumentation
  obtain ⟨d, hread, hblocks⟩ : ∃ d, parse m.documentation = .ok d ∧ d.scripts.length = 2 := by
    rw [hdocumentation]
    exact ⟨_, rfl, rfl⟩
  refine ⟨m, ⟨nodes⟩, nodes, d, hrun, hnames, hparse, hmoved, hread, ?_⟩
  intro hplain
  rw [Document.scripts_eq_of_plain hplain, hextract] at hblocks
  have hone : [importLine "Foobar.stories.mdx".toList].length = 2 := hblocks
  exact absurd hone (by simp)

end Migration
end StoryDocs
