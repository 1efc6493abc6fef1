import StoryDocs.Migration
import StoryDocs.Proofs.Markup.Alignment
import StoryDocs.Proofs.Markup.Lossless
import StoryDocs.Proofs.Story.Synthesis

/-!
# The stages of a migration

A migration succeeds when each of its stages does: the documentation is read, the imports of its scripts
are moved, the scripts are read as a program, and the exports of what was extracted are added to it.  The
stages before extraction change script blocks alone.
-/

namespace StoryDocs
namespace Migration

open Text Markup Script

/-! ## Names of a migration -/

/-- The name of a file without the ending of documentation. -/
def baseOf (fileName : List Char) : List Char :=
  Naming.baseName (leafOf fileName)

/-- The namespace that the documentation imports its stories under. -/
def namespaceOf (fileName : List Char) : List Char :=
  Naming.moduleNamespace (baseOf fileName)

/-- The documentation with its imports moved and the story module imported. -/
def importedOf (fileName : List Char) (moved : List Node) : Document :=
  ⟨addImport (Specifier.namespaceImport (namespaceOf fileName)
    (Naming.moduleSpecifier (baseOf fileName))) moved⟩

/-! ## Stages -/

/-- What a migration that succeeds goes through. -/
structure Stages (o : Options) (source fileName : List Char) where
  /-- The documentation as read. -/
  document : Document
  /-- Its nodes with the imports moved. -/
  moved : List Node
  /-- The program of its scripts. -/
  preamble : Program
  /-- The story module. -/
  program : Program
  remarks : List Diagnostic
  document_eq : parse source = .ok document
  moved_eq : moveImports o 1 document.children = .ok moved
  preamble_eq :
    Program.parse (joinScripts (Document.scripts ⟨moved⟩)) o.dialect "script blocks" = .ok preamble
  program_eq :
    synthesize o.dialect preamble.demote
      (extract (namespaceOf fileName) (importedOf fileName moved)).2.extraction =
        .ok (program, remarks)

namespace Stages

variable {o : Options} {source fileName : List Char}

/-- The document that extraction starts from. -/
def imported (st : Stages o source fileName) : Document :=
  importedOf fileName st.moved

/-- The files that the stages give. -/
def result (st : Stages o source fileName) : Migrated :=
  let moduleName := Naming.moduleFileName (baseOf fileName) o.dialect.extension.toList
  let (remaining, collected) := extract (namespaceOf fileName) st.imported
  let (module, unformatted) := layOut o st.program.print moduleName
  let diagnostics := namespaceRemarks (leafOf fileName) (namespaceOf fileName) ++
    collected.remarks ++ st.preamble.dropped.map droppedRemark ++ st.remarks ++ unformatted
  { documentation := remaining.print
    module := module
    fileName := moduleName
    diagnostics := diagnostics.map (Diagnostic.stamp (some (String.ofList fileName))) }

end Stages

/-- A migration succeeds exactly if it goes through its stages. -/
theorem run_eq_ok_iff {o : Options} {source fileName : List Char} {m : Migrated} :
    run o source fileName = .ok m ↔ ∃ st : Stages o source fileName, st.result = m := by
  constructor
  · intro h
    obtain ⟨document, hdocument, h⟩ := bind_eq_ok_iff.mp h
    obtain ⟨moved, hmoved, h⟩ := bind_eq_ok_iff.mp h
    obtain ⟨preamble, hpreamble, h⟩ := bind_eq_ok_iff.mp h
    obtain ⟨⟨program, remarks⟩, hprogram, h⟩ := bind_eq_ok_iff.mp h
    exact ⟨⟨document, moved, preamble, program, remarks, mapError_eq_ok_iff.mp hdocument,
      mapError_eq_ok_iff.mp hmoved, mapError_eq_ok_iff.mp hpreamble,
      mapError_eq_ok_iff.mp hprogram⟩, Except.ok.inj h⟩
  · rintro ⟨st, rfl⟩
    refine bind_eq_ok_iff.mpr ⟨st.document, mapError_eq_ok_iff.mpr st.document_eq, ?_⟩
    refine bind_eq_ok_iff.mpr ⟨st.moved, mapError_eq_ok_iff.mpr st.moved_eq, ?_⟩
    refine bind_eq_ok_iff.mpr ⟨st.preamble, mapError_eq_ok_iff.mpr st.preamble_eq, ?_⟩
    exact bind_eq_ok_iff.mpr ⟨_, mapError_eq_ok_iff.mpr st.program_eq, rfl⟩

/-! ## Edits of script blocks -/

/-- The second list is the first one with other texts in its script blocks. -/
inductive ScriptsEdited : List Node → List Node → Prop
  | nil : ScriptsEdited [] []
  | keep (n : Node) {ns ms : List Node} (hrest : ScriptsEdited ns ms) :
      ScriptsEdited (n :: ns) (n :: ms)
  | script (old new : List Char) {ns ms : List Node} (hrest : ScriptsEdited ns ms) :
      ScriptsEdited (.script old :: ns) (.script new :: ms)

namespace ScriptsEdited

theorem refl (ns : List Node) : ScriptsEdited ns ns := by
  induction ns with
  | nil => exact .nil
  | cons n ns ih => exact .keep n ih

theorem pristine {ns ms : List Node} (h : ScriptsEdited ns ms) (hns : ∀ n ∈ ns, n.Pristine) :
    ∀ n ∈ ms, n.Pristine := by
  induction h with
  | nil => exact hns
  | keep n _ ih =>
      rw [List.forall_mem_cons] at hns ⊢
      exact ⟨hns.1, ih hns.2⟩
  | script old new _ ih =>
      rw [List.forall_mem_cons] at hns ⊢
      exact ⟨.script new, ih hns.2⟩

theorem aligned {ns ms : List Node} (h : ScriptsEdited ns ms) {m : Margin} (hns : Aligned m ns) :
    Aligned m ms := by
  induction h generalizing m with
  | nil => exact hns
  | keep n _ ih =>
      cases hns with
      | leaf hleaf hrest => exact .leaf hleaf (ih hrest)
      | element hflow hchildren hrest => exact .element hflow hchildren (ih hrest)
  | script old new _ ih => exact .leaf (fun _ _ => Node.noConfusion) (ih hns.tail)

/-- Segments that are neither prose nor fixed stay, and with them the elements they stand in. -/
theorem filter_segments {p : Segment → Bool} (hfixed : ∀ value, p (.fixed value) = false)
    {ns ms : List Node} (h : ScriptsEdited ns ms) :
    (Node.segmentsAll ms).filter p = (Node.segmentsAll ns).filter p := by
  induction h with
  | nil => rfl
  | keep n _ ih => simp [ih]
  | script old new _ ih => simp [ih, hfixed]

end ScriptsEdited

theorem moveImports_edited {o : Options} {number : Nat} {ns ms : List Node}
    (h : moveImports o number ns = .ok ms) : ScriptsEdited ns ms := by
  fun_induction moveImports o number ns generalizing ms with
  | case1 =>
      cases h
      exact .nil
  | case2 number value ns ih =>
      obtain ⟨moved, _, h⟩ := bind_eq_ok_iff.mp h
      obtain ⟨rest, hrest, h⟩ := bind_eq_ok_iff.mp h
      cases h
      exact .script value moved (ih hrest)
  | case3 number n ns _ ih =>
      obtain ⟨rest, hrest, h⟩ := bind_eq_ok_iff.mp h
      cases h
      exact .keep n (ih hrest)

theorem addToFirst?_edited {line : List Char} {ns ms : List Node}
    (h : addToFirst? line ns = some ms) : ScriptsEdited ns ms := by
  fun_induction addToFirst? line ns generalizing ms with
  | case1 => cases h
  | case2 value ns =>
      cases h
      exact .script value _ (.refl ns)
  | case3 n ns _ ih =>
      obtain ⟨rest, hrest, rfl⟩ := Option.map_eq_some_iff.mp h
      exact .keep n (ih hrest)

/-- The import is added to a script block, or in a new block before all else. -/
theorem addImport_cases (line : List Char) (ns : List Node) :
    ScriptsEdited ns (addImport line ns) ∨
      addImport line ns = .script line :: .text ['\n', '\n'] :: ns := by
  unfold addImport
  cases h : addToFirst? line ns with
  | none => exact .inr rfl
  | some ms => exact .inl (addToFirst?_edited h)

namespace Stages

variable {o : Options} {source fileName : List Char}

/-- What holds of the documentation as read holds of the document that extraction starts from, if edits of
script blocks keep it and a first script block does. -/
theorem imported_induction (st : Stages o source fileName) {motive : List Node → Prop}
    (read : motive st.document.children)
    (edited : ∀ ns ms, ScriptsEdited ns ms → motive ns → motive ms)
    (added : ∀ line ns, motive ns → motive (.script line :: .text ['\n', '\n'] :: ns)) :
    motive st.imported.children := by
  have hmoved : motive st.moved := edited _ _ (moveImports_edited st.moved_eq) read
  rcases addImport_cases _ st.moved with hedited | hadded
  · exact edited _ _ hedited hmoved
  · rw [imported, importedOf, hadded]
    exact added _ _ hmoved

theorem imported_pristine (st : Stages o source fileName) :
    ∀ n ∈ st.imported.children, n.Pristine := by
  refine st.imported_induction (motive := fun ns => ∀ n ∈ ns, n.Pristine)
    (parse_pristine st.document_eq) ?_ ?_
  · exact fun ns ms hedited hns => hedited.pristine hns
  · intro line ns hns
    rw [List.forall_mem_cons, List.forall_mem_cons]
    exact ⟨.script line, .text _, hns⟩

theorem imported_aligned (st : Stages o source fileName) : Aligned .start st.imported.children := by
  refine st.imported_induction (parse_aligned st.document_eq) ?_ ?_
  · exact fun ns ms hedited hns => hedited.aligned hns
  · intro line ns hns
    -- Two line feeds give the first node the margin of a start of the document.
    exact .leaf (fun _ _ => Node.noConfusion) (.text hns)

theorem imported_filter (st : Stages o source fileName) {p : Segment → Bool}
    (hprose : ∀ value, p (.prose value) = false) (hfixed : ∀ value, p (.fixed value) = false) :
    st.imported.segments.filter p = st.document.segments.filter p := by
  refine st.imported_induction
    (motive := fun ns => (Node.segmentsAll ns).filter p = _) rfl ?_ ?_
  · exact fun ns ms hedited hns => (hedited.filter_segments hfixed).trans hns
  · intro line ns hns
    simpa [hprose, hfixed] using hns

theorem imported_stories (st : Stages o source fileName) :
    st.imported.segments.filter Segment.isStory = st.document.segments.filter Segment.isStory :=
  st.imported_filter (fun _ => rfl) fun _ => rfl

/-- If no name is remarked on, all names can be bound. -/
theorem isBindingName_of_diagnostics (st : Stages o source fileName)
    (h : ∀ d ∈ st.result.diagnostics, d.code ≠ .invalidIdentifier) :
    Naming.isBindingName (namespaceOf fileName) = true ∧
      ∀ s ∈ st.imported.segments, ∀ key, s.key? = some key → Naming.isBindingName key = true := by
  have hremarks : ∀ d ∈ namespaceRemarks (leafOf fileName) (namespaceOf fileName) ++
      (extract (namespaceOf fileName) st.imported).2.remarks, d.code ≠ .invalidIdentifier := by
    intro d hd
    refine h (d.stamp (some (String.ofList fileName))) (List.mem_map_of_mem ?_)
    exact List.mem_append_left _ (List.mem_append_left _ (List.mem_append_left _ hd))
  rw [List.forall_mem_append] at hremarks
  constructor
  · by_contra hname
    rw [namespaceRemarks, if_neg hname] at hremarks
    exact hremarks.1 _ List.mem_cons_self rfl
  · have hcollected := hremarks.2
    rw [extract_collected] at hcollected
    exact Collected.isBindingName_of_remarks hcollected

end Stages

end Migration
end StoryDocs
