import StoryDocs.Command.Run
import StoryDocs.Proofs.Files.Path
import StoryDocs.Proofs.Migration.Stages
import StoryDocs.Proofs.Text.Slice

/-!
# What migrating files writes

A migration of a file reads it, writes the documentation over it and then writes the module next to it.
`FileMove` lists how this can end.  A failure before the first write leaves all files as they were, and one
between the two writes does not.  In a run the files that no other path is migrated to keep what was written.
-/

namespace StoryDocs
namespace Command

open Files

variable {o : Options} {directory place : Place} {path text : List Char} {s t : Store}

/-! ## Paths of texts -/

theorem readPath_eq_ok_iff :
    readPath s directory path = .ok text ↔
      ∃ place, s.locate directory path = .ok place ∧ s.get? place = some (.file (.text text)) := by
  rw [readPath, bind_eq_ok_iff]
  simp only [Store.read_eq_ok_iff]

theorem writePath_written (h : writePath s directory path text = .ok t) :
    ∃ place, s.locate directory path = .ok place ∧ Store.Written place text s t := by
  obtain ⟨place, hlocate, hwrite⟩ := bind_eq_ok_iff.mp h
  exact ⟨place, hlocate, Store.write_written hwrite⟩

/-! ## Documents without elements -/

/-- Extraction takes nothing out of a document without elements. -/
theorem extract_of_leaves (ns : List Char) {nodes : List Markup.Node}
    (hleaves : ∀ n ∈ nodes, ∀ tag children, n ≠ .element tag children) :
    extract ns ⟨nodes⟩ = (⟨nodes⟩, {}) := by
  have hfrom : ∀ done c, extractFrom ns nodes false done c = (done.reverse ++ nodes, c) := by
    induction nodes with
    | nil => simp [extractFrom_nil]
    | cons n rest ih =>
        intro done c
        have hrest := ih fun m hm => hleaves m (by simp [hm])
        cases n with
        | text value => simp [extractFrom_text, hrest]
        | script value => simp [extractFrom_script, hrest]
        | expression value flow => simp [extractFrom_expression, hrest]
        | element tag children => exact absurd rfl (hleaves _ (by simp) tag children)
  rw [extract, hfrom]
  rfl

/-- The migration of a document without elements whose imports need no move. -/
theorem exists_run_of_leaves (source fileName : List Char) (nodes : List Markup.Node)
    (preamble program : Script.Program) {remarks : List Diagnostic}
    (hparse : Markup.parse source = .ok ⟨nodes⟩)
    (hleaves : ∀ n ∈ Migration.addImport (Script.Specifier.namespaceImport
      (Migration.namespaceOf fileName) (Naming.moduleSpecifier (Migration.baseOf fileName))) nodes,
      ∀ tag children, n ≠ .element tag children)
    (hmoved : Migration.moveImports {} 1 nodes = .ok nodes)
    (hpreamble : Script.Program.parse (Migration.joinScripts (Markup.Document.scripts ⟨nodes⟩)) .tsx
      "script blocks" = .ok preamble)
    (hprogram : synthesize .tsx preamble.demote {} = .ok (program, remarks)) :
    ∃ m, Migration.run {} source fileName = .ok m ∧
      m.documentation = (Migration.importedOf fileName nodes).print ∧
      m.fileName = Naming.moduleFileName (Migration.baseOf fileName) "tsx".toList ∧
      m.module = (Migration.layOut {} program.print m.fileName).1 := by
  have hextract : extract (Migration.namespaceOf fileName) (Migration.importedOf fileName nodes) =
      (Migration.importedOf fileName nodes, {}) := extract_of_leaves _ hleaves
  let st : Migration.Stages {} source fileName :=
    ⟨⟨nodes⟩, nodes, preamble, program, remarks, hparse, hmoved, hpreamble,
      by rw [hextract]; exact hprogram⟩
  refine ⟨st.result, Migration.run_eq_ok_iff.mpr ⟨st, rfl⟩, ?_, rfl, rfl⟩
  show (extract _ (Migration.importedOf fileName nodes)).1.print = _
  rw [hextract]

/-! ## One file -/

/-- How the migration of a file can end, and the store that it leaves. -/
inductive FileMove (o : Options) (directory : Place) (path : List Char) (s : Store) :
    Except FileError Migrated → Store → Prop
  /-- Nothing was written. -/
  | untouched {e : FileError} : FileMove o directory path s (.error e) s
  /-- The documentation was written, and the module could not be. -/
  | halfway {source : List Char} {m : Migrated} {t : Store} {fault : Fault}
      (hread : readPath s directory path = .ok source) (hrun : Migration.run o source path = .ok m)
      (hdocument : writePath s directory path m.documentation = .ok t)
      (hmodule : writePath t directory (sibling path m.fileName) m.module = .error fault) :
      FileMove o directory path s (.error (.unwritable (sibling path m.fileName) fault)) t
  /-- Both files were written. -/
  | migrated {source : List Char} {m : Migrated} {t u : Store}
      (hread : readPath s directory path = .ok source) (hrun : Migration.run o source path = .ok m)
      (hdocument : writePath s directory path m.documentation = .ok t)
      (hmodule : writePath t directory (sibling path m.fileName) m.module = .ok u) :
      FileMove o directory path s (.ok m) u

theorem migrateFile_move (o : Options) (directory : Place) (path : List Char) (s : Store) :
    FileMove o directory path s (migrateFile o false directory path s).1
      (migrateFile o false directory path s).2 := by
  unfold migrateFile
  cases hread : readPath s directory path with
  | error fault => exact .untouched
  | ok source =>
      dsimp only
      cases hrun : Migration.run o source path with
      | error e => exact .untouched
      | ok m =>
          simp only [Bool.false_eq_true, if_false, writeResults]
          cases hdocument : writePath s directory path m.documentation with
          | error fault => exact .untouched
          | ok t =>
              dsimp only
              cases hmodule : writePath t directory (sibling path m.fileName) m.module with
              | error fault => exact .halfway hread hrun hdocument hmodule
              | ok u => exact .migrated hread hrun hdocument hmodule

theorem migrateFile_halfway {source : List Char} {m : Migrated} {fault : Fault}
    (hread : readPath s directory path = .ok source) (hrun : Migration.run o source path = .ok m)
    (hdocument : writePath s directory path m.documentation = .ok t)
    (hmodule : writePath t directory (sibling path m.fileName) m.module = .error fault) :
    migrateFile o false directory path s =
      (.error (.unwritable (sibling path m.fileName) fault), t) := by
  simp [migrateFile, hread, hrun, writeResults, hdocument, hmodule]

theorem migrateFile_migrated {source : List Char} {m : Migrated} {u : Store}
    (hread : readPath s directory path = .ok source) (hrun : Migration.run o source path = .ok m)
    (hdocument : writePath s directory path m.documentation = .ok t)
    (hmodule : writePath t directory (sibling path m.fileName) m.module = .ok u) :
    migrateFile o false directory path s = (.ok m, u) := by
  simp [migrateFile, hread, hrun, writeResults, hdocument, hmodule]

/-- A migration stops between its two writes: the documentation, which is not what the file held, takes its
place, and the module cannot be written. -/
def StopsHalfway (o : Options) (directory : Place) (path : List Char) (s : Store) : Prop :=
  ∃ source m t fault, readPath s directory path = .ok source ∧ Migration.run o source path = .ok m ∧
    m.documentation ≠ source ∧ writePath s directory path m.documentation = .ok t ∧
    writePath t directory (sibling path m.fileName) m.module = .error fault

/-- Writing over a text shows, if the text is another one. -/
theorem get?_unchanged_iff {source : List Char} (hread : readPath s directory path = .ok source)
    (hwrite : writePath s directory path text = .ok t) :
    (∀ place, t.get? place = s.get? place) ↔ text = source := by
  obtain ⟨place, hlocate, hfile⟩ := readPath_eq_ok_iff.mp hread
  obtain ⟨q, hq, hwritten⟩ := writePath_written hwrite
  have hsame : q = place := Except.ok.inj (hq.symm.trans hlocate)
  subst hsame
  constructor
  · intro h
    have hhere := h q
    rw [hwritten.here, hfile] at hhere
    cases hhere
    rfl
  · rintro rfl p
    by_cases hp : p = q
    · rw [hp, hwritten.here, hfile]
    · exact hwritten.elsewhere p hp

/-- A failed migration leaves every file as it was, unless it stops between its two writes; then the file
itself is the only one that changed. -/
theorem failed_migration_keeps_files_iff {e : FileError}
    (h : migrateFile o false directory path s = (.error e, t)) :
    ((∀ place, t.get? place = s.get? place) ↔ ¬ StopsHalfway o directory path s) ∧
      ∀ place, s.locate directory path ≠ .ok place → t.get? place = s.get? place := by
  have hmove := migrateFile_move o directory path s
  rw [h] at hmove
  refine ⟨⟨?_, fun hhalfway => ?_⟩, fun p hp => ?_⟩
  · rintro hkept ⟨source, m, u, fault, hread, hrun, hne, hdocument, hmodule⟩
    have hstops := migrateFile_halfway hread hrun hdocument hmodule
    rw [h] at hstops
    cases hstops
    exact hne ((get?_unchanged_iff hread hdocument).mp hkept)
  · cases hmove with
    | untouched => exact fun _ => rfl
    | halfway hread hrun hdocument hmodule =>
        refine (get?_unchanged_iff hread hdocument).mpr (Classical.byContradiction fun hne => ?_)
        exact hhalfway ⟨_, _, _, _, hread, hrun, hne, hdocument, hmodule⟩
  · cases hmove with
    | untouched => rfl
    | halfway _ _ hdocument _ =>
        obtain ⟨q, hq, hwritten⟩ := writePath_written hdocument
        refine hwritten.elsewhere p fun hsame => hp ?_
        rw [hsame, hq]

/-- A word of prose is migrated, and the documentation imports the module in front of it. -/
theorem exists_run_prose (fileName : List Char) :
    ∃ m, Migration.run {} ['a'] fileName = .ok m ∧ m.documentation ≠ ['a'] ∧
      m.fileName = Naming.moduleFileName (Migration.baseOf fileName) "tsx".toList ∧
      m.module = (Migration.layOut {} "export default \x7b\x7d;\n".toList m.fileName).1 := by
  obtain ⟨m, hrun, hdocumentation, hname, hmodule⟩ :=
    exists_run_of_leaves ['a'] fileName [.text ['a']] ⟨[]⟩
      ⟨[⟨.defaultExport, "export default \x7b\x7d;".toList, none⟩]⟩ rfl
      (by simp [Migration.addImport, Migration.addToFirst?]) rfl rfl rfl
  refine ⟨m, hrun, fun h => ?_, hname, hmodule⟩
  have hlength := congrArg List.length (hdocumentation.symm.trans h)
  simp [Migration.importedOf, Migration.addImport, Migration.addToFirst?, Markup.Document.print,
    Markup.Node.print] at hlength

/-- A store in which a directory stands where the module of a file goes. -/
def blockedStore : Store :=
  .ofEntries
    [(["Foo.mdx".toList], .file (.text ['a'])), (["Foo.stories.tsx".toList], .directory)]

theorem blockedStore_stopsHalfway : StopsHalfway {} [] "Foo.mdx".toList blockedStore := by
  obtain ⟨m, hrun, hne, hname, _⟩ := exists_run_prose "Foo.mdx".toList
  obtain ⟨t, hdocument, hmodule⟩ : ∃ t,
      writePath blockedStore [] "Foo.mdx".toList m.documentation = .ok t ∧
        writePath t [] (sibling "Foo.mdx".toList m.fileName) m.module = .error .isDirectory := by
    rw [hname]
    exact ⟨_, rfl, rfl⟩
  exact ⟨['a'], m, t, .isDirectory, rfl, hrun, hne, hdocument, hmodule⟩

theorem failed_migration_keeps_files_iff_blocked :
    ∃ e t, migrateFile {} false [] "Foo.mdx".toList blockedStore = (.error e, t) ∧
      ((∀ place, t.get? place = blockedStore.get? place) ↔
        ¬ StopsHalfway {} [] "Foo.mdx".toList blockedStore) ∧
      ∀ place, blockedStore.locate [] "Foo.mdx".toList ≠ .ok place →
        t.get? place = blockedStore.get? place := by
  obtain ⟨source, m, t, fault, hread, hrun, _, hdocument, hmodule⟩ := blockedStore_stopsHalfway
  have hfailed := migrateFile_halfway hread hrun hdocument hmodule
  exact ⟨_, t, hfailed, failed_migration_keeps_files_iff hfailed⟩

/-- The documentation is written over the file, and the migration fails. -/
theorem failed_migration_changes_blocked :
    ∃ e t, migrateFile {} false [] "Foo.mdx".toList blockedStore = (.error e, t) ∧
      ¬ ∀ place, t.get? place = blockedStore.get? place := by
  obtain ⟨source, m, t, fault, hread, hrun, hne, hdocument, hmodule⟩ := blockedStore_stopsHalfway
  exact ⟨_, t, migrateFile_halfway hread hrun hdocument hmodule,
    fun hkept => hne ((get?_unchanged_iff hread hdocument).mp hkept)⟩

/-! ## The files of a run -/

/-- The path of the module of a file. -/
def modulePath (o : Options) (path : List Char) : List Char :=
  sibling path (Naming.moduleFileName (Migration.baseOf path) o.dialect.extension.toList)

theorem sibling_fileName {source : List Char} {m : Migrated} (h : Migration.run o source path = .ok m) :
    sibling path m.fileName = modulePath o path := by
  obtain ⟨st, rfl⟩ := Migration.run_eq_ok_iff.mp h
  rfl

/-- A file name is its base, or its base with one of the endings of documentation. -/
theorem eq_baseName_append (name : List Char) :
    ∃ ending ∈ [] :: Naming.documentEndings.map String.toList,
      name = Naming.baseName name ++ ending := by
  unfold Naming.baseName
  cases hfound : Naming.documentEndings.findSome? fun ending =>
      Text.dropTrail? ending.toList name with
  | none => exact ⟨[], by simp, by simp⟩
  | some base =>
      obtain ⟨ending, hmem, hdrop⟩ := List.exists_of_findSome?_eq_some hfound
      exact ⟨ending.toList, List.mem_cons_of_mem _ (List.mem_map_of_mem hmem),
        Text.dropTrail?_eq_some_iff.mp hdrop⟩

/-- The module of a file has another name than the file. -/
theorem moduleFileName_ne (o : Options) (name : List Char) :
    Naming.moduleFileName (Naming.baseName name) o.dialect.extension.toList ≠ name := by
  obtain ⟨ending, hending, hname⟩ := eq_baseName_append name
  have hmodule : ∀ d : Dialect, ".stories.".toList ++ d.extension.toList ∉
      [] :: Naming.documentEndings.map String.toList := by
    intro d
    cases d <;> decide
  intro h
  rw [Naming.moduleFileName, List.append_assoc] at h
  rw [← List.append_cancel_left (h.trans hname)] at hending
  exact hmodule _ hending

theorem moduleFileName_isName (o : Options) {name : List Char} (h : IsName name) :
    IsName (Naming.moduleFileName (Naming.baseName name) o.dialect.extension.toList) := by
  obtain ⟨ending, _, hname⟩ := eq_baseName_append name
  have hbase : '/' ∉ Naming.baseName name := by
    intro hslash
    refine h.noSlash ?_
    rw [hname]
    simp [hslash]
  have hextension : '/' ∉ o.dialect.extension.toList := by
    cases o.dialect <;> decide
  have hlength : 3 ≤ (Naming.moduleFileName (Naming.baseName name)
      o.dialect.extension.toList).length := by
    simp [Naming.moduleFileName]
    omega
  refine ⟨?_, by simp [Naming.moduleFileName, hbase, hextension], ?_, ?_⟩
  all_goals
    intro hsame
    rw [hsame] at hlength
    simp at hlength

/-- A file and its module stand at different places. -/
theorem locate_modulePath_ne (hs : s.WellFormed) {c : Contents}
    (hlocate : s.locate directory path = .ok place) (hfile : s.get? place = some (.file c)) :
    s.locate directory (modulePath o path) ≠ .ok place := by
  obtain ⟨name, hname, hpath, hlast⟩ := Store.fileName?_of_locate hs hlocate hfile
  have hmodule : modulePath o path =
      join (parent path) (Naming.moduleFileName (Naming.baseName name) o.dialect.extension.toList) := by
    simp [modulePath, sibling, Migration.baseOf, Migration.leafOf, hpath]
  intro h
  rw [hmodule] at h
  have hsame := Store.getLast?_of_locate_join (moduleFileName_isName o hname) h
  rw [hlast] at hsame
  exact moduleFileName_ne o name (Option.some.inj hsame).symm

/-- What the migration of a file can write to. -/
def outputs (o : Options) (path : List Char) : List (List Char) :=
  [path, modulePath o path]

/-- `t` is `s` but for the files that some paths lead to, and paths lead where they led before. -/
structure ChangedAt (directory : Place) (paths : List (List Char)) (s t : Store) : Prop where
  locate_iff : ∀ path place, t.locate directory path = .ok place ↔ s.locate directory path = .ok place
  elsewhere : ∀ place, (∀ path ∈ paths, s.locate directory path ≠ .ok place) →
    t.get? place = s.get? place

namespace ChangedAt

theorem refl (paths : List (List Char)) (s : Store) : ChangedAt directory paths s s :=
  ⟨fun _ _ => Iff.rfl, fun _ _ => rfl⟩

theorem trans {u : Store} {paths others : List (List Char)} (h : ChangedAt directory paths s t)
    (hnext : ChangedAt directory others t u) : ChangedAt directory (paths ++ others) s u where
  locate_iff := fun path place => (hnext.locate_iff path place).trans (h.locate_iff path place)
  elsewhere := by
    intro place hpaths
    rw [hnext.elsewhere place, h.elsewhere place]
    · exact fun path hpath => hpaths path (by simp [hpath])
    · intro path hpath hlocate
      exact hpaths path (by simp [hpath]) ((h.locate_iff path place).mp hlocate)

theorem of_written (hlocate : s.locate directory path = .ok place)
    (hwritten : Store.Written place text s t) : ChangedAt directory [path] s t where
  locate_iff := fun _ _ => hwritten.locate_iff
  elsewhere := by
    intro q hq
    refine hwritten.elsewhere q fun hsame => hq path (by simp) ?_
    rw [hsame, hlocate]

theorem mono {paths others : List (List Char)} (h : ChangedAt directory paths s t)
    (hsub : paths ⊆ others) : ChangedAt directory others s t :=
  ⟨h.locate_iff, fun place hothers => h.elsewhere place fun path hpath => hothers path (hsub hpath)⟩

end ChangedAt

theorem FileMove.changedAt {r : Except FileError Migrated} (h : FileMove o directory path s r t) :
    ChangedAt directory (outputs o path) s t := by
  cases h with
  | untouched => exact .refl _ _
  | halfway _ _ hdocument _ =>
      obtain ⟨place, hlocate, hwritten⟩ := writePath_written hdocument
      exact (ChangedAt.of_written hlocate hwritten).mono (by simp [outputs])
  | migrated _ hrun hdocument hmodule =>
      obtain ⟨place, hlocate, hwritten⟩ := writePath_written hdocument
      obtain ⟨q, hq, hmodule⟩ := writePath_written hmodule
      rw [sibling_fileName hrun] at hq
      exact (ChangedAt.of_written hlocate hwritten).trans (.of_written hq hmodule)

/-- Where a file that was migrated stood, where its module stands, and what stands there now. -/
theorem FileMove.outputs_get? {m : Migrated} (h : FileMove o directory path s (.ok m) t) :
    ∃ source place target, s.locate directory path = .ok place ∧
      s.get? place = some (.file (.text source)) ∧ Migration.run o source path = .ok m ∧
      s.locate directory (modulePath o path) = .ok target ∧
      (place ≠ target → t.get? place = some (.file (.text m.documentation))) ∧
      t.get? target = some (.file (.text m.module)) := by
  cases h with
  | migrated hread hrun hdocument hmodule =>
      obtain ⟨place, hlocate, hfile⟩ := readPath_eq_ok_iff.mp hread
      obtain ⟨q, hq, hdocument⟩ := writePath_written hdocument
      obtain ⟨target, htarget, hmodule⟩ := writePath_written hmodule
      have hsame : q = place := Except.ok.inj (hq.symm.trans hlocate)
      subst hsame
      rw [sibling_fileName hrun] at htarget
      refine ⟨_, q, target, hlocate, hfile, hrun, hdocument.locate_iff.mp htarget, fun hne => ?_,
        hmodule.here⟩
      rw [hmodule.elsewhere q hne, hdocument.here]

namespace Progress

variable {a : Arguments} {p : Progress}

theorem step_files (o : Options) (hwrite : a.dryRun = false) (directory : Place) (p : Progress)
    (path : List Char) :
    (step o a directory p path).files = (migrateFile o false directory path p.files).2 := by
  unfold step
  rw [hwrite]
  split
  · rename_i heq
    rw [heq]
  · rename_i heq
    rw [heq]

/-- A file is counted as migrated just if both its files were written. -/
theorem migrated_of_counted (hwrite : a.dryRun = false)
    (h : (step o a directory p path).summary.migrated = p.summary.migrated + 1) :
    ∃ m, migrateFile o false directory path p.files = (.ok m, (step o a directory p path).files) := by
  rw [step_files o hwrite]
  unfold step at h
  rw [hwrite] at h
  split at h
  · rename_i m files heq
    exact ⟨m, by rw [heq]⟩
  · exact absurd h (by simp)

theorem step_of_migrated {m : Migrated} (hwrite : a.dryRun = false)
    (h : migrateFile o false directory path p.files = (.ok m, t)) :
    (step o a directory p path).files = t ∧
      (step o a directory p path).summary.migrated = p.summary.migrated + 1 := by
  unfold step
  rw [hwrite, h]
  exact ⟨rfl, rfl⟩

/-- A run changes no more than what its files are migrated to. -/
theorem run_changedAt (o : Options) (hwrite : a.dryRun = false) (directory : Place) (p : Progress)
    (paths : List (List Char)) :
    ChangedAt directory (paths.flatMap (outputs o)) p.files (run o a directory p paths).files := by
  induction paths generalizing p with
  | nil => exact .refl _ _
  | cons path paths ih =>
      have hstep : ChangedAt directory (outputs o path) p.files (step o a directory p path).files := by
        rw [step_files o hwrite]
        exact (migrateFile_move o directory path p.files).changedAt
      exact hstep.trans (ih (step o a directory p path))

/-- Two paths whose files are migrated to different places. -/
def OutputsApart (o : Options) (s : Store) (directory : Place) (path other : List Char) : Prop :=
  ∀ out ∈ outputs o path, ∀ place, s.locate directory out = .ok place →
    ∀ target ∈ outputs o other, s.locate directory target ≠ .ok place

/-- Files of a run leave the outputs of a path alone that are apart from theirs. -/
theorem get?_run_of_apart (o : Options) (hwrite : a.dryRun = false) {paths : List (List Char)}
    (hapart : ∀ other ∈ paths, OutputsApart o p.files directory path other) {out : List Char}
    (hout : out ∈ outputs o path) (hlocate : p.files.locate directory out = .ok place) :
    (run o a directory p paths).files.get? place = p.files.get? place := by
  refine (run_changedAt o hwrite directory p paths).elsewhere place fun target htarget => ?_
  obtain ⟨other, hother, htarget⟩ := List.mem_flatMap.mp htarget
  exact hapart other hother out hout place hlocate target htarget

theorem OutputsApart.of_changedAt {paths : List (List Char)} {other : List Char}
    (h : OutputsApart o s directory path other) (hchanged : ChangedAt directory paths s t) :
    OutputsApart o t directory path other := by
  intro out hout place hlocate target htarget hsame
  exact h out hout place ((hchanged.locate_iff out place).mp hlocate) target htarget
    ((hchanged.locate_iff target place).mp hsame)

/-- A file that is counted as migrated in a run, and that shares no output with another file of the run:
after the run its path holds the documentation, and the path next to it the module, that are made from what
the file held before the run. -/
theorem run_holds_outputs (hs : p.files.WellFormed) (hwrite : a.dryRun = false)
    {before after : List (List Char)}
    (hapart : ∀ other ∈ before ++ after, OutputsApart o p.files directory path other)
    (hcounted : (step o a directory (run o a directory p before) path).summary.migrated =
      (run o a directory p before).summary.migrated + 1) :
    ∃ source m, readPath p.files directory path = .ok source ∧
      Migration.run o source path = .ok m ∧
      readPath (run o a directory p (before ++ path :: after)).files directory path =
        .ok m.documentation ∧
      readPath (run o a directory p (before ++ path :: after)).files directory
        (sibling path m.fileName) = .ok m.module := by
  have hsplit : run o a directory p (before ++ path :: after) =
      run o a directory (step o a directory (run o a directory p before) path) after := by
    simp [run]
  rw [hsplit]
  obtain ⟨m, hmigrated⟩ := migrated_of_counted hwrite hcounted
  have hbefore := run_changedAt o hwrite directory p before
  have hmove := migrateFile_move o directory path (run o a directory p before).files
  rw [hmigrated] at hmove
  generalize hlast : step o a directory (run o a directory p before) path = last at hmove
  have hchanged := hbefore.trans hmove.changedAt
  have hafter := run_changedAt o hwrite directory last after
  obtain ⟨source, place, target, hplace, hfile, hrun, htarget, hdocument, hmodule⟩ := hmove.outputs_get?
  rw [hbefore.locate_iff] at hplace htarget
  -- Earlier files left the source alone, and later ones leave alone what it was migrated to.
  have hsource : p.files.get? place = some (.file (.text source)) := by
    rw [← hfile]
    exact (get?_run_of_apart o hwrite (fun other hother => hapart other (by simp [hother]))
      (by simp [outputs]) hplace).symm
  have hkept : ∀ out ∈ outputs o path, ∀ q, p.files.locate directory out = .ok q →
      (run o a directory last after).files.get? q = last.files.get? q := by
    intro out hout q hq
    refine get?_run_of_apart o hwrite (fun other hother => ?_) hout ((hchanged.locate_iff out q).mpr hq)
    exact (hapart other (by simp [hother])).of_changedAt hchanged
  have hne : place ≠ target := by
    rintro rfl
    exact locate_modulePath_ne hs hplace hsource htarget
  refine ⟨source, m, readPath_eq_ok_iff.mpr ⟨place, hplace, hsource⟩, hrun, ?_, ?_⟩
  · refine readPath_eq_ok_iff.mpr ⟨place, ?_, ?_⟩
    · rw [hafter.locate_iff, hchanged.locate_iff, hplace]
    · rw [hkept path (by simp [outputs]) place hplace, hdocument hne]
  · rw [sibling_fileName hrun]
    refine readPath_eq_ok_iff.mpr ⟨target, ?_, ?_⟩
    · rw [hafter.locate_iff, hchanged.locate_iff, htarget]
    · rw [hkept _ (by simp [outputs]) target htarget, hmodule]

/-- Two files whose modules have different names. -/
def separateStore : Store :=
  .ofEntries
    [(["Bar.mdx".toList], .file (.text ['a'])), (["Foo.mdx".toList], .file (.text ['a']))]

theorem run_holds_outputs_separate :
    let p : Progress := { files := separateStore }
    let before := run {} {} [] p ["Bar.mdx".toList]
    separateStore.WellFormed ∧
      OutputsApart {} separateStore [] "Foo.mdx".toList "Bar.mdx".toList ∧
      (step {} {} [] before "Foo.mdx".toList).summary.migrated = before.summary.migrated + 1 ∧
      ∃ source m, readPath separateStore [] "Foo.mdx".toList = .ok source ∧
        Migration.run {} source "Foo.mdx".toList = .ok m ∧
        readPath (run {} {} [] p ["Bar.mdx".toList, "Foo.mdx".toList]).files [] "Foo.mdx".toList =
          .ok m.documentation ∧
        readPath (run {} {} [] p ["Bar.mdx".toList, "Foo.mdx".toList]).files []
          (sibling "Foo.mdx".toList m.fileName) = .ok m.module := by
  intro p before
  have hs : separateStore.WellFormed := ⟨by decide, by decide, by decide⟩
  have hapart : OutputsApart {} separateStore [] "Foo.mdx".toList "Bar.mdx".toList := by
    have hall : ∀ out ∈ outputs {} "Foo.mdx".toList, ∀ target ∈ outputs {} "Bar.mdx".toList,
        separateStore.locate [] out ≠ separateStore.locate [] target := by decide
    intro out hout place hlocate target htarget hsame
    exact hall out hout target htarget (hlocate.trans hsame.symm)
  obtain ⟨m, hrun, _, hname, _⟩ := exists_run_prose "Bar.mdx".toList
  have hfirst : migrateFile {} false [] "Bar.mdx".toList separateStore =
      (.ok m, (separateStore.put ["Bar.mdx".toList] (.file (.text m.documentation))).put
        ["Bar.stories.tsx".toList] (.file (.text m.module))) :=
    migrateFile_migrated rfl hrun rfl (by rw [hname]; rfl)
  have hcounted : (step {} {} [] before "Foo.mdx".toList).summary.migrated =
      before.summary.migrated + 1 := by
    obtain ⟨n, hrun', _, hname', _⟩ := exists_run_prose "Foo.mdx".toList
    have hfiles : before.files = _ := (step_of_migrated rfl hfirst).1
    have hsecond : migrateFile {} false [] "Foo.mdx".toList before.files =
        (.ok n, (before.files.put ["Foo.mdx".toList] (.file (.text n.documentation))).put
          ["Foo.stories.tsx".toList] (.file (.text n.module))) := by
      rw [hfiles]
      exact migrateFile_migrated rfl hrun' rfl (by rw [hname']; rfl)
    exact (step_of_migrated rfl hsecond).2
  refine ⟨hs, hapart, hcounted, ?_⟩
  have hothers : ∀ other ∈ ["Bar.mdx".toList] ++ [],
      OutputsApart {} p.files [] "Foo.mdx".toList other := by simpa using hapart
  exact run_holds_outputs hs rfl hothers hcounted

/-- Two files whose modules have the same name. -/
def sharedStore : Store :=
  .ofEntries
    [(["Foo.mdx".toList], .file (.text ['a'])),
      (["Foo.stories.mdx".toList], .file (.text "import 'b'".toList))]

/-- Both files are counted as migrated, and the module of the first is lost. -/
theorem run_overwrites_module_shared :
    let last := run {} {} [] { files := sharedStore } ["Foo.mdx".toList, "Foo.stories.mdx".toList]
    last.summary.migrated = 2 ∧
      ∃ m, Migration.run {} ['a'] "Foo.mdx".toList = .ok m ∧
        readPath last.files [] (sibling "Foo.mdx".toList m.fileName) ≠ .ok m.module := by
  intro last
  obtain ⟨m, hrun, _, hname, hmodule⟩ := exists_run_prose "Foo.mdx".toList
  obtain ⟨n, hrun', _, hname', hmodule'⟩ :=
    exists_run_of_leaves "import 'b'".toList "Foo.stories.mdx".toList
      [.script "import 'b'".toList] ⟨[⟨.import, "import 'b'".toList, none⟩]⟩
      ⟨[⟨.import, "import 'b'".toList, none⟩,
        ⟨.defaultExport, "export default \x7b\x7d;".toList, none⟩]⟩ rfl
      (by simp [Migration.addImport, Migration.addToFirst?]) rfl (by decide +kernel) rfl
  have hfirst : migrateFile {} false [] "Foo.mdx".toList sharedStore =
      (.ok m, (sharedStore.put ["Foo.mdx".toList] (.file (.text m.documentation))).put
        ["Foo.stories.tsx".toList] (.file (.text m.module))) :=
    migrateFile_migrated rfl hrun rfl (by rw [hname]; rfl)
  obtain ⟨hfiles, hcount⟩ := step_of_migrated (p := { files := sharedStore }) (a := {}) rfl hfirst
  have hlast : last = step {} {} [] (step {} {} [] { files := sharedStore } "Foo.mdx".toList)
      "Foo.stories.mdx".toList := rfl
  generalize step {} {} [] { files := sharedStore } "Foo.mdx".toList = first at hfiles hcount hlast
  -- The second file is still there, and its module goes where the first one's was written.
  have hread : readPath first.files [] "Foo.stories.mdx".toList = .ok "import 'b'".toList := by
    rw [hfiles]
    rfl
  obtain ⟨t, u, hdocument, hwrite, hover⟩ : ∃ t u,
      writePath first.files [] "Foo.stories.mdx".toList n.documentation = .ok t ∧
        writePath t [] (sibling "Foo.stories.mdx".toList n.fileName) n.module = .ok u ∧
        readPath u [] (sibling "Foo.mdx".toList m.fileName) = .ok n.module := by
    rw [hfiles, hname, hname']
    exact ⟨_, _, rfl, rfl, rfl⟩
  obtain ⟨hfiles', hcount'⟩ :=
    step_of_migrated (a := {}) rfl (migrateFile_migrated hread hrun' hdocument hwrite)
  rw [hlast]
  refine ⟨by rw [hcount', hcount], m, hrun, fun hkept => ?_⟩
  rw [hfiles'] at hkept
  -- The two modules differ in the import of the second file.
  have hsame := Except.ok.inj (hover.symm.trans hkept)
  rw [hmodule, hmodule', hname, hname'] at hsame
  exact absurd hsame (by decide +kernel)

end Progress

end Command
end StoryDocs
