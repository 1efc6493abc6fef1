import Mathlib.Data.List.Forall2
import Mathlib.Data.List.Nodup
import StoryDocs.Command.Collection
import StoryDocs.Proofs.Files.Path

/-!
# Which files are collected

A path stands for the file it leads to, or for the documentation files below the directory it leads to.
Collection gives for each path the files that it stands for, each once.  A file that two paths stand for is
given twice.
-/

namespace StoryDocs
namespace Command

open Files

/-- The file at a place is one that a path stands for. -/
inductive StandsFor (s : Store) (directory : Place) (path : List Char) : Place → Prop
  /-- The path leads to the file. -/
  | file {place : Place} {c : Contents} (hlocate : s.locate directory path = .ok place)
      (hfile : s.get? place = some (.file c)) : StandsFor s directory path place
  /-- The path leads to a directory, from which no name that is passed over leads to the file. -/
  | below {root names : Place} {name : Name} {c : Contents}
      (hlocate : s.locate directory path = .ok root) (hroot : s.get? root = some .directory)
      (hfile : s.get? (root ++ (names ++ [name])) = some (.file c))
      (hname : isDocumentation name = true) (hnames : ∀ n ∈ names, isSkipped n = false) :
      StandsFor s directory path (root ++ (names ++ [name]))

variable {s : Store} {directory root place : Place} {path : List Char}

/-! ## Below a directory -/

theorem isCollected_iff {names : Place} :
    isCollected names = true ↔
      ∃ front name, names = front ++ [name] ∧ isDocumentation name = true ∧
        ∀ n ∈ front, isSkipped n = false := by
  rcases List.eq_nil_or_concat names with rfl | ⟨front, name, hconcat⟩
  · simp [isCollected]
  · rw [List.concat_eq_append] at hconcat
    subst hconcat
    simp only [isCollected, List.getLast?_concat, List.dropLast_concat, Bool.and_eq_true,
      Bool.not_eq_true', List.any_eq_false]
    constructor
    · rintro ⟨hname, hfront⟩
      exact ⟨front, name, rfl, hname, fun n hn => by simpa using hfront n hn⟩
    · rintro ⟨front', name', heq, hname, hfront⟩
      obtain ⟨rfl, hlast⟩ := List.append_inj' heq rfl
      cases hlast
      exact ⟨hname, fun n hn => by simp [hfront n hn]⟩

theorem mem_files_iff (hs : s.WellFormed) {c : Contents} :
    (place, c) ∈ s.files ↔ s.get? place = some (.file c) := by
  rw [hs.get?_file_iff, Store.files, List.mem_filterMap]
  constructor
  · rintro ⟨⟨p, entry⟩, hmem, hfile⟩
    cases entry with
    | file contents =>
        cases hfile
        exact hmem
    | directory => cases hfile
  · intro hmem
    exact ⟨_, hmem, rfl⟩

theorem mem_documentsBelow_iff (hs : s.WellFormed) {names : Place} :
    names ∈ documentsBelow s root ↔
      isCollected names = true ∧ ∃ c, s.get? (root ++ names) = some (.file c) := by
  rw [documentsBelow, List.mem_filterMap]
  constructor
  · rintro ⟨⟨p, c⟩, hmem, hbelow⟩
    obtain ⟨hsome, hcollected⟩ := Option.filter_eq_some_iff.mp hbelow
    have hp := below?_eq_some_iff.mp hsome
    subst hp
    exact ⟨hcollected, c, (mem_files_iff hs).mp hmem⟩
  · rintro ⟨hcollected, c, hfile⟩
    refine ⟨(root ++ names, c), (mem_files_iff hs).mpr hfile, ?_⟩
    exact Option.filter_eq_some_iff.mpr ⟨below?_eq_some_iff.mpr rfl, hcollected⟩

/-- Each file is listed once, because each place has one entry. -/
theorem nodup_documentsBelow (hs : s.WellFormed) (root : Place) : (documentsBelow s root).Nodup := by
  have hfiles : s.files.Pairwise fun a b => a.1 ≠ b.1 := by
    refine hs.pairwise_ne.filterMap _ ?_
    rintro ⟨p, entry⟩ ⟨q, other⟩ hne a ha b hb
    cases entry with
    | directory => cases ha
    | file c =>
        cases other with
        | directory => cases hb
        | file d =>
            cases ha
            cases hb
            exact hne
  refine hfiles.filterMap _ ?_
  rintro ⟨p, c⟩ ⟨q, d⟩ hne names hnames others hothers heq
  have hp := below?_eq_some_iff.mp (Option.filter_eq_some_iff.mp hnames).1
  have hq := below?_eq_some_iff.mp (Option.filter_eq_some_iff.mp hothers).1
  exact hne (by rw [hp, hq, heq])

/-- The names below a directory, put behind its path one after the other, lead to the place below it. -/
theorem locate_foldl_join (hs : s.WellFormed) {names : Place}
    (hlocate : s.locate directory path = .ok root) (hsome : s.get? (root ++ names) ≠ none)
    (hnames : ∀ name ∈ names, IsName name) :
    s.locate directory (names.foldl join path) = .ok (root ++ names) := by
  induction names generalizing path root with
  | nil => simpa using hlocate
  | cons name names ih =>
      have hroot := hs.directory_above hsome (by simp)
      have hjoin := Store.locate_join hlocate hroot (hnames name (by simp))
      rw [List.append_cons] at hsome ⊢
      exact ih hjoin hsome fun n hn => hnames n (by simp [hn])

/-! ## Collection -/

/-- Files without repetition that are just those that a path stands for. -/
structure Lists (s : Store) (directory : Place) (path : List Char) (places : List Place) : Prop where
  nodup : places.Nodup
  mem_iff : ∀ place, place ∈ places ↔ StandsFor s directory path place

/-- A path that leads somewhere is expanded to the files that it stands for. -/
theorem expand?_lists (hs : s.WellFormed) (hlocate : s.locate directory path = .ok place)
    (hsome : s.get? place ≠ none) :
    ∃ files, ∃ places : List Place, expand? s directory path = some files ∧
      files.map (s.locate directory) = places.map .ok ∧ Lists s directory path places := by
  cases hentry : s.get? place with
  | none => exact absurd hentry hsome
  | some entry =>
      cases entry with
      | file c =>
          refine ⟨[path], [place], by simp [expand?, hlocate, hentry], by simp [hlocate],
            List.nodup_singleton place, fun p => ?_⟩
          rw [List.mem_singleton]
          constructor
          · rintro rfl
            exact .file hlocate hentry
          · intro h
            cases h with
            | file hp => exact Except.ok.inj (hp.symm.trans hlocate)
            | below hp hroot =>
                rw [Except.ok.inj (hp.symm.trans hlocate), hentry] at hroot
                cases hroot
      | directory =>
          refine ⟨(documentsBelow s place).map fun names => names.foldl join path,
            (documentsBelow s place).map (place ++ ·), by simp [expand?, hlocate, hentry], ?_,
            (nodup_documentsBelow hs place).map (List.append_right_injective place), fun p => ?_⟩
          -- The paths that are listed lead to the places that the walk below the directory comes to.
          · rw [List.map_map, List.map_map]
            refine List.map_congr_left fun names hnames => ?_
            obtain ⟨_, c, hfile⟩ := (mem_documentsBelow_iff hs).mp hnames
            refine locate_foldl_join hs hlocate (by simp [hfile]) fun name hname => ?_
            exact hs.named _ (Store.mem_of_get?_file hfile) name (by simp [hname])
          · rw [List.mem_map]
            constructor
            · rintro ⟨names, hnames, rfl⟩
              obtain ⟨hcollected, c, hfile⟩ := (mem_documentsBelow_iff hs).mp hnames
              obtain ⟨front, name, rfl, hname, hfront⟩ := isCollected_iff.mp hcollected
              exact .below hlocate hentry hfile hname hfront
            · intro h
              cases h with
              | file hp hfile =>
                  rw [Except.ok.inj (hp.symm.trans hlocate), hentry] at hfile
                  cases hfile
              | @below root names name c hp _ hfile hname hnames =>
                  have hroot := Except.ok.inj (hp.symm.trans hlocate)
                  subst hroot
                  refine ⟨names ++ [name], (mem_documentsBelow_iff hs).mpr ⟨?_, c, hfile⟩, rfl⟩
                  exact isCollected_iff.mpr ⟨names, name, rfl, hname, hnames⟩

/-- Two paths that stand for no common file. -/
def Apart (s : Store) (directory : Place) (path other : List Char) : Prop :=
  ∀ place, StandsFor s directory path place → ¬ StandsFor s directory other place

/-- Paths that lead somewhere are expanded one after the other. -/
theorem collect_lists (hs : s.WellFormed) {paths : List (List Char)}
    (hpaths : ∀ path ∈ paths, ∃ place, s.locate directory path = .ok place ∧ s.get? place ≠ none) :
    ∃ files, ∃ groups : List (List Place), collect s directory paths = .ok files ∧
      files.map (s.locate directory) = groups.flatten.map .ok ∧
      List.Forall₂ (Lists s directory) paths groups := by
  induction paths with
  | nil => exact ⟨[], [], rfl, rfl, .nil⟩
  | cons path paths ih =>
      obtain ⟨place, hlocate, hsome⟩ := hpaths path (by simp)
      obtain ⟨files, places, hexpand, hplaces, hlists⟩ := expand?_lists hs hlocate hsome
      obtain ⟨more, groups, hcollect, hmore, hgroups⟩ := ih fun p hp => hpaths p (by simp [hp])
      refine ⟨files ++ more, places :: groups, ?_, ?_, .cons hlists hgroups⟩
      · rw [collect, hexpand, hcollect]
        rfl
      · simp [hplaces, hmore]

/-- The files of all paths are those that some path stands for. -/
theorem mem_flatten_iff {paths : List (List Char)} {groups : List (List Place)}
    (h : List.Forall₂ (Lists s directory) paths groups) :
    place ∈ groups.flatten ↔ ∃ path ∈ paths, StandsFor s directory path place := by
  induction h with
  | nil => simp
  | cons hgroup _ ih => simp [ih, hgroup.mem_iff]

/-- A file is listed twice just if two paths stand for it. -/
theorem nodup_flatten_iff {paths : List (List Char)} {groups : List (List Place)}
    (h : List.Forall₂ (Lists s directory) paths groups) :
    groups.flatten.Nodup ↔ paths.Pairwise (Apart s directory) := by
  induction h with
  | nil => simp
  | cons hgroup hgroups ih =>
      rw [List.flatten_cons, List.nodup_append', List.pairwise_cons, ih,
        and_iff_right hgroup.nodup, and_comm]
      refine and_congr_left fun _ => ?_
      constructor
      · intro hdisjoint other hother place hplace hcommon
        exact hdisjoint ((hgroup.mem_iff place).mpr hplace)
          ((mem_flatten_iff hgroups).mpr ⟨other, hother, hcommon⟩)
      · intro hapart place hplace hcommon
        obtain ⟨other, hother, hstands⟩ := (mem_flatten_iff hgroups).mp hcommon
        exact hapart other hother place ((hgroup.mem_iff place).mp hplace) hstands

/-- Paths that lead somewhere are collected to the files that they stand for and to no others, and each
of these files is collected once if and only if no two of the paths stand for a common one. -/
theorem collect_each_once_iff (hs : s.WellFormed) {paths : List (List Char)}
    (hpaths : ∀ path ∈ paths, ∃ place, s.locate directory path = .ok place ∧ s.get? place ≠ none) :
    ∃ files, ∃ places : List Place, collect s directory paths = .ok files ∧
      files.map (s.locate directory) = places.map .ok ∧
      (∀ place, place ∈ places ↔ ∃ path ∈ paths, StandsFor s directory path place) ∧
      (places.Nodup ↔ paths.Pairwise (Apart s directory)) := by
  obtain ⟨files, groups, hcollect, hplaces, hgroups⟩ := collect_lists hs hpaths
  exact ⟨files, groups.flatten, hcollect, hplaces, fun _ => mem_flatten_iff hgroups,
    nodup_flatten_iff hgroups⟩

/-- A directory with a package that is passed over, and a file that is no documentation by its name. -/
def sampleStore : Store :=
  .ofEntries
    [(["a.txt".toList], .file (.text [])),
      (["docs".toList, "b.mdx".toList], .file (.text [])),
      (["docs".toList, "node_modules".toList, "c.mdx".toList], .file (.text []))]

theorem collect_each_once_sample :
    sampleStore.WellFormed ∧
      (∀ path ∈ ["docs".toList, "a.txt".toList], ∃ place,
        sampleStore.locate [] path = .ok place ∧ sampleStore.get? place ≠ none) ∧
      ∃ files, ∃ places : List Place,
        collect sampleStore [] ["docs".toList, "a.txt".toList] = .ok files ∧
        files.map (sampleStore.locate []) = places.map .ok ∧
        (∀ place, place ∈ places ↔
          ∃ path ∈ ["docs".toList, "a.txt".toList], StandsFor sampleStore [] path place) ∧
        (places.Nodup ↔ ["docs".toList, "a.txt".toList].Pairwise (Apart sampleStore [])) := by
  have hs : sampleStore.WellFormed := ⟨by decide, by decide, by decide⟩
  have hpaths : ∀ path ∈ ["docs".toList, "a.txt".toList], ∃ place,
      sampleStore.locate [] path = .ok place ∧ sampleStore.get? place ≠ none := by
    intro path hpath
    rcases List.mem_pair.mp hpath with rfl | rfl
    · exact ⟨["docs".toList], by decide, by decide⟩
    · exact ⟨["a.txt".toList], by decide, by decide⟩
  exact ⟨hs, hpaths, collect_each_once_iff hs hpaths⟩

/-- A file that is named and lies below a named directory is collected twice. -/
theorem collect_overlap_twice :
    collect sampleStore [] ["docs/b.mdx".toList, "docs".toList] =
        .ok ["docs/b.mdx".toList, "docs/b.mdx".toList] ∧
      ¬ (["docs/b.mdx".toList, "docs/b.mdx".toList].map (sampleStore.locate [])).Nodup := by
  decide

end Command
end StoryDocs
