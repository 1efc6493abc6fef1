import StoryDocs.Proofs.Files.Store
import StoryDocs.Proofs.Outcome

/-!
# Where a path leads

A path leads to a place through its pieces.  Putting a name behind the path of a directory leads to that name
in the directory, and the last component of the path of a file is the file's name.
-/

namespace StoryDocs
namespace Files

open Text

/-! ## Pieces -/

theorem slashPieces_ne_nil (path : List Char) : slashPieces path ≠ [] := by
  cases path with
  | nil => simp [slashPieces]
  | cons c path =>
      rw [slashPieces]
      split
      · simp
      · split <;> simp

theorem slashPieces_append_slash (a b : List Char) :
    slashPieces (a ++ '/' :: b) = slashPieces a ++ slashPieces b := by
  induction a with
  | nil => simp [slashPieces]
  | cons c a ih =>
      rw [List.cons_append, slashPieces, slashPieces, ih]
      split
      · rfl
      · cases hpieces : slashPieces a with
        | nil => exact absurd hpieces (slashPieces_ne_nil a)
        | cons p ps => rfl

theorem slashPieces_of_noSlash {name : List Char} (h : '/' ∉ name) : slashPieces name = [name] := by
  induction name with
  | nil => rfl
  | cons c name ih =>
      rw [List.mem_cons, not_or] at h
      have hc : (c == '/') = false := by simpa using Ne.symm h.1
      rw [slashPieces, ih h.2]
      simp [hc]

/-- No piece has a slash. -/
theorem noSlash_of_mem_slashPieces {path piece : List Char} (h : piece ∈ slashPieces path) :
    '/' ∉ piece := by
  induction path generalizing piece with
  | nil =>
      rw [slashPieces, List.mem_singleton] at h
      simp [h]
  | cons c path ih =>
      rw [slashPieces] at h
      split at h
      · rcases List.mem_cons.mp h with rfl | h
        · simp
        · exact ih h
      · rename_i hc
        have hslash : '/' ≠ c := fun heq => hc (by simp [← heq])
        split at h
        · rw [List.mem_singleton] at h
          simp [h, hslash]
        · rename_i p ps hpieces
          rcases List.mem_cons.mp h with rfl | h
          · have hp : '/' ∉ p := ih (by simp [hpieces])
            simpa [hslash] using hp
          · exact ih (by simp [hpieces, h])

/-- A text without a slash goes on with the last piece. -/
theorem exists_slashPieces_append (path : List Char) {s : List Char} (hs : '/' ∉ s) :
    ∃ lead last, slashPieces (path ++ s) = lead ++ [last ++ s] := by
  induction path with
  | nil => exact ⟨[], [], slashPieces_of_noSlash hs⟩
  | cons c path ih =>
      obtain ⟨lead, last, hpieces⟩ := ih
      rw [List.cons_append, slashPieces, hpieces]
      split
      · exact ⟨[] :: lead, last, rfl⟩
      · cases lead with
        | nil => exact ⟨[], c :: last, rfl⟩
        | cons p lead => exact ⟨(c :: p) :: lead, last, rfl⟩

/-- The extension of a path is what stands behind a point at its end. -/
theorem extension?_append (path : List Char) {stem extension : List Char} (hstem : stem ≠ [])
    (hslash : '/' ∉ stem ++ '.' :: extension) (hpoint : '.' ∉ extension) (hextension : extension ≠ []) :
    extension? (path ++ (stem ++ '.' :: extension)) = some extension := by
  obtain ⟨lead, last, hpieces⟩ := exists_slashPieces_append path hslash
  have hlength : 0 < stem.length ∧ 0 < extension.length :=
    ⟨List.length_pos_iff.mpr hstem, List.length_pos_iff.mpr hextension⟩
  have hlong : ∀ name : List Char, name.length < 3 → last ++ (stem ++ '.' :: extension) ≠ name := by
    rintro name hname rfl
    simp only [List.length_append, List.length_cons] at hname
    omega
  have hkept : [last ++ (stem ++ '.' :: extension)].filter (fun p => !p.isEmpty && p != ['.']) =
      [last ++ (stem ++ '.' :: extension)] := by
    simp [hstem, hlong ['.'] (by decide)]
  have hname : fileName? (path ++ (stem ++ '.' :: extension)) = some (last ++ (stem ++ '.' :: extension)) := by
    rw [fileName?, components, hpieces, List.filter_append, hkept, List.getLast?_concat]
    simp [hlong ['.', '.'] (by decide)]
  have htail : (last ++ (stem ++ '.' :: extension)).reverse.takeWhile (· != '.') = extension.reverse := by
    have hreverse : (last ++ (stem ++ '.' :: extension)).reverse = extension.reverse ++
      '.' :: (last ++ stem).reverse := by simp
    have hkeep : ∀ c ∈ extension.reverse, (c != '.') = true := fun c hc =>
      bne_iff_ne.mpr (ne_of_mem_of_not_mem (List.mem_reverse.mp hc) hpoint)
    rw [hreverse, List.takeWhile_append_of_pos hkeep, List.takeWhile_cons_of_neg (by decide), List.append_nil]
  rw [extension?, hname, Option.bind_some, nameExtension?, htail, List.reverse_reverse, if_pos]
  simp only [List.length_append, List.length_cons]
  omega

namespace Store

variable {s : Store} {directory place q : Place} {path name : List Char}

/-- A path is followed from the root or from the directory, as its first character decides. -/
theorem locate_eq_follow (s : Store) (directory : Place) (hpath : path ≠ []) :
    ∃ start body, (path = '/' :: body ∨ path = body) ∧
      ∀ suffix, s.locate directory (path ++ suffix) = s.follow start (slashPieces (body ++ suffix)) := by
  cases path with
  | nil => exact absurd rfl hpath
  | cons c rest =>
      by_cases hc : c = '/'
      · subst hc
        exact ⟨[], rest, .inl rfl, fun _ => rfl⟩
      · refine ⟨directory, c :: rest, .inr rfl, fun suffix => ?_⟩
        unfold locate
        split
        · rename_i hnil
          cases hnil
        · rename_i heq
          cases heq
          exact absurd rfl hc
        · rfl

/-- Following one more name. -/
theorem follow_name (s : Store) (place : Place) (hname : IsName name) :
    s.follow place [name] = (s.enter place).map fun _ => place ++ [name] := by
  have hempty : name.isEmpty = false := by simpa using hname.nonempty
  rw [follow]
  simp only [hempty, Bool.false_or, beq_iff_eq, hname.notHere, hname.notUp, if_false]
  cases s.enter place with
  | error fault => rfl
  | ok => rfl

/-- A piece that leads nowhere only has to stand in a directory. -/
theorem follow_empty (s : Store) (place : Place) :
    s.follow place [[]] = (s.enter place).map fun _ => place := by
  rw [follow]
  cases s.enter place with
  | error fault => rfl
  | ok => rfl

/-- The last piece of a path with a name behind it is the name, and the pieces before it lead where the
path does. -/
theorem locate_join_eq (s : Store) (directory : Place) (path : List Char) (hname : IsName name) :
    ∃ start pieces, s.locate directory (join path name) = s.follow start (pieces ++ [name]) ∧
      ∀ place, s.locate directory path = .ok place → s.follow start pieces = .ok place := by
  have hpieces : slashPieces name = [name] := slashPieces_of_noSlash hname.noSlash
  by_cases hpath : path = []
  · subst hpath
    obtain ⟨start, body, hbody, hfollow⟩ := locate_eq_follow s directory hname.nonempty
    rcases hbody with rfl | rfl
    · exact absurd (by simp) hname.noSlash
    · refine ⟨start, [], ?_, fun place h => by simp [locate] at h⟩
      have hname := hfollow []
      rwa [List.append_nil, hpieces] at hname
  obtain ⟨start, body, hbody, hfollow⟩ := locate_eq_follow s directory hpath
  have hplace : ∀ place, s.locate directory path = .ok place →
      s.follow start (slashPieces body) = .ok place := by
    intro place hlocate
    rw [← hlocate, ← List.append_nil path, hfollow, List.append_nil]
  unfold join
  rw [if_neg (by simpa using hpath)]
  split
  · rename_i hslash
    rw [beq_iff_eq] at hslash
    -- The slash at the end is the root itself, or the last piece of the path is empty.
    rcases List.eq_nil_or_concat body with rfl | ⟨front, last, hconcat⟩
    · refine ⟨start, [], by rw [hfollow, List.nil_append, hpieces, List.nil_append], ?_⟩
      intro place hlocate
      have hempty := hplace place hlocate
      rw [slashPieces, follow_empty] at hempty
      obtain ⟨_, _, rfl⟩ := map_eq_ok_iff.mp hempty
      rfl
    · rw [List.concat_eq_append] at hconcat
      subst hconcat
      have hclose : last = '/' := by
        rcases hbody with rfl | rfl
        · simpa [List.getLast?_cons] using hslash
        · simpa using hslash
      subst hclose
      refine ⟨start, slashPieces front, ?_, ?_⟩
      · rw [hfollow, List.append_assoc, List.singleton_append, slashPieces_append_slash, hpieces]
      · intro place hlocate
        have hempty := hplace place hlocate
        rw [slashPieces_append_slash, slashPieces, follow_append] at hempty
        obtain ⟨q, hq, hlast⟩ := bind_eq_ok_iff.mp hempty
        rw [follow_empty] at hlast
        obtain ⟨_, _, rfl⟩ := map_eq_ok_iff.mp hlast
        exact hq
  · refine ⟨start, slashPieces body, ?_, hplace⟩
    rw [hfollow, slashPieces_append_slash, hpieces]

/-- A name behind the path of a directory leads to the name in that directory. -/
theorem locate_join (hlocate : s.locate directory path = .ok place)
    (hdirectory : s.get? place = some .directory) (hname : IsName name) :
    s.locate directory (join path name) = .ok (place ++ [name]) := by
  obtain ⟨start, pieces, hjoin, hpieces⟩ := locate_join_eq s directory path hname
  rw [hjoin, follow_append, hpieces place hlocate]
  show s.follow place [name] = _
  rw [follow_name s place hname, enter_eq_ok_iff.mpr hdirectory]
  rfl

/-- What a name behind some path leads to has that name. -/
theorem getLast?_of_locate_join (hname : IsName name)
    (h : s.locate directory (join path name) = .ok q) : q.getLast? = some name := by
  obtain ⟨start, pieces, hjoin, _⟩ := locate_join_eq s directory path hname
  rw [hjoin, follow_append] at h
  obtain ⟨p, _, hp⟩ := bind_eq_ok_iff.mp h
  rw [follow_name s p hname] at hp
  obtain ⟨_, _, rfl⟩ := map_eq_ok_iff.mp hp
  simp

/-- A piece is passed in a directory; it leads nowhere, upwards or to its name. -/
theorem follow_piece {piece : List Char} (hslash : '/' ∉ piece)
    (h : s.follow place [piece] = .ok q) :
    s.get? place = some .directory ∧
      (q = place ∨ q = place.dropLast ∨ IsName piece ∧ q = place ++ [piece]) := by
  obtain ⟨_, henter, hrest⟩ := bind_eq_ok_iff.mp h
  refine ⟨enter_eq_ok_iff.mp henter, ?_⟩
  split at hrest
  · cases hrest
    exact .inl rfl
  · rename_i hhere
    split at hrest
    · cases hrest
      exact .inr (.inl rfl)
    · rename_i hup
      cases hrest
      simp only [Bool.or_eq_true, List.isEmpty_iff, beq_iff_eq, not_or] at hhere hup
      exact .inr (.inr ⟨⟨hhere.1, hslash, hhere.2, hup⟩, rfl⟩)

/-- The path of a file ends with the name of the file. -/
theorem fileName?_of_locate (hs : s.WellFormed) {c : Contents}
    (hlocate : s.locate directory path = .ok place) (hfile : s.get? place = some (.file c)) :
    ∃ name, IsName name ∧ fileName? path = some name ∧ place.getLast? = some name := by
  have hpath : path ≠ [] := by
    rintro rfl
    simp [locate] at hlocate
  obtain ⟨start, body, hbody, hfollow⟩ := locate_eq_follow s directory hpath
  rw [← List.append_nil path, hfollow, List.append_nil] at hlocate
  obtain ⟨front, last, hsplit⟩ : ∃ front last, slashPieces body = front ++ [last] :=
    ⟨_, _, (List.dropLast_concat_getLast (slashPieces_ne_nil body)).symm⟩
  rw [hsplit, follow_append] at hlocate
  obtain ⟨p, _, hlast⟩ := bind_eq_ok_iff.mp hlocate
  have hmem : last ∈ slashPieces body := by simp [hsplit]
  obtain ⟨hdirectory, hcases⟩ := follow_piece (noSlash_of_mem_slashPieces hmem) hlast
  -- The directory itself and the one above it are no files.
  have hname : IsName last ∧ place = p ++ [last] := by
    rcases hcases with rfl | rfl | hname
    · rw [hdirectory] at hfile
      cases hfile
    · rcases List.eq_nil_or_concat p with rfl | ⟨up, name, hconcat⟩
      · rw [List.dropLast_nil, hdirectory] at hfile
        cases hfile
      · rw [List.concat_eq_append] at hconcat
        subst hconcat
        have hup : s.get? (up ++ [name]) ≠ none := by simp [hdirectory]
        have habove := hs.directory_above hup (by simp)
        rw [List.dropLast_concat, habove] at hfile
        cases hfile
    · exact hname
  refine ⟨last, hname.1, ?_, by simp [hname.2]⟩
  have hcomponents : (components path).getLast? = some last := by
    have hpieces : ∃ lead, slashPieces path = lead ++ [last] := by
      rcases hbody with rfl | rfl
      · exact ⟨[] :: front, by simp [slashPieces, hsplit]⟩
      · exact ⟨front, hsplit⟩
    obtain ⟨lead, hlead⟩ := hpieces
    have hkept : [last].filter (fun p => !p.isEmpty && p != ['.']) = [last] := by
      simp [hname.1.nonempty, hname.1.notHere]
    rw [components, hlead, List.filter_append, hkept, List.getLast?_concat]
  simp [fileName?, hcomponents, hname.1.notUp]

end Store
end Files
end StoryDocs
