import StoryDocs.Proofs.Script.Returned
import StoryDocs.Proofs.Text.Octets

/-!
# What dedenting takes away

An expression is dedented before it goes into a property, and only blanks should go: the lines keep their
code, and any two of them stay as far apart in their indentation as they were.  The indentation that is lost
is counted in bytes, so this depends on where the count ends.  A line in which it ends inside a character
is lost with its code.  Between two characters the code is kept and the indentations differ by as many
bytes as before; by as many characters too if the lost part of each line has the same number of them.
-/

namespace StoryDocs
namespace Synthesis

open Text Script

variable {n : Nat} {l text : List Char} {size : List Char → Nat}

/-- The blanks that a line starts with. -/
def indentation (l : List Char) : List Char :=
  l.takeWhile isBlank

/-- Only blanks are taken away: `after` has the lines of `before`, one for one, up to the blanks at their
ends.  Any two lines of code behind the first one differ in their indentation as before, as `size` measures
it. -/
structure Unindents (size : List Char → Nat) (before after : List Char) : Prop where
  code : (lines after).map trim = (lines before).map trim
  difference : ∀ p ∈ (lines before).tail.zip (lines after).tail,
    ∀ q ∈ (lines before).tail.zip (lines after).tail, allBlank p.1 = false → allBlank q.1 = false →
      (size (indentation p.2) : Int) - size (indentation q.2) =
        size (indentation p.1) - size (indentation q.1)

/-- The lost indentation has the same number of characters in all lines of code behind the first one. -/
def EvenlyIndented (text : List Char) : Prop :=
  ∃ k, ∀ l ∈ (lines text).tail, allBlank l = false → byteSize (l.take k) = lostIndent text

/-! ## One line -/

/-- What a line of code loses in front is the start of its indentation. -/
theorem Relayable.exists_indentation (h : Relayable n l) (hcode : allBlank l = false) :
    ∃ front, l = front ++ dropBytes n l ∧ byteSize front = n ∧ allBlank front = true ∧
      indentation l = front ++ indentation (trimEnd (dropBytes n l)) := by
  obtain ⟨front, hsplit, hsize, hblank⟩ := h.exists_split hcode
  obtain ⟨back, hback, _⟩ := exists_dropTail_append isBlank (dropBytes n l)
  have hkept : allBlank (trimEnd (dropBytes n l)) = false := by
    rw [allBlank_trimEnd, h.allBlank_rest hcode]
  refine ⟨front, hsplit, hsize, hblank, ?_⟩
  have hfront : indentation (front ++ dropBytes n l) = front ++ indentation (dropBytes n l) :=
    List.takeWhile_append_of_pos fun c hc => List.all_eq_true.mp hblank c hc
  have hrest : indentation (dropBytes n l) = indentation (trimEnd (dropBytes n l)) := by
    have hsame := @takeWhile_isBlank_append _ back hkept
    rwa [trimEnd, ← hback] at hsame
  rw [← hrest, ← hfront, ← hsplit]

/-- A line that can be cut keeps its code. -/
theorem Relayable.trim_eq (h : Relayable n l) : trim (trimEnd (dropBytes n l)) = trim l := by
  obtain ⟨back, hback, hbackBlank⟩ := exists_dropTail_append isBlank (dropBytes n l)
  cases hcode : allBlank l with
  | true =>
      have hrest : allBlank (trimEnd (dropBytes n l)) = true := by
        refine List.all_eq_true.mpr fun c hc => ?_
        exact List.all_eq_true.mp hcode c (dropBytes_subset n l (trimEnd_subset _ hc))
      rw [trim_eq_nil_iff.mpr hcode, trim_eq_nil_iff.mpr hrest]
  | false =>
      obtain ⟨front, hsplit, _, hblank⟩ := h.exists_split hcode
      have htrim := @trim_between_blanks (trimEnd (dropBytes n l)) front back hblank hbackBlank
      rw [List.append_assoc, trimEnd, ← hback, ← hsplit] at htrim
      exact htrim.symm

/-- A line of code that keeps its code is not cut inside a character. -/
theorem cutsBetween_of_trim_eq (hcode : allBlank l = false)
    (h : trim (trimEnd (dropBytes n l)) = trim l) : CutsBetween n l := by
  by_contra hcuts
  have hnil : trim l = [] := by rw [← h, dropBytes_eq_nil hcuts]; rfl
  rw [trim_eq_nil_iff.mp hnil] at hcode
  cases hcode

/-! ## All lines -/

/-- The code of all lines is kept exactly if the lost indentation ends between characters. -/
theorem Solid.map_trim_iff (h : Solid text) :
    (lines (dedent text)).map trim = (lines text).map trim ↔ CleanlyIndented text := by
  obtain ⟨first, rest, hlines, _, hlast⟩ := h.exists_lines
  obtain ⟨l, hdedent, htrim, _⟩ := h.lines_dedent hlines
  have hlost : lostIndent text = sharedIndent rest := by rw [lostIndent, hlines, List.tail_cons]
  have htail : (lines text).tail = rest := by rw [hlines, List.tail_cons]
  rw [hdedent, hlines, List.map_cons, List.map_cons, htrim]
  constructor
  · intro hsame m hm hcode
    have hrest := (List.cons.inj hsame).2
    have hall := @terminated_of_length (rest.map fun l => trimEnd (dropBytes (sharedIndent rest) l))
      (by simp [dropReturn_trimEnd]) (by simpa using congrArg List.length hrest)
    rw [hall, List.map_map, List.map_inj_left] at hrest
    rw [htail] at hm
    rw [hlost]
    exact cutsBetween_of_trim_eq hcode (hrest m hm)
  · intro hclean
    have hrelayable := hclean.relayable
    rw [htail, hlost] at hrelayable
    rw [terminated_relayable fun m hm => ⟨hrelayable m (List.mem_of_getLast? hm), hlast m hm⟩,
      List.map_map]
    refine congrArg (trim first :: ·) (List.map_congr_left fun m hm => ?_)
    exact (hrelayable m hm).trim_eq

/-- Each line behind the first one is cut. -/
theorem CleanlyIndented.zip_lines (hclean : CleanlyIndented text) (h : Solid text) :
    (lines text).tail.zip (lines (dedent text)).tail =
      (lines text).tail.map fun l => (l, trimEnd (dropBytes (lostIndent text) l)) := by
  obtain ⟨first, rest, hlines, _, hlast⟩ := h.exists_lines
  obtain ⟨l, hdedent, _⟩ := h.lines_dedent hlines
  have hrelayable := hclean.relayable
  rw [lostIndent, hlines, List.tail_cons] at hrelayable ⊢
  rw [hdedent, List.tail_cons, List.map_prod_left_eq_zip,
    terminated_relayable fun m hm => ⟨hrelayable m (List.mem_of_getLast? hm), hlast m hm⟩]

/-- Only blanks are taken away exactly if the lines are cut between characters, and the indentations of any
two of them differ as before. -/
theorem Solid.unindents_iff (h : Solid text) :
    Unindents size text (dedent text) ↔ CleanlyIndented text ∧
      ∀ l ∈ (lines text).tail, ∀ m ∈ (lines text).tail, allBlank l = false → allBlank m = false →
        (size (indentation (trimEnd (dropBytes (lostIndent text) l))) : Int) -
            size (indentation (trimEnd (dropBytes (lostIndent text) m))) =
          size (indentation l) - size (indentation m) := by
  constructor
  · rintro ⟨hcode, hdifference⟩
    have hclean := h.map_trim_iff.mp hcode
    rw [hclean.zip_lines h] at hdifference
    exact ⟨hclean, fun l hl m hm => hdifference _ (List.mem_map_of_mem hl) _ (List.mem_map_of_mem hm)⟩
  · rintro ⟨hclean, hdifference⟩
    refine ⟨h.map_trim_iff.mpr hclean, ?_⟩
    rw [hclean.zip_lines h]
    intro p hp q hq
    obtain ⟨l, hl, rfl⟩ := List.mem_map.mp hp
    obtain ⟨m, hm, rfl⟩ := List.mem_map.mp hq
    exact hdifference l hl m hm

theorem Solid.unindents_bytes_iff (h : Solid text) :
    Unindents byteSize text (dedent text) ↔ CleanlyIndented text := by
  rw [h.unindents_iff]
  refine ⟨And.left, fun hclean => ⟨hclean, fun l hl m hm hcode hcode' => ?_⟩⟩
  -- Both lines lose the same number of bytes.
  obtain ⟨front, _, hsize, _, hindent⟩ := (hclean.relayable l hl).exists_indentation hcode
  obtain ⟨front', _, hsize', _, hindent'⟩ := (hclean.relayable m hm).exists_indentation hcode'
  rw [hindent, hindent', byteSize_append, byteSize_append, hsize, hsize']
  omega

/-- The characters that a line loses, if their number is known. -/
theorem eq_take_of_byteSize {front : List Char} {k : Nat} (hsplit : l = front ++ dropBytes n l)
    (htake : byteSize (l.take k) = n) : front = l.take k := by
  have hrest : dropBytes n l = l.drop k := by
    have hdrop := dropBytes_byteSize (l.take k) (l.drop k)
    rwa [List.take_append_drop, htake] at hdrop
  rw [hrest] at hsplit
  exact List.append_cancel_right (hsplit.symm.trans (List.take_append_drop k l).symm)

theorem EvenlyIndented.cleanly (h : EvenlyIndented text) : CleanlyIndented text := by
  obtain ⟨k, htake⟩ := h
  exact fun l hl hcode => cutsBetween_iff.mpr ⟨l.take k, List.take_prefix k l, htake l hl hcode⟩

theorem Solid.unindents_characters_iff (h : Solid text) :
    Unindents List.length text (dedent text) ↔ EvenlyIndented text := by
  rw [h.unindents_iff]
  constructor
  · rintro ⟨hclean, hdifference⟩
    by_cases hnone : ∀ l ∈ (lines text).tail, allBlank l = true
    · refine ⟨0, fun l hl hcode => ?_⟩
      rw [hnone l hl] at hcode
      cases hcode
    -- One line of code tells how many characters every other one loses.
    simp only [not_forall, Bool.not_eq_true] at hnone
    obtain ⟨m, hm, hcode'⟩ := hnone
    obtain ⟨front', _, _, _, hindent'⟩ := (hclean.relayable m hm).exists_indentation hcode'
    refine ⟨front'.length, fun l hl hcode => ?_⟩
    obtain ⟨front, hsplit, hsize, _, hindent⟩ := (hclean.relayable l hl).exists_indentation hcode
    have hlength := hdifference l hl m hm hcode hcode'
    rw [hindent, hindent', List.length_append, List.length_append] at hlength
    have hsame : front.length = front'.length := by omega
    rw [hsplit, List.take_left' hsame, hsize]
  · intro heven
    have hclean := heven.cleanly
    refine ⟨hclean, fun l hl m hm hcode hcode' => ?_⟩
    obtain ⟨k, htake⟩ := heven
    have hlost : ∀ l ∈ (lines text).tail, allBlank l = false → ∃ front, front.length = k ∧
        indentation l = front ++ indentation (trimEnd (dropBytes (lostIndent text) l)) := by
      intro l hl hcode
      obtain ⟨front, hsplit, _, hblank, hindent⟩ := (hclean.relayable l hl).exists_indentation hcode
      have hfront := eq_take_of_byteSize hsplit (htake l hl hcode)
      refine ⟨front, ?_, hindent⟩
      -- The line has code behind what it loses, so it is longer.
      have hlonger : k ≤ l.length := by
        by_contra hshort
        rw [List.take_of_length_le (by omega)] at hfront
        rw [hfront, hcode] at hblank
        cases hblank
      rw [hfront, List.length_take, Nat.min_eq_left hlonger]
    obtain ⟨front, hfront, hindent⟩ := hlost l hl hcode
    obtain ⟨front', hfront', hindent'⟩ := hlost m hm hcode'
    rw [hindent, hindent', List.length_append, List.length_append, hfront, hfront']
    omega

/-- Blanks of one byte each are lost one by one. -/
theorem evenlyIndented_of_narrow (h : ∀ l ∈ (lines text).tail, ∀ c ∈ indentation l, isWide c = false) :
    EvenlyIndented text := by
  refine ⟨lostIndent text, fun l hl hcode => ?_⟩
  have hle : lostIndent text ≤ byteSize (indentation l) := sharedIndent_le hl hcode
  rw [byteSize_of_narrow (h l hl)] at hle
  have htake : l.take (lostIndent text) = (indentation l).take (lostIndent text) := by
    have hsplit : indentation l ++ l.dropWhile isBlank = l := List.takeWhile_append_dropWhile
    rw [← List.take_append_of_le_length hle, hsplit]
  rw [htake, byteSize_of_narrow fun c hc => h l hl c (List.mem_of_mem_take hc), List.length_take,
    Nat.min_eq_left hle]

/-! ## Expressions -/

/-- When dedenting takes only blanks away from a text that starts and ends with code.  With indentations
counted in bytes, exactly if the lost one ends between two characters of every line of code; counted in
characters, exactly if it has the same number of them in each.  Any mixture of spaces, tabs and other blanks
of one byte is of both kinds.  The expressions that are dedented, and the functions that return them, start
and end with code. -/
theorem dedent_unindents_iff (dialect : Dialect) :
    (∀ text, trim text = text →
      (Unindents byteSize text (dedent text) ↔ CleanlyIndented text) ∧
        (Unindents List.length text (dedent text) ↔ EvenlyIndented text) ∧
        ((∀ l ∈ (lines text).tail, ∀ c ∈ indentation l, isWide c = false) → EvenlyIndented text)) ∧
      ∀ source context f, Fragment.parse source dialect context = .ok f →
        trim f.source = f.source ∧ trim f.thunk = f.thunk := by
  constructor
  · intro text htrim
    by_cases hne : text = []
    · subst hne
      have hempty : ∀ size, Unindents size [] (dedent []) := fun _ => ⟨rfl, by simp [lines, pieces, terminated]⟩
      have heven : EvenlyIndented [] := ⟨0, by simp [lines, pieces, terminated]⟩
      exact ⟨iff_of_true (hempty _) heven.cleanly, iff_of_true (hempty _) heven, fun _ => heven⟩
    · have hsolid : Solid text := by
        have hsolid' := @solid_trim text (by rwa [htrim])
        rwa [htrim] at hsolid'
      exact ⟨hsolid.unindents_bytes_iff, hsolid.unindents_characters_iff, evenlyIndented_of_narrow⟩
  · intro source context f hf
    refine ⟨?_, Fragment.trim_thunk hf⟩
    rw [(Fragment.source_of_parse hf).1, trim_trim]

/-- An object whose lines are indented by tabs and spaces in different orders. -/
def mixedObject : List Char :=
  " \x7b\n\t  a: 1,\n\t\t\n \t\tb: 2\n  \x7d\n".toList

/-- Each line of its code loses two blanks and nothing else. -/
theorem dedent_unindents_mixed :
    ∃ f, Fragment.parse mixedObject .tsx "test" = .ok f ∧
      Unindents byteSize f.source (dedent f.source) ∧ Unindents List.length f.source (dedent f.source) ∧
        dedent f.source = "\x7b\n a: 1,\n\n\tb: 2\n\x7d".toList := by
  have haccepted : ((Module.parse? Dialect.tsx.features (Fragment.wrap (trim mixedObject))).bind
      Fragment.expressionOf?).isSome = true := by decide +kernel
  obtain ⟨tree, htree⟩ := Option.isSome_iff_exists.mp haccepted
  have hparse := @Fragment.parse_eq_ok mixedObject .tsx "test" tree (by decide) htree
  obtain ⟨htext, hcallers⟩ := dedent_unindents_iff .tsx
  obtain ⟨hbytes, hcharacters, hnarrow⟩ := htext _ (hcallers _ _ _ hparse).1
  have hblanks : ∀ l ∈ (lines (trim mixedObject)).tail, ∀ c ∈ indentation l, isWide c = false := by decide
  have heven := hnarrow hblanks
  have hdedent : dedent (trim mixedObject) = "\x7b\n a: 1,\n\n\tb: 2\n\x7d".toList := by decide
  exact ⟨_, hparse, hbytes.mpr heven.cleanly, hcharacters.mpr heven, hdedent⟩

/-- An object whose member is indented by an ideographic space, and its closing brace by two spaces. -/
def wideObject : List Char :=
  "\x7b\n\u3000x: 1\n  \x7d".toList

/-- The two bytes that these lines share end inside the ideographic space, and the member is lost. -/
theorem wideObject_loses_member :
    ∃ f statement, (∀ context, Fragment.parse wideObject .tsx context = .ok f) ∧ f.source = wideObject ∧
      trim f.source = f.source ∧ dedent f.source = "\x7b\n\n\x7d".toList ∧
      metadataExport .tsx (some [.property ['a'] (some (.expression wideObject))]) = .ok (statement, []) ∧
      statement.text = "export default \x7b\n  a: \x7b\n\n  \x7d,\n\x7d;".toList ∧
      ∀ size, ¬ Unindents size f.source (dedent f.source) := by
  have haccepted : ((Module.parse? Dialect.tsx.features (Fragment.wrap (trim wideObject))).bind
      Fragment.expressionOf?).isSome = true := by decide +kernel
  obtain ⟨tree, htree⟩ := Option.isSome_iff_exists.mp haccepted
  have hparse : ∀ context, Fragment.parse wideObject .tsx context = .ok ⟨trim wideObject, tree⟩ :=
    fun _ => Fragment.parse_eq_ok (by decide) htree
  have htrim : trim wideObject = wideObject := by decide
  have hdedent : dedent wideObject = "\x7b\n\n\x7d".toList := by decide
  have hlost : ¬ (lines "\x7b\n\n\x7d".toList).map trim = (lines wideObject).map trim := by decide
  have hexport := @metadataExport_expression .tsx ['a'] wideObject tree hparse
  rw [htrim] at hparse hexport
  refine ⟨_, _, hparse, rfl, htrim, hdedent, hexport, by decide, ?_⟩
  intro size h
  have hcode := h.code
  rw [hdedent] at hcode
  exact hlost hcode

end Synthesis
end StoryDocs
