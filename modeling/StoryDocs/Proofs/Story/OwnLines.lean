import StoryDocs.Proofs.Story.ExtractionRemains
import StoryDocs.Proofs.Text.Dedent

/-!
# The lines of a story that is dropped

A story that is dropped should take its own line and the blank lines after it, and leave every line that goes on
with something else as it is.  `Segment.linedAll` says so of the segments of a document.  Extraction looks at the
prose behind the story alone: if all of it is blank, it drops the last line of it too, though a tag or an
expression may stand there.
-/

namespace StoryDocs

open Text Markup

variable {ns value l x : List Char} {ls ps : List (List Char)} {behind before ends : Bool} {s : Segment}
  {segments : List Segment}

/-! ## Blank lines -/

/-- Drop blank lines from the start.  The last line ends with the text only if nothing stands behind the text, as
`ends` tells. -/
def dropLines (ends : Bool) : List (List Char) → List (List Char)
  | [] => []
  | [last] => if ends && allBlank last then [] else [last]
  | l :: ls => if allBlank l then dropLines ends ls else l :: ls

/-- The prose behind a story without the rest of its line, if that is blank, and without the blank lines after
it. -/
def restLines (ends : Bool) (value : List Char) : List Char :=
  unlines (dropLines ends (pieces value))

theorem dropLines_true (ls : List (List Char)) : dropLines true ls = dropBlankLines ls := by
  induction ls with
  | nil => rfl
  | cons l ls ih =>
      cases ls with
      | nil => rw [dropLines, dropBlankLines, Bool.true_and]
      | cons m ls =>
          rw [dropLines, dropBlankLines, ih]
          · simp
          · simp

/-- Lines that are not all blank are dropped up to the first that is not. -/
theorem dropLines_of_not_blank (hl : l ∈ ls) (hblank : allBlank l = false) :
    dropLines ends ls = dropBlankLines ls := by
  induction ls with
  | nil => cases hl
  | cons m ls ih =>
      cases ls with
      | nil =>
          obtain rfl := List.mem_singleton.mp hl
          rw [dropLines, dropBlankLines, hblank, Bool.and_false]
      | cons k ls =>
          rw [dropLines, dropBlankLines]
          · split
            · rename_i hm
              rcases List.mem_cons.mp hl with rfl | hl
              · rw [hm] at hblank
                cases hblank
              · exact ih hl
            · rfl
          · simp
          · simp

/-- Of blank lines the last one stays, if the text goes on behind it. -/
theorem dropLines_concat (h : ∀ l ∈ ps, allBlank l = true) : dropLines false (ps ++ [x]) = [x] := by
  induction ps with
  | nil => rfl
  | cons l ps ih =>
      obtain ⟨hl, hps⟩ := List.forall_mem_cons.mp h
      obtain ⟨m, ms, hms⟩ := List.exists_cons_of_ne_nil (show ps ++ [x] ≠ [] by simp)
      rw [List.cons_append, hms, dropLines, if_pos hl, ← hms, ih hps]
      simp

theorem dropBlankLines_of_blank (h : ∀ l ∈ ls, allBlank l = true) : dropBlankLines ls = [] := by
  induction ls with
  | nil => rfl
  | cons l ls ih =>
      obtain ⟨hl, hls⟩ := List.forall_mem_cons.mp h
      cases ls with
      | nil => rw [dropBlankLines, if_pos hl]
      | cons m ls =>
          rw [dropBlankLines, if_pos hl]
          · exact ih hls
          · simp

theorem allBlank_unlines (ls : List (List Char)) :
    allBlank (unlines ls) = true ↔ ∀ l ∈ ls, allBlank l = true := by
  induction ls with
  | nil => simp [unlines, allBlank]
  | cons l ls ih =>
      cases ls with
      | nil => simp [unlines]
      | cons m ls =>
          have hfeed : isBlank '\n' = true := by decide
          rw [unlines_cons (by simp), List.forall_mem_cons, ← ih]
          simp only [allBlank, List.all_append, List.all_cons, hfeed, Bool.true_and, Bool.and_eq_true]

/-! ## Blank prose -/

/-- Prose that is not blank loses the same lines whatever stands behind it. -/
theorem restLines_of_not_blank (h : allBlank value = false) : restLines ends value = stripLine value := by
  have hpiece : ¬∀ l ∈ pieces value, allBlank l = true := by
    rw [← allBlank_unlines, unlines_pieces, h]
    simp
  obtain ⟨l, hl⟩ := Classical.not_forall.mp hpiece
  obtain ⟨hmem, hblank⟩ := Classical.not_imp.mp hl
  rw [restLines, stripLine, dropLines_of_not_blank hmem (by simpa using hblank)]

theorem stripLine_of_blank (h : allBlank value = true) : stripLine value = [] := by
  rw [← unlines_pieces value, allBlank_unlines] at h
  rw [stripLine, dropBlankLines_of_blank h]
  rfl

/-- What stands behind the last line feed of blank prose stays, if the line goes on there. -/
theorem restLines_of_blank (h : allBlank value = true) : restLines false value = lastLine value := by
  obtain ⟨ps, x, hpieces⟩ := exists_pieces_concat value
  rw [← unlines_pieces value, allBlank_unlines, hpieces] at h
  have hx : '\n' ∉ x := not_mem_of_mem_pieces (by rw [hpieces]; simp)
  have hjoined := unlines_pieces value
  rw [restLines, hpieces, dropLines_concat fun l hl => h l (List.mem_append_left _ hl)]
  rw [hpieces] at hjoined
  by_cases hps : ps = []
  · subst hps
    have hlast := @lastLine_append [] x (.inl rfl) hx
    rw [← hjoined]
    exact hlast.symm
  · have hsplit : unlines ps ++ '\n' :: x = (unlines ps ++ ['\n']) ++ x := by
      rw [List.append_assoc, List.singleton_append]
    rw [unlines_concat hps, hsplit] at hjoined
    rw [← hjoined]
    exact (lastLine_append (.inr (by simp)) hx).symm

/-! ## The lines of a document -/

/-- Prose without the indent of a dropped story behind it, if there is one. -/
def cutIndent (before : Bool) (value : List Char) : List Char :=
  if before then dropTail isIndent value else value

/-- The text that a segment should become, if dropped stories take their own lines and the blank lines after
them and no more. -/
def Segment.lined (ns : List Char) (behind before ends : Bool) : Segment → List Char
  | .prose value => cutIndent before (if behind then restLines ends value else value)
  | s => s.rewritten ns behind before

/-- The texts that segments in a row should become. -/
def Segment.linedAll (ns : List Char) : Bool → List Segment → List (List Char)
  | _, [] => []
  | behind, s :: rest => s.lined ns behind (startsDropped rest) rest.isEmpty :: linedAll ns s.dropped rest

open Segment

/-- Whether extraction takes more of a segment than it should: blank prose behind a dropped story that ends in the
middle of a line, where the line goes on with something that stays. -/
def Segment.TakenShort (behind before ends : Bool) : Segment → Prop
  | .prose value => behind = true ∧ ends = false ∧ allBlank value = true ∧ cutIndent before (lastLine value) ≠ []
  | _ => False

theorem cutIndent_nil (before : Bool) : cutIndent before [] = [] := by
  cases before with
  | false => rfl
  | true => rfl

theorem rewritten_of_takenShort (ns : List Char) (h : s.TakenShort behind before ends) :
    s.rewritten ns behind before = [] ∧ s.lined ns behind before ends ≠ [] := by
  cases s with
  | prose value =>
      obtain ⟨rfl, rfl, hblank, hcut⟩ := h
      constructor
      · show cutIndent before (stripLine value) = []
        rw [stripLine_of_blank hblank, cutIndent_nil]
      · show cutIndent before (restLines false value) ≠ []
        rwa [restLines_of_blank hblank]
  | fixed value => cases h
  | metadata tag children hname => cases h
  | story tag children hname => cases h

theorem rewritten_of_not_takenShort (ns : List Char) (h : ¬s.TakenShort behind before ends) :
    s.rewritten ns behind before = s.lined ns behind before ends := by
  cases s with
  | prose value =>
      cases behind with
      | false => rfl
      | true =>
          show cutIndent before (stripLine value) = cutIndent before (restLines ends value)
          cases hblank : allBlank value with
          | false => rw [restLines_of_not_blank hblank]
          | true =>
              cases ends with
              | true => rw [restLines, dropLines_true, stripLine]
              | false =>
                  have hcut : cutIndent before (lastLine value) = [] := by
                    by_contra hne
                    exact h ⟨rfl, rfl, hblank, hne⟩
                  rw [restLines_of_blank hblank, stripLine_of_blank hblank, hcut, cutIndent_nil]
  | fixed value => rfl
  | metadata tag children hname => rfl
  | story tag children hname => rfl

namespace Segment

/-- Whether extraction takes no more than it should of any of some segments. -/
def NoneTakenShort : Bool → List Segment → Prop
  | _, [] => True
  | behind, s :: rest =>
    ¬s.TakenShort behind (startsDropped rest) rest.isEmpty ∧ NoneTakenShort s.dropped rest

theorem length_rewrittenAll_le (ns : List Char) (behind : Bool) (segments : List Segment) :
    (rewrittenAll ns behind segments).flatten.length ≤ (linedAll ns behind segments).flatten.length := by
  induction segments generalizing behind with
  | nil => exact Nat.le_refl _
  | cons s rest ih =>
      have hrest := ih s.dropped
      rw [rewrittenAll, linedAll, List.flatten_cons, List.flatten_cons, List.length_append, List.length_append]
      by_cases hshort : s.TakenShort behind (startsDropped rest) rest.isEmpty
      · rw [(rewritten_of_takenShort ns hshort).1, List.length_nil]
        omega
      · rw [rewritten_of_not_takenShort ns hshort]
        omega

theorem flatten_rewrittenAll_iff (ns : List Char) (behind : Bool) (segments : List Segment) :
    (rewrittenAll ns behind segments).flatten = (linedAll ns behind segments).flatten ↔
      NoneTakenShort behind segments := by
  induction segments generalizing behind with
  | nil => exact ⟨fun _ => trivial, fun _ => rfl⟩
  | cons s rest ih =>
      rw [rewrittenAll, linedAll, List.flatten_cons, List.flatten_cons, NoneTakenShort]
      by_cases hshort : s.TakenShort behind (startsDropped rest) rest.isEmpty
      · -- What is taken too much is not made up for behind.
        obtain ⟨hnil, hne⟩ := rewritten_of_takenShort ns hshort
        refine ⟨fun h => ?_, fun h => absurd hshort h.1⟩
        have hlengths := congrArg List.length h
        have hrest := length_rewrittenAll_le ns s.dropped rest
        have hpos := List.length_pos_iff.mpr hne
        rw [hnil, List.length_append, List.length_append, List.length_nil] at hlengths
        omega
      · rw [rewritten_of_not_takenShort ns hshort, List.append_cancel_left_eq, ih s.dropped]
        exact ⟨fun h => ⟨hshort, h⟩, fun h => h.2⟩

/-- No prose in front of something is taken short. -/
theorem noneTakenShort_iff (behind : Bool) (segments : List Segment) : NoneTakenShort behind segments ↔
    (∀ value next back, segments = .prose value :: next :: back → behind = true → allBlank value = true →
        cutIndent next.dropped (lastLine value) = []) ∧
      ∀ front s value next back, segments = front ++ s :: .prose value :: next :: back → s.dropped = true →
        allBlank value = true → cutIndent next.dropped (lastLine value) = [] := by
  induction segments generalizing behind with
  | nil => simp [NoneTakenShort]
  | cons s rest ih =>
      rw [NoneTakenShort, ih s.dropped]
      -- The flag speaks of the first segment; every other one is asked about the segment in front of it.
      refine and_congr ?_ ?_
      · constructor
        · rintro h value next back hsegments rfl hblank
          obtain ⟨rfl, rfl⟩ := List.cons.inj hsegments
          by_contra hne
          exact h ⟨rfl, rfl, hblank, hne⟩
        · intro h hshort
          cases s with
          | prose value =>
              obtain ⟨rfl, hends, hblank, hne⟩ := hshort
              cases rest with
              | nil => cases hends
              | cons next back => exact hne (h value next back rfl rfl hblank)
          | fixed value => cases hshort
          | metadata tag children hname => cases hshort
          | story tag children hname => cases hshort
      · constructor
        · rintro ⟨hfirst, hothers⟩ front t value next back hsegments hdropped hblank
          cases front with
          | nil =>
              obtain ⟨rfl, hrest⟩ := List.cons.inj hsegments
              exact hfirst value next back hrest hdropped hblank
          | cons u front =>
              obtain ⟨rfl, hrest⟩ := List.cons.inj hsegments
              exact hothers front t value next back hrest hdropped hblank
        · intro h
          exact ⟨fun value next back hrest => h [] s value next back (by rw [hrest]; rfl),
            fun front t value next back hrest => h (s :: front) t value next back (by rw [hrest]; rfl)⟩

end Segment

theorem print_extract (ns : List Char) {source : List Char} {d : Document} (h : parse source = .ok d) :
    (extract ns d).1.print = (rewrittenAll ns false d.segments).flatten :=
  printAll_extract ns (parse_pristine h) (parse_aligned h)

/-- Stories that are dropped take their own lines and the blank lines after them, and no more, if and only if no
blank prose behind one of them ends in the middle of a line: what stands there behind its last line feed is
nothing, or the indent of a story that is dropped too. -/
theorem extract_takes_own_lines_iff (ns : List Char) {source : List Char} {d : Document} (h : parse source = .ok d) :
    (extract ns d).1.print = (linedAll ns false d.segments).flatten ↔
      ∀ front s value next back, d.segments = front ++ s :: .prose value :: next :: back → s.dropped = true →
        allBlank value = true → cutIndent next.dropped (lastLine value) = [] := by
  rw [print_extract ns h, flatten_rewrittenAll_iff, noneTakenShort_iff]
  exact ⟨fun h => h.2, fun h => ⟨fun _ _ _ _ hbehind => Bool.noConfusion hbehind, h⟩⟩

/-- A story before a line feed and one before a line with more prose. -/
theorem extract_takes_own_lines_iff_prose :
    ∃ d, parse "a\n  <Story />\n\n  b\n<Story /> c".toList = .ok d ∧
      ((extract "N".toList d).1.print = (linedAll "N".toList false d.segments).flatten ↔
        ∀ front s value next back, d.segments = front ++ s :: .prose value :: next :: back → s.dropped = true →
          allBlank value = true → cutIndent next.dropped (lastLine value) = []) := by
  have hparse : ∃ d, parse "a\n  <Story />\n\n  b\n<Story /> c".toList = .ok d := ⟨_, rfl⟩
  obtain ⟨d, hd⟩ := hparse
  exact ⟨d, hd, extract_takes_own_lines_iff "N".toList hd⟩

/-- The tag on the next line loses its indent. -/
theorem extract_takes_next_indent :
    ∃ d, parse "<Story />\n  <Foo />".toList = .ok d ∧ (extract "N".toList d).1.print = "<Foo />".toList ∧
      (linedAll "N".toList false d.segments).flatten = "  <Foo />".toList := by
  have hparse : ∃ d, parse "<Story />\n  <Foo />".toList = .ok d ∧
      (rewrittenAll "N".toList false d.segments).flatten = "<Foo />".toList ∧
      (linedAll "N".toList false d.segments).flatten = "  <Foo />".toList := ⟨_, rfl, rfl, rfl⟩
  obtain ⟨d, hd, hrewritten, hlined⟩ := hparse
  exact ⟨d, hd, (print_extract "N".toList hd).trans hrewritten, hlined⟩

end StoryDocs
