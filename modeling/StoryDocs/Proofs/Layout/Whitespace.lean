import StoryDocs.Proofs.Layout.Requoting

/-!
# What layout keeps

Layout exchanges quotes and moves blanks.  Without its blanks, a module that keeps its commas says after the
layout what its requoted text says, and it ends with exactly one line feed.
-/

namespace StoryDocs
namespace Layout

open Text Script

variable {style : Style} {literals : Literals} {s t text : List Char} {ls : List Line}

/-! ## Texts without blanks -/

/-- The characters of a text that are not blank. -/
def visible (s : List Char) : List Char :=
  s.filter fun c => !isBlank c

@[simp] theorem visible_nil : visible [] = [] := rfl

@[simp] theorem visible_append (s t : List Char) : visible (s ++ t) = visible s ++ visible t :=
  List.filter_append s t

theorem visible_eq_nil_iff : visible s = [] ↔ allBlank s = true := by
  simp [visible, allBlank]

theorem visible_feed : visible ['\n'] = [] := rfl

theorem visible_trimEnd (s : List Char) : visible (trimEnd s) = visible s := by
  obtain ⟨blanks, hsplit, hblanks⟩ := exists_dropTail_append isBlank s
  have hnone : visible blanks = [] := visible_eq_nil_iff.mpr hblanks
  calc visible (trimEnd s) = visible (trimEnd s) ++ visible blanks := by rw [hnone, List.append_nil]
    _ = visible (trimEnd s ++ blanks) := (visible_append _ _).symm
    _ = visible s := congrArg visible hsplit.symm

theorem visible_trim (s : List Char) : visible (trim s) = visible s := by
  obtain ⟨blanks, hsplit, hblanks⟩ := exists_append_trimStart s
  have hnone : visible blanks = [] := visible_eq_nil_iff.mpr hblanks
  calc visible (trim s) = visible blanks ++ visible (trimStart s) := by rw [hnone]; exact visible_trimEnd _
    _ = visible (blanks ++ trimStart s) := (visible_append _ _).symm
    _ = visible s := congrArg visible hsplit.symm

theorem visible_unlines (ls : List (List Char)) : visible (unlines ls) = ls.flatMap visible := by
  induction ls with
  | nil => rfl
  | cons l ls ih =>
      cases ls with
      | nil => simp [unlines]
      | cons m ls =>
          rw [unlines_cons (List.cons_ne_nil m ls), visible_append, List.flatMap_cons, ← ih]
          rfl

/-- Indentation holds blanks only, and so does what is trimmed. -/
theorem visible_reindent (style : Style) (line : List Char) : visible (reindent style line) = visible line := by
  have hspaces : visible (line.takeWhile (· == ' ')) = [] := by
    refine visible_eq_nil_iff.mpr (List.all_eq_true.mpr fun c hc => ?_)
    have hspace := List.all_eq_true.mp (@List.all_takeWhile _ (· == ' ') line) c hc
    rw [beq_iff_eq] at hspace
    rw [hspace]
    rfl
  have hline : visible (line.dropWhile (· == ' ')) = visible line := by
    have hsplit := congrArg visible (@List.takeWhile_append_dropWhile _ (· == ' ') line)
    rw [visible_append, hspaces] at hsplit
    exact hsplit
  have hblank : ∀ (n : Nat) (c : Char), isBlank c = true → visible (List.replicate n c) = [] := by
    intro n c hc
    refine visible_eq_nil_iff.mpr (List.all_eq_true.mpr fun d hd => ?_)
    rw [List.eq_of_mem_replicate hd]
    exact hc
  unfold reindent
  dsimp only
  rw [visible_append, visible_trimEnd, hline]
  split
  · rw [visible_append, hblank _ '\t' rfl, hblank _ ' ' rfl]
    rfl
  · rw [hblank _ ' ' rfl]
    rfl

/-! ## Lines that are laid out -/

theorem visible_layLine (style : Style) (written : List (List Char)) (l : Line) :
    visible (joined (layLine style written l)) = visible (joined written) ++ visible l.text := by
  unfold layLine
  split
  · rw [joined_cons]
    simp [visible_feed]
  · split
    · rename_i hblank
      rw [visible_eq_nil_iff.mpr hblank, List.append_nil]
      match written with
      | [] => rfl
      | [[]] => rfl
      | (c :: m) :: written =>
          rw [joined_cons, visible_append]
          simp [visible_feed]
      | [] :: m :: written => rfl
    · rw [joined_cons, visible_append, visible_append, visible_reindent, visible_feed, List.append_nil]

theorem visible_foldl_layLine (style : Style) (ls : List Line) (written : List (List Char)) :
    visible (joined (ls.foldl (layLine style) written)) =
      visible (joined written) ++ ls.flatMap fun l => visible l.text := by
  induction ls generalizing written with
  | nil => simp
  | cons l ls ih => rw [List.foldl_cons, ih, visible_layLine, List.flatMap_cons, List.append_assoc]

theorem visible_dropEmpty (written : List (List Char)) :
    visible (joined (dropEmpty written)) = visible (joined written) := by
  obtain ⟨blanks, hblanks, hsplit⟩ := exists_dropEmpty_append written
  have hnone : visible (joined blanks) = [] := by
    refine visible_eq_nil_iff.mpr (List.all_eq_true.mpr fun c hc => ?_)
    obtain ⟨w, hw, hc⟩ := List.mem_flatMap.mp hc
    have hempty := List.all_eq_true.mp hblanks w (List.mem_reverse.mp hw)
    rw [List.isEmpty_iff.mp hempty, List.nil_append, List.mem_singleton] at hc
    rw [hc]
    rfl
  have happend : joined (blanks ++ dropEmpty written) = joined (dropEmpty written) ++ joined blanks := by
    simp [joined]
  rw [← hsplit] at happend
  rw [happend, visible_append, hnone, List.append_nil]

theorem visible_layLines (style : Style) (ls : List Line) :
    visible (layLines style ls) = ls.flatMap fun l => visible l.text := by
  show visible (joined (dropEmpty (ls.foldl (layLine style) []))) = _
  rw [visible_dropEmpty, visible_foldl_layLine]
  rfl

/-- Every line that is written is one of the lines, or empty. -/
theorem feed_not_mem_foldl_layLine {written : List (List Char)} (hls : ∀ l ∈ ls, '\n' ∉ l.text)
    (hwritten : ∀ w ∈ written, '\n' ∉ w) : ∀ w ∈ ls.foldl (layLine style) written, '\n' ∉ w := by
  induction ls generalizing written with
  | nil => exact hwritten
  | cons l ls ih =>
      refine ih (fun m hm => hls m (List.mem_cons_of_mem _ hm)) ?_
      have hl := hls l List.mem_cons_self
      have hindented : '\n' ∉ reindent style l.text := by
        intro h
        unfold reindent at h
        dsimp only at h
        rw [List.mem_append] at h
        rcases h with h | h
        · split at h
          · rcases List.mem_append.mp h with h | h
            · cases List.eq_of_mem_replicate h
            · cases List.eq_of_mem_replicate h
          · cases List.eq_of_mem_replicate h
        · exact hl (List.dropWhile_subset _ (trimEnd_subset _ h))
      intro w hw
      unfold layLine at hw
      split at hw
      · rcases List.mem_cons.mp hw with rfl | hw
        · exact hl
        · exact hwritten w hw
      · split at hw
        · split at hw
          · cases hw
          · exact hwritten w hw
          · rcases List.mem_cons.mp hw with rfl | hw
            · exact List.not_mem_nil
            · exact hwritten w hw
        · rcases List.mem_cons.mp hw with rfl | hw
          · exact hindented
          · exact hwritten w hw

theorem dropComma_subset {l cut : List Char} (h : dropComma l = some cut) : cut ⊆ l := by
  have htrim := dropTrail?_eq_some_iff.mp h
  intro c hc
  refine trimEnd_subset l ?_
  rw [htrim]
  exact List.mem_append_left _ hc

theorem feed_not_mem_withoutCommas (hls : ∀ l ∈ ls, '\n' ∉ l.text) :
    ∀ l ∈ withoutCommas style ls, '\n' ∉ l.text := by
  unfold withoutCommas
  split
  · induction ls with
    | nil => exact hls
    | cons k ls ih =>
        intro l hl
        rw [dropCommas] at hl
        rcases List.mem_cons.mp hl with rfl | hl
        · have hk := hls k List.mem_cons_self
          split
          · rename_i cut hcut
            split
            · exact fun hfeed => hk (dropComma_subset hcut hfeed)
            · exact hk
          · exact hk
        · exact ih (fun m hm => hls m (List.mem_cons_of_mem _ hm)) l hl
  · exact hls

/-- A text that is empty or ends with exactly one line feed. -/
def EndsOnce (s : List Char) : Prop :=
  s = [] ∨ ∃ front, s = front ++ ['\n'] ∧ front.getLast? ≠ some '\n'

/-- Lines of which no empty one is dropped: none, an empty one alone, or lines with one that is not empty in front. -/
theorem cases_of_kept {written : List (List Char)} (h : ∀ l rest, written = [] :: l :: rest → False) :
    written = [] ∨ written = [[]] ∨ ∃ c l rest, written = (c :: l) :: rest := by
  cases written with
  | nil => exact .inl rfl
  | cons w rest =>
      cases w with
      | cons c l => exact .inr (.inr ⟨c, l, rest, rfl⟩)
      | nil =>
          cases rest with
          | nil => exact .inr (.inl rfl)
          | cons l rest => exact (h l rest rfl).elim

/-- The first of the lines is empty only where it is the only one. -/
theorem endsOnce_joined {written : List (List Char)} (h : ∀ w ∈ written, '\n' ∉ w) :
    EndsOnce (joined (dropEmpty written)) := by
  fun_induction dropEmpty written with
  | case1 l written ih => exact ih fun w hw => h w (List.mem_cons_of_mem _ hw)
  | case2 written hwritten =>
      rcases cases_of_kept hwritten with rfl | rfl | ⟨c, l, written, rfl⟩
      · exact .inl rfl
      · exact .inr ⟨[], rfl, by simp⟩
      · refine .inr ⟨joined written ++ (c :: l), by rw [joined_cons, List.append_assoc], ?_⟩
        intro hlast
        have hmem := List.mem_of_getLast? (l := c :: l) (a := '\n') (by
          rw [List.getLast?_append] at hlast
          simpa using hlast)
        exact h (c :: l) List.mem_cons_self hmem

theorem endsOnce_layLines (style : Style) (hls : ∀ l ∈ ls, '\n' ∉ l.text) : EndsOnce (layLines style ls) :=
  endsOnce_joined (feed_not_mem_foldl_layLine hls (by simp))

theorem endsOnce_layText (style : Style) (literals : Literals) (text : List Char) :
    EndsOnce (layText style literals text) :=
  endsOnce_layLines style (feed_not_mem_withoutCommas
    (feed_not_mem_requoteLines (fun _ hl => not_mem_of_mem_pieces hl) 0))

/-- Without its blanks, a module that keeps its commas says what its requoted text says. -/
theorem visible_layText (hcommas : style.trailingComma ≠ .never)
    (hquoted : ∀ s ∈ literals.strings, Quoted text s) (happart : Apart literals.strings) :
    visible (layText style literals text) = visible (requoted style text literals.strings) := by
  have hkept : withoutCommas style (requoteLines style literals (pieces text) 0 literals.strings) =
      requoteLines style literals (pieces text) 0 literals.strings := by
    rw [withoutCommas, if_neg (by simpa using hcommas)]
  show visible (layLines style (withoutCommas style _)) = _
  rw [hkept, visible_layLines, ← unlines_requoteLines_pieces hquoted happart, visible_unlines, List.flatMap_map]

end Layout
end StoryDocs
