import StoryDocs.Proofs.Layout.Placement
import StoryDocs.Proofs.Layout.Whitespace

/-!
# Lines that are laid out

Strings that are requoted keep their quotes when they are requoted again, and with tabs or two spaces per level an
indented line is indented as before.  So lines that were laid out are settled: laid out again, each of them is
written as it is.
-/

namespace StoryDocs
namespace Text

variable {s : List Char} {rs : List Replacement} {n stop : Nat}

end Text

namespace Layout

open Text Script

variable {style : Style} {literals : Literals} {text : List Char} {strings : List Span} {ws : List Line} {l : Line}

/-! ## Strings -/

theorem count_requoteContent {old new c : Char} (hc : c ≠ '\\') (content : List Char) :
    (requoteContent old new content).count c = content.count c := by
  have hslash : ∀ s : List Char, List.count c ('\\' :: s) = List.count c s := fun s =>
    List.count_cons_of_ne (Ne.symm hc)
  fun_induction requoteContent old new content with
  | case1 => rfl
  | case2 => rfl
  | case3 d s _ ih => rw [hslash, List.count_cons, List.count_cons, ih]
  | case4 d s _ ih => rw [hslash, hslash, List.count_cons, List.count_cons, ih]
  | case5 d s _ _ _ ih => rw [hslash, List.count_cons, List.count_cons, ih]
  | case6 d s _ _ _ ih => rw [List.count_cons, List.count_cons, ih]

/-- The quote of a string depends on how often each quote occurs in it. -/
theorem chosenQuote_congr {content content' : List Char} (h : ∀ c, c ≠ '\\' → content.count c = content'.count c)
    (preferSingle : Bool) : chosenQuote content preferSingle = chosenQuote content' preferSingle := by
  unfold chosenQuote quotePair
  cases preferSingle with
  | true =>
      dsimp only
      rw [h _ (by decide), h _ (by decide)]
  | false =>
      dsimp only
      rw [h _ (by decide), h _ (by decide)]

/-- A string that is requoted twice stays as it was requoted once. -/
theorem exists_requote_again (content : List Char) (old : Char) (preferSingle : Bool) : ∃ quote inner,
    requote content old preferSingle = quote :: inner ++ [quote] ∧
      requote inner quote preferSingle = quote :: inner ++ [quote] := by
  unfold requote
  dsimp only
  refine ⟨chosenQuote content preferSingle, _, rfl, ?_⟩
  have hcounts : ∀ c, c ≠ '\\' → (if chosenQuote content preferSingle == old then content
      else requoteContent old (chosenQuote content preferSingle) content).count c = content.count c := by
    intro c hc
    split
    · rfl
    · exact count_requoteContent hc content
  rw [chosenQuote_congr hcounts, if_pos (beq_self_eq_true _)]

/-- The text of a range. -/
def slice (text : List Char) (s : Span) : List Char :=
  (text.drop s.start).take (s.stop - s.start)

/-- Styles that indent by tabs, as synthesized text is indented, or not at all. -/
def Steady (style : Style) : Prop :=
  style.useTabs = true ∨ style.tabWidth = sourceIndent ∨ style.tabWidth = 0

theorem dropWhile_replicate_append (n : Nat) {s : List Char} (hs : s.head? ≠ some ' ') :
    (List.replicate n ' ' ++ s).dropWhile (· == ' ') = s := by
  induction n with
  | zero =>
      cases s with
      | nil => rfl
      | cons c s =>
          have hc : (c == ' ') = false := beq_eq_false_iff_ne.mpr fun hc => hs (by rw [hc]; rfl)
          simp [hc]
  | succ n ih =>
      rw [List.replicate_succ, List.cons_append, List.dropWhile_cons, if_pos (beq_self_eq_true _)]
      exact ih

/-- A line with a front of spaces. -/
theorem reindent_replicate (n : Nat) {s : List Char} (hs : s.head? ≠ some ' ') :
    reindent style (List.replicate n ' ' ++ s) =
      (if style.useTabs then List.replicate (n / sourceIndent) '\t' ++ List.replicate (n % sourceIndent) ' '
        else List.replicate (n / sourceIndent * style.tabWidth + n % sourceIndent) ' ') ++ trimEnd s := by
  have hspaces : (List.replicate n ' ' ++ s).length - s.length = n := by
    rw [List.length_append, List.length_replicate]
    omega
  unfold reindent
  dsimp only
  rw [dropWhile_replicate_append n hs, hspaces]

theorem exists_spaces (s : List Char) : ∃ n rest, s = List.replicate n ' ' ++ rest ∧ rest.head? ≠ some ' ' := by
  induction s with
  | nil => exact ⟨0, [], rfl, by simp⟩
  | cons c s ih =>
      by_cases hc : c = ' '
      · obtain ⟨n, rest, hs, hrest⟩ := ih
        exact ⟨n + 1, rest, by rw [hc, hs]; rfl, hrest⟩
      · exact ⟨0, c :: s, rfl, by simpa using hc⟩

theorem head?_trimEnd {s : List Char} {c : Char} (h : (trimEnd s).head? = some c) : s.head? = some c := by
  obtain ⟨blanks, hsplit, _⟩ := exists_dropTail_append isBlank s
  obtain ⟨rest, hrest⟩ := List.head?_eq_some_iff.mp h
  rw [hsplit]
  show (trimEnd s ++ blanks).head? = some c
  rw [hrest]
  rfl

theorem trimEnd_trimEnd (s : List Char) : trimEnd (trimEnd s) = trimEnd s :=
  dropTail_dropTail isBlank s

/-- In a steady style, an indented line is indented as before. -/
theorem reindent_reindent (hsteady : Steady style) {s : List Char} (hs : allBlank s = false) :
    reindent style (reindent style s) = reindent style s := by
  obtain ⟨n, rest, rfl, hrest⟩ := exists_spaces s
  have hblank : allBlank (trimEnd rest) = false := by
    rw [allBlank_trimEnd]
    rw [allBlank, List.all_append] at hs
    have hspaces : (List.replicate n ' ').all isBlank = true := by
      refine List.all_eq_true.mpr fun c hc => ?_
      rw [List.eq_of_mem_replicate hc]
      rfl
    rw [hspaces, Bool.true_and] at hs
    exact hs
  have hhead : (trimEnd rest).head? ≠ some ' ' := fun h => hrest (head?_trimEnd h)
  have hlevels : n / sourceIndent * sourceIndent + n % sourceIndent = n := Nat.div_add_mod' n sourceIndent
  rw [reindent_replicate n hrest]
  by_cases htabs : style.useTabs = true
  · rw [if_pos htabs]
    by_cases hlevel : n / sourceIndent = 0
    · have hsmall : n % sourceIndent = n := by rw [hlevel] at hlevels; omega
      rw [hlevel, hsmall, List.replicate_zero, List.nil_append, reindent_replicate n hhead, if_pos htabs, hlevel,
        hsmall, trimEnd_trimEnd]
      rfl
    · obtain ⟨k, hk⟩ := Nat.exists_eq_succ_of_ne_zero hlevel
      have hnone := @reindent_replicate style 0 (List.replicate (n / sourceIndent) '\t' ++
        List.replicate (n % sourceIndent) ' ' ++ trimEnd rest) (by rw [hk]; simp [List.replicate_succ])
      rw [List.replicate_zero, List.nil_append, if_pos htabs, trimEnd_append hblank, trimEnd_trimEnd] at hnone
      rw [hnone]
      rfl
  · rcases hsteady.resolve_left htabs with hwidth | hwidth
    · rw [if_neg htabs, hwidth, hlevels, reindent_replicate n hhead, if_neg htabs, hwidth, hlevels, trimEnd_trimEnd]
    · have hrest : n % sourceIndent % sourceIndent = n % sourceIndent := Nat.mod_mod n sourceIndent
      rw [if_neg htabs, hwidth, Nat.mul_zero, Nat.zero_add, reindent_replicate _ hhead, if_neg htabs, hwidth,
        Nat.mul_zero, Nat.zero_add, hrest, trimEnd_trimEnd]

/-- In any other style, a line of two levels moves when it is indented again. -/
theorem steady_iff : Steady style ↔
    ∀ s, allBlank s = false → reindent style (reindent style s) = reindent style s := by
  refine ⟨fun hsteady _ hs => reindent_reindent hsteady hs, fun hagain => ?_⟩
  by_cases htabs : style.useTabs = true
  · exact .inl htabs
  have hindent : ∀ k, reindent style (List.replicate (2 * k) ' ' ++ ['a']) =
      List.replicate (k * style.tabWidth) ' ' ++ ['a'] := by
    intro k
    have hlevel : 2 * k / sourceIndent = k := Nat.mul_div_cancel_left k (by decide)
    have hrest : 2 * k % sourceIndent = 0 := Nat.mul_mod_right 2 k
    rw [reindent_replicate (2 * k) (by decide), if_neg htabs, hlevel, hrest]
    rfl
  have hline := hagain (List.replicate (2 * 2) ' ' ++ ['a']) (by decide)
  rw [hindent 2, hindent style.tabWidth] at hline
  have hlength := congrArg List.length hline
  simp only [List.length_append, List.length_replicate, List.length_singleton, Nat.add_right_cancel_iff] at hlength
  rcases Nat.eq_zero_or_pos style.tabWidth with hzero | hpos
  · exact .inr (.inr hzero)
  · exact .inr (.inl (Nat.eq_of_mul_eq_mul_right hpos hlength))

/-- Lines, the last of which comes first, that are written as they are when they are laid out again: an empty line
stands only behind one that is not empty. -/
inductive Settled (style : Style) : List Line → Prop
  | nil : Settled style []
  | verbatim {w : List Char} {ws : List Line} (h : Settled style ws) : Settled style (⟨w, true⟩ :: ws)
  | code {w : List Char} {ws : List Line} (hcode : allBlank w = false) (hw : reindent style w = w)
      (h : Settled style ws) : Settled style (⟨w, false⟩ :: ws)
  | empty {w : Line} {ws : List Line} (hw : w.text ≠ []) (h : Settled style (w :: ws)) :
      Settled style (⟨[], false⟩ :: w :: ws)

theorem Settled.of_cons (h : Settled style (l :: ws)) : Settled style ws := by
  cases h with
  | verbatim h => exact h
  | code _ _ h => exact h
  | empty _ h => exact h

theorem Settled.of_append {us : List Line} (h : Settled style (us ++ ws)) : Settled style ws := by
  induction us with
  | nil => exact h
  | cons u us ih => exact ih h.of_cons

end Layout
end StoryDocs
