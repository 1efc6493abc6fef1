import StoryDocs.Proofs.Layout.Again
import StoryDocs.Proofs.Script.Shape

/-!
# Commas in front of closing lines

A style that wants no trailing commas drops commas by what stands around them in the text.  A comma goes exactly
if the next visible character is a closing bracket on a line further down, and neither of the two lines starts
inside a literal.  Nothing else tells the layout of such a style from the layout of one that keeps commas, and nothing asks
what a comma means.
-/

namespace StoryDocs
namespace Layout

open Text Script

variable {style : Style} {ls : List Line} {l : Line} {s : List (Char × Bool)} {text u : List Char}

/-! ## Which commas go -/

/-- Whether a character closes a bracket. -/
def isClosing (c : Char) : Bool :=
  c == '\x7d' || c == ']' || c == ')'

/-- The characters of lines and the line feeds behind them, each with whether its line starts inside a literal. -/
def characters (ls : List Line) : List (Char × Bool) :=
  ls.flatMap fun l => (l.text ++ ['\n']).map fun c => (c, l.verbatim)

/-- Whether the next visible character closes a bracket, and its line starts outside literals. -/
def closesAt (s : List (Char × Bool)) : Bool :=
  match s.dropWhile fun c => isBlank c.1 with
  | (b, inside) :: _ => !inside && isClosing b
  | [] => false

/-- Whether it also stands on a line further down. -/
def closesBelow (s : List (Char × Bool)) : Bool :=
  ((s.takeWhile fun c => isBlank c.1).any fun c => c.1 == '\n') && closesAt s

/-- Characters without the commas in front of closing lines. -/
def withoutClosing : List (Char × Bool) → List Char
  | [] => []
  | (c, inside) :: s =>
    if c == ',' && !inside && closesBelow s then withoutClosing s else c :: withoutClosing s

theorem closesAt_cons (c : Char) (inside : Bool) (s : List (Char × Bool)) :
    closesAt ((c, inside) :: s) = if isBlank c then closesAt s else !inside && isClosing c := by
  rw [closesAt, List.dropWhile_cons]
  cases hc : isBlank c with
  | true => rfl
  | false => rfl

theorem closesBelow_cons (c : Char) (inside : Bool) (s : List (Char × Bool)) :
    closesBelow ((c, inside) :: s) = (isBlank c && (c == '\n' && closesAt s || closesBelow s)) := by
  rw [closesBelow, closesAt_cons, List.takeWhile_cons, closesBelow]
  cases hc : isBlank c with
  | true =>
      simp only [if_true, List.any_cons, Bool.true_and]
      cases c == '\n' <;> cases closesAt s <;> simp
  | false => simp

theorem startsClosing_cons (c : Char) (u : List Char) :
    startsClosing (c :: u) = if isBlank c then startsClosing u else isClosing c := by
  rw [startsClosing, trimStart, List.dropWhile_cons]
  cases hc : isBlank c with
  | true => rfl
  | false => rfl

/-- A line that is not blank decides whether a bracket is closed there. -/
theorem closesAt_line (u : List Char) (inside : Bool) (s : List (Char × Bool)) :
    closesAt (u.map (fun c => (c, inside)) ++ s) =
      if allBlank u then closesAt s else !inside && startsClosing u := by
  induction u with
  | nil => rfl
  | cons c u ih =>
      rw [List.map_cons, List.cons_append, closesAt_cons, startsClosing_cons, allBlank, List.all_cons, ih]
      cases isBlank c <;> rfl

theorem characters_cons (l : Line) (ls : List Line) :
    characters (l :: ls) = l.text.map (fun c => (c, l.verbatim)) ++ ('\n', l.verbatim) :: characters ls := by
  simp [characters]

theorem closesAt_characters (ls : List Line) : closesAt (characters ls) = closesNext ls := by
  induction ls with
  | nil => rfl
  | cons l ls ih =>
      have hfeed : closesAt (('\n', l.verbatim) :: characters ls) = closesNext ls := (closesAt_cons _ _ _).trans ih
      rw [characters_cons, closesAt_line, hfeed, closesNext, closesNext]
      cases hblank : allBlank l.text with
      | true => rw [List.find?_cons_of_neg (by simp [hblank]), if_pos rfl]
      | false =>
          rw [List.find?_cons_of_pos (by simp [hblank])]
          rfl

/-- From a place on a line, a bracket is closed further down if the rest of the line is blank. -/
theorem closesBelow_line (hfeed : '\n' ∉ u) (inside : Bool) (s : List (Char × Bool)) :
    closesBelow (u.map (fun c => (c, inside)) ++ ('\n', inside) :: s) = (allBlank u && closesAt s) := by
  induction u with
  | nil =>
      have hfeed : closesBelow (('\n', inside) :: s) = (closesAt s || closesBelow s) := closesBelow_cons _ _ _
      rw [List.map_nil, List.nil_append, hfeed, closesBelow]
      cases closesAt s <;> simp [allBlank]
  | cons c u ih =>
      obtain ⟨hc, hu⟩ : '\n' ≠ c ∧ '\n' ∉ u := by simpa using hfeed
      have hne : (c == '\n') = false := beq_eq_false_iff_ne.mpr (Ne.symm hc)
      rw [List.map_cons, List.cons_append, closesBelow_cons, hne, Bool.false_and, Bool.false_or, ih hu,
        ← Bool.and_assoc]
      rfl

/-! ## The commas of a line -/

/-- A text without the comma at its end. -/
def withoutLast (v : List Char) : List Char :=
  if v.getLast? = some ',' then v.dropLast else v

theorem withoutLast_append (u : List Char) {v : List Char} (hv : v ≠ []) :
    withoutLast (u ++ v) = u ++ withoutLast v := by
  have hlast : (u ++ v).getLast? = v.getLast? := by
    rw [List.getLast?_append, List.getLast?_eq_some_getLast hv, Option.some_or]
  rw [withoutLast, withoutLast, hlast, List.dropLast_append_of_ne_nil hv]
  split <;> rfl

theorem getLast?_visible_trimEnd (u : List Char) : (visible (trimEnd u)).getLast? = (trimEnd u).getLast? := by
  cases hlast : (trimEnd u).getLast? with
  | none =>
      rw [List.getLast?_eq_none_iff.mp hlast]
      rfl
  | some d =>
      obtain ⟨front, hfront⟩ := List.getLast?_eq_some_iff.mp hlast
      have hd : visible [d] = [d] := by simp [visible, getLast?_trimEnd hlast]
      rw [hfront, visible_append, hd, List.getLast?_concat]

/-- The comma at the end of a line is its last visible character. -/
theorem visible_dropComma (u : List Char) : visible ((dropComma u).getD u) = withoutLast (visible u) := by
  rw [withoutLast, ← visible_trimEnd u, getLast?_visible_trimEnd]
  cases hcut : dropComma u with
  | some cut =>
      have htrim := dropTrail?_eq_some_iff.mp hcut
      rw [htrim, if_pos List.getLast?_concat, visible_append]
      exact List.dropLast_concat.symm
  | none =>
      have hlast : (trimEnd u).getLast? ≠ some ',' := by
        intro hlast
        obtain ⟨front, hfront⟩ := List.getLast?_eq_some_iff.mp hlast
        have hcut' : dropComma u = some front := dropTrail?_eq_some_iff.mpr hfront
        rw [hcut] at hcut'
        cases hcut'
      rw [if_neg hlast]
      exact (visible_trimEnd u).symm

/-- The characters behind a place on a line, without the commas in front of closing lines. -/
theorem visible_withoutClosing_line (hfeed : '\n' ∉ u) (inside : Bool) (s : List (Char × Bool)) :
    visible (withoutClosing (u.map (fun c => (c, inside)) ++ ('\n', inside) :: s)) =
      (if !inside && closesAt s then withoutLast (visible u) else visible u) ++ visible (withoutClosing s) := by
  induction u with
  | nil =>
      have hnone : withoutLast (visible []) = visible [] := rfl
      rw [hnone, ite_self]
      rfl
  | cons c u ih =>
      obtain ⟨-, hu⟩ : '\n' ≠ c ∧ '\n' ∉ u := by simpa using hfeed
      replace ih := ih hu
      have hkept : ∀ w, visible (c :: w) = visible [c] ++ visible w := visible_append [c]
      have hcond : (c == ',' && !inside && (allBlank u && closesAt s)) =
          ((!inside && closesAt s) && (c == ',' && allBlank u)) := by
        cases c == ',' <;> cases inside <;> cases allBlank u <;> simp
      rw [List.map_cons, List.cons_append, withoutClosing, closesBelow_line hu, hcond, hkept u]
      cases hclose : !inside && closesAt s with
      | false =>
          rw [hclose] at ih
          simp only [Bool.false_and, Bool.false_eq_true, if_false] at ih ⊢
          rw [hkept, ih, List.append_assoc]
      | true =>
          rw [hclose] at ih
          simp only [Bool.true_and, if_true, Bool.and_eq_true, beq_iff_eq] at ih ⊢
          by_cases hblank : allBlank u = true
          · -- Nothing visible stands behind the character.
            have hnone : visible u = [] := visible_eq_nil_iff.mpr hblank
            rw [hnone] at ih ⊢
            by_cases hc : c = ','
            · subst hc
              rw [if_pos ⟨rfl, hblank⟩, ih]
              rfl
            · have hlast : (visible [c]).getLast? ≠ some ',' := by
                intro hlast
                have hmem := List.mem_of_mem_filter (List.mem_of_getLast? hlast)
                exact hc (List.mem_singleton.mp hmem).symm
              rw [if_neg fun h => hc h.1, hkept, ih, List.append_nil, withoutLast, withoutLast, if_neg hlast]
              rfl
          · have hne : visible u ≠ [] := fun h => hblank (visible_eq_nil_iff.mp h)
            rw [if_neg fun h => hblank h.2, hkept, ih, withoutLast_append _ hne, List.append_assoc]

/-- Lines without their commas say what the text says without the commas in front of closing lines. -/
theorem visible_dropCommas (hls : ∀ l ∈ ls, '\n' ∉ l.text) :
    ((dropCommas ls).flatMap fun l => visible l.text) = visible (withoutClosing (characters ls)) := by
  induction ls with
  | nil => rfl
  | cons l ls ih =>
      obtain ⟨hl, hrest⟩ := List.forall_mem_cons.mp hls
      rw [characters_cons, visible_withoutClosing_line hl, closesAt_characters, dropCommas, List.flatMap_cons,
        ih hrest, ← visible_dropComma]
      congr 1
      cases hcut : dropComma l.text with
      | none => simp
      | some cut =>
          dsimp only
          split
          · simp
          · simp

/-! ## Line by line -/

/-- A written line is the same, or has lost a comma at its end with the blanks in front of it. -/
def LosesComma (kept laid : List Char) : Prop :=
  laid = kept ∨ laid ≠ [] ∧ ∃ blanks, allBlank blanks = true ∧ kept = laid ++ blanks ++ [',']

/-- A line is the same, or is outside literals and has lost its comma, which did not stand alone. -/
inductive Line.Loses : Line → Line → Prop
  | same (l : Line) : Line.Loses l l
  | comma {l : Line} {cut : List Char} (hcut : dropComma l.text = some cut) (houtside : l.verbatim = false)
      (hcode : allBlank cut = false) : Line.Loses l ⟨cut, l.verbatim⟩

/-- No comma stands alone on its line, but for literals. -/
def NoneAlone (ls : List Line) : Prop :=
  ∀ l ∈ ls, l.verbatim = false → trimStart (trimEnd l.text) ≠ [',']

theorem LosesComma.nil_iff {kept laid : List Char} (h : LosesComma kept laid) : kept = [] ↔ laid = [] := by
  rcases h with rfl | ⟨hne, blanks, _, rfl⟩
  · exact Iff.rfl
  · simp [hne]

theorem forall₂_dropCommas (h : NoneAlone ls) : List.Forall₂ Line.Loses ls (dropCommas ls) := by
  induction ls with
  | nil => exact .nil
  | cons l ls ih =>
      obtain ⟨hl, hrest⟩ := List.forall_mem_cons.mp h
      rw [dropCommas]
      refine .cons ?_ (ih hrest)
      cases hcut : dropComma l.text with
      | none => exact .same l
      | some cut =>
          dsimp only
          split
          · rename_i hcond
            have houtside : l.verbatim = false := by
              rw [Bool.and_eq_true] at hcond
              simpa using hcond.1
            refine .comma hcut houtside ?_
            cases hblank : allBlank cut with
            | false => rfl
            | true =>
                have halone : trimStart (trimEnd l.text) = [','] := by
                  rw [dropTrail?_eq_some_iff.mp hcut, trimStart,
                    List.dropWhile_append_of_pos (List.all_eq_true.mp hblank)]
                  rfl
                exact absurd halone (hl houtside)
          · exact .same l

theorem allBlank_of_dropComma {text cut : List Char} (h : dropComma text = some cut) : allBlank text = false := by
  rw [← allBlank_trimEnd, dropTrail?_eq_some_iff.mp h, allBlank_append]
  simp [allBlank, isBlank]

/-- Indentation depends on the front of a line only. -/
theorem losesComma_reindent {text cut : List Char} (hcut : dropComma text = some cut) (hcode : allBlank cut = false) :
    LosesComma (reindent style text) (reindent style cut) := by
  obtain ⟨blanks, hsplit, hblanks⟩ := exists_dropTail_append isBlank text
  have htext : text = cut ++ [','] ++ blanks := by
    rw [← dropTrail?_eq_some_iff.mp hcut]
    exact hsplit
  obtain ⟨n, rest, rfl, hrest⟩ := exists_spaces cut
  have hrestCode : allBlank rest = false := by
    have hspaces : allBlank (List.replicate n ' ') = true := by
      refine List.all_eq_true.mpr fun c hc => ?_
      rw [List.eq_of_mem_replicate hc]
      rfl
    rw [allBlank_append, hspaces, Bool.true_and] at hcode
    exact hcode
  have hne : rest ≠ [] := by
    rintro rfl
    cases hrestCode
  have hkept : trimEnd rest ≠ [] := by
    intro hnil
    rw [← allBlank_trimEnd, hnil] at hrestCode
    cases hrestCode
  have hhead : (rest ++ [','] ++ blanks).head? ≠ some ' ' := by
    rw [List.append_assoc, List.head?_append_of_ne_nil _ hne]
    exact hrest
  have hend : trimEnd (rest ++ [','] ++ blanks) = rest ++ [','] := by
    have hnone : trimEnd blanks = [] := dropTail_eq_nil_iff.mpr hblanks
    rw [trimEnd_append_of_getLast? List.getLast?_concat (by decide), hnone, List.append_nil]
  obtain ⟨gap, hgap, hgapBlank⟩ := exists_dropTail_append isBlank rest
  rw [htext, List.append_assoc, List.append_assoc, ← List.append_assoc rest, reindent_replicate n hhead,
    reindent_replicate n hrest, hend]
  refine .inr ⟨by simp [hkept], gap, hgapBlank, ?_⟩
  calc _ = _ ++ ((trimEnd rest ++ gap) ++ [',']) := congrArg (fun r => _ ++ (r ++ [','])) hgap
    _ = _ := by simp only [List.append_assoc]

theorem losesComma_layLine {ks ws : List (List Char)} {l m : Line} (h : List.Forall₂ LosesComma ks ws)
    (hl : l.Loses m) : List.Forall₂ LosesComma (layLine style ks l) (layLine style ws m) := by
  cases hl with
  | comma hcut houtside hcode =>
      rw [layLine_of_code (allBlank_of_dropComma hcut), layLine_of_code hcode, lay, lay, houtside]
      exact .cons (losesComma_reindent hcut hcode) h
  | same =>
      unfold layLine
      split
      · exact .cons (.inl rfl) h
      · split
        · -- A blank line is written by what the lines before it are, which the two layouts agree on.
          cases h with
          | nil => exact .nil
          | @cons k w ks ws hk hrest =>
              cases k with
              | nil =>
                  obtain rfl := hk.nil_iff.mp rfl
                  cases hrest with
                  | nil => exact .cons (.inl rfl) (.cons hk .nil)
                  | cons hk' hrest => exact .cons hk (.cons hk' hrest)
              | cons c k =>
                  cases w with
                  | nil => cases hk.nil_iff.mpr rfl
                  | cons d w => exact .cons (.inl rfl) (.cons hk hrest)
        · exact .cons (.inl rfl) h

theorem losesComma_dropEmpty {ks ws : List (List Char)} (h : List.Forall₂ LosesComma ks ws) :
    List.Forall₂ LosesComma (dropEmpty ks) (dropEmpty ws) := by
  induction h with
  | nil => exact .nil
  | @cons k w ks ws hk hrest ih =>
      cases k with
      | nil =>
          obtain rfl := hk.nil_iff.mp rfl
          cases hrest with
          | nil => exact .cons hk .nil
          | cons hk' hrest => exact ih
      | cons c k =>
          cases w with
          | nil => cases hk.nil_iff.mpr rfl
          | cons d w => exact .cons hk hrest

theorem losesComma_foldl {ms : List Line} {ks ws : List (List Char)} (hls : List.Forall₂ Line.Loses ls ms)
    (h : List.Forall₂ LosesComma ks ws) :
    List.Forall₂ LosesComma (ls.foldl (layLine style) ks) (ms.foldl (layLine style) ws) := by
  induction hls generalizing ks ws with
  | nil => exact h
  | cons hl _ ih => exact ih (losesComma_layLine h hl)

theorem dropEmpty_subset (written : List (List Char)) : dropEmpty written ⊆ written := by
  obtain ⟨blanks, _, hsplit⟩ := exists_dropEmpty_append written
  intro w hw
  rw [hsplit]
  exact List.mem_append_right _ hw

theorem pieces_layLines (hls : ∀ l ∈ ls, '\n' ∉ l.text) :
    pieces (layLines style ls) = (dropEmpty (ls.foldl (layLine style) [])).reverse ++ [[]] :=
  pieces_joined fun w hw => feed_not_mem_foldl_layLine hls (by simp) w (dropEmpty_subset _ hw)

/-- Where no comma stands alone, the lines of the two layouts are the same but for the commas at their ends. -/
theorem forall₂_pieces_layLines (hls : ∀ l ∈ ls, '\n' ∉ l.text)
    (hdropped : ∀ l ∈ dropCommas ls, '\n' ∉ l.text) (halone : NoneAlone ls) :
    List.Forall₂ LosesComma (pieces (layLines style ls)) (pieces (layLines style (dropCommas ls))) := by
  rw [pieces_layLines hls, pieces_layLines hdropped]
  refine List.rel_append (List.forall₂_reverse_iff.mpr ?_) (.cons (.inl rfl) .nil)
  exact losesComma_dropEmpty (losesComma_foldl (forall₂_dropCommas halone) .nil)

/-! ## Whether anything goes -/

theorem withoutClosing_cases (s : List (Char × Bool)) : withoutClosing s = s.map Prod.fst ∨
    (visible (withoutClosing s)).length < (visible (s.map Prod.fst)).length := by
  induction s with
  | nil => exact .inl rfl
  | cons c s ih =>
      obtain ⟨c, inside⟩ := c
      have hkept : ∀ w, (visible (c :: w)).length = (visible [c]).length + (visible w).length := by
        intro w
        rw [← List.length_append, ← visible_append]
        rfl
      rw [withoutClosing, List.map_cons, hkept]
      split
      · rename_i hcond
        have hc : c = ',' := by
          simp only [Bool.and_eq_true, beq_iff_eq] at hcond
          exact hcond.1.1
        have hone : (visible [c]).length = 1 := by
          subst hc
          rfl
        rcases ih with ih | ih
        · rw [ih]
          exact .inr (by omega)
        · exact .inr (by omega)
      · rw [hkept]
        rcases ih with ih | ih
        · exact .inl (by rw [ih])
        · exact .inr (by omega)

theorem dropCommas_cases (ls : List Line) : dropCommas ls = ls ∨
    ((dropCommas ls).flatMap fun l => visible l.text).length < (ls.flatMap fun l => visible l.text).length := by
  induction ls with
  | nil => exact .inl rfl
  | cons l ls ih =>
      rw [dropCommas, List.flatMap_cons, List.flatMap_cons, List.length_append, List.length_append]
      have hsame : ∀ m : Line, m = l → (m :: dropCommas ls = l :: ls ∨
          (visible m.text).length + ((dropCommas ls).flatMap fun l => visible l.text).length <
            (visible l.text).length + (ls.flatMap fun l => visible l.text).length) := by
        rintro m rfl
        rcases ih with ih | ih
        · exact .inl (by rw [ih])
        · exact .inr (by omega)
      cases hcut : dropComma l.text with
      | none => exact hsame l rfl
      | some cut =>
          dsimp only
          split
          · have hlength : (visible l.text).length = (visible cut).length + 1 := by
              rw [← visible_trimEnd, dropTrail?_eq_some_iff.mp hcut, visible_append, List.length_append]
              rfl
            rcases ih with ih | ih
            · rw [ih]
              exact .inr (by dsimp only; omega)
            · exact .inr (by dsimp only; omega)
          · exact hsame l rfl

theorem visible_characters (ls : List Line) :
    visible ((characters ls).map Prod.fst) = ls.flatMap fun l => visible l.text := by
  induction ls with
  | nil => rfl
  | cons l ls ih =>
      have htext : (l.text.map fun c => (c, l.verbatim)).map Prod.fst = l.text := by
        rw [List.map_map]
        exact List.map_id _
      rw [characters_cons, List.map_append, htext, visible_append, List.flatMap_cons, ← ih]
      rfl

/-- The layout is the same exactly if there is no comma in front of a closing line. -/
theorem layLines_dropCommas_eq_iff (hls : ∀ l ∈ ls, '\n' ∉ l.text) :
    layLines style (dropCommas ls) = layLines style ls ↔
      withoutClosing (characters ls) = (characters ls).map Prod.fst := by
  have hsaid := visible_dropCommas hls
  have hall := visible_characters ls
  constructor
  · intro heq
    have hvisible := congrArg visible heq
    rw [visible_layLines, visible_layLines, hsaid, ← hall] at hvisible
    refine (withoutClosing_cases _).resolve_right fun hlt => ?_
    rw [hvisible] at hlt
    exact absurd hlt (Nat.lt_irrefl _)
  · intro heq
    have hkept : dropCommas ls = ls := by
      refine (dropCommas_cases ls).resolve_right fun hlt => ?_
      rw [hsaid, heq, hall] at hlt
      exact absurd hlt (Nat.lt_irrefl _)
    rw [hkept]

/-! ## Formatting -/

/-- The lines of a module with their strings requoted. -/
def requotedLines (style : Style) (text : List Char) (items : List Tree) : List Line :=
  requoteLines style (Literals.ofModule text items) (pieces text) 0 (Literals.ofModule text items).strings

theorem feed_not_mem_requotedLines (style : Style) (text : List Char) (items : List Tree) :
    ∀ l ∈ requotedLines style text items, '\n' ∉ l.text :=
  feed_not_mem_requoteLines (fun _ hl => not_mem_of_mem_pieces hl) 0

theorem format_lists {path : List Char} {items : List Tree}
    (hitems : Module.parse? (featuresOf path) text = some items) :
    format { style with trailingComma := .lists } text path =
      .ok (layLines style (requotedLines style text items)) := by
  -- What is written of the lines does not depend on the commas that a style wants.
  have hlines : ∀ (ls : List (List Char)) (n : Nat) (strings : List Span) (literals : Literals),
      requoteLines { style with trailingComma := .lists } literals ls n strings =
        requoteLines style literals ls n strings := by
    intro ls
    induction ls with
    | nil => exact fun _ _ _ => rfl
    | cons l ls ih =>
        intro n strings literals
        rw [requoteLines, requoteLines, ih]
        rfl
  refine format_of_literals hitems rfl ?_
  unfold layText
  dsimp only
  rw [hlines]
  rfl

theorem format_never {path : List Char} {items : List Tree} (hnever : style.trailingComma = .never)
    (hitems : Module.parse? (featuresOf path) text = some items) :
    format style text path = .ok (layLines style (dropCommas (requotedLines style text items))) := by
  refine format_of_literals hitems rfl ?_
  unfold layText
  dsimp only
  rw [hnever]
  rfl

/-- A style that wants no trailing commas lays out every accepted module as the style that keeps them does, but
for the commas in front of closing lines.  These all go, and nothing else that can be seen.  Where none of them
stands alone, the two layouts are the same line by line, but for these commas at the ends of lines. -/
theorem format_drops_closing {path : List Char} {items : List Tree} (hnever : style.trailingComma = .never)
    (hitems : Module.parse? (featuresOf path) text = some items) :
    ∃ kept laid, format { style with trailingComma := .lists } text path = .ok kept ∧
      format style text path = .ok laid ∧
      visible kept = visible ((characters (requotedLines style text items)).map Prod.fst) ∧
      visible laid = visible (withoutClosing (characters (requotedLines style text items))) ∧
      (laid = kept ↔ withoutClosing (characters (requotedLines style text items)) =
        (characters (requotedLines style text items)).map Prod.fst) ∧
      (NoneAlone (requotedLines style text items) → List.Forall₂ LosesComma (pieces kept) (pieces laid)) := by
  have hfeed := feed_not_mem_requotedLines style text items
  have hdropped := @feed_not_mem_withoutCommas style _ hfeed
  rw [withoutCommas, hnever] at hdropped
  refine ⟨_, _, format_lists hitems, format_never hnever hitems, ?_, ?_, layLines_dropCommas_eq_iff hfeed,
    forall₂_pieces_layLines hfeed hdropped⟩
  · rw [visible_layLines, visible_characters]
  · rw [visible_layLines, visible_dropCommas hfeed]

/-- A style that wants no trailing commas. -/
def plainStyle : Style :=
  { trailingComma := .never }

/-- A call over several lines, with an object literal in it. -/
def nestedText : List Char :=
  "f(\n  \"a\",\n  \x7b\n    b,\n  \x7d,\n);\n".toList

theorem format_drops_closing_call : ∃ kept laid, format {} nestedText "a.js".toList = .ok kept ∧
    format plainStyle nestedText "a.js".toList = .ok laid ∧ visible kept = "f('a',\x7bb,\x7d,);".toList ∧
    visible laid = "f('a',\x7bb\x7d);".toList ∧ laid ≠ kept ∧
    List.Forall₂ LosesComma (pieces kept) (pieces laid) := by
  obtain ⟨items, hitems, hliterals⟩ := @exists_ofModule_eq nestedText (featuresOf "a.js".toList) [⟨5, 8⟩] []
    (by decide +kernel) (by decide +kernel) (List.pairwise_singleton _ _)
  obtain ⟨kept, laid, hkept, hlaid, hvisible, hvisible', hsame, hlines⟩ :=
    @format_drops_closing plainStyle nestedText "a.js".toList items rfl hitems
  have hrequoted : requotedLines plainStyle nestedText items =
      requoteLines plainStyle ⟨[⟨5, 8⟩], []⟩ (pieces nestedText) 0 [⟨5, 8⟩] := by
    rw [requotedLines, hliterals]
  rw [hrequoted] at hvisible hvisible' hsame hlines
  refine ⟨kept, laid, hkept, hlaid, ?_, ?_, ?_, hlines ?_⟩
  · rw [hvisible]
    decide
  · rw [hvisible']
    decide +kernel
  · rw [ne_eq, hsame]
    decide
  · rw [NoneAlone]
    decide

/-- An array with a hole at its end, whose comma stands alone. -/
def holeText : List Char :=
  "[\n  a,\n  ,\n];\n".toList

/-- The comma of a hole is dropped, and with it the hole. -/
theorem format_drops_hole : ∃ kept laid items items', format {} holeText "a.js".toList = .ok kept ∧
    format plainStyle holeText "a.js".toList = .ok laid ∧
    Module.parse? (featuresOf "a.js".toList) kept = some items ∧
    Module.parse? (featuresOf "a.js".toList) laid = some items' ∧
    items.map Tree.shape ≠ items'.map Tree.shape := by
  obtain ⟨items, hitems, hliterals⟩ := @exists_ofModule_eq holeText (featuresOf "a.js".toList) [] []
    (by decide +kernel) (List.forall_mem_nil _) List.Pairwise.nil
  have hkept : format {} holeText "a.js".toList = .ok holeText :=
    format_of_literals hitems hliterals (by decide +kernel)
  have hlaid : format plainStyle holeText "a.js".toList = .ok "[\n  a,\n\n];\n".toList :=
    format_of_literals hitems hliterals (by decide)
  have hcount : (Module.parse? (featuresOf "a.js".toList) holeText).map
      (fun items => items.map fun t => t.parts.map fun e => e.parts.length) = some [[2]] := by decide +kernel
  have hcount' : (Module.parse? (featuresOf "a.js".toList) "[\n  a,\n\n];\n".toList).map
      (fun items => items.map fun t => t.parts.map fun e => e.parts.length) = some [[1]] := by decide +kernel
  obtain ⟨items', hitems', hone⟩ := Option.map_eq_some_iff.mp hcount'
  rw [hitems, Option.map_some, Option.some.injEq] at hcount
  refine ⟨_, _, items, items', hkept, hlaid, hitems, hitems', fun hshapes => ?_⟩
  have hparts : ∀ ts : List Tree, (ts.map fun t => t.parts.map fun e => e.parts.length) =
      (ts.map Tree.shape).map fun s => s.parts.map fun e => e.parts.length := by
    intro ts
    simp only [List.map_map, Function.comp_def, parts_shape, List.length_map]
  rw [hparts, hshapes, ← hparts, hone] at hcount
  exact absurd hcount (by decide)

end Layout
end StoryDocs
