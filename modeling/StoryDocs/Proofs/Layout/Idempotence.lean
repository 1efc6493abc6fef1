import Mathlib.Data.List.Chain
import StoryDocs.Proofs.Layout.Again
import StoryDocs.Proofs.Layout.Commas

/-!
# Formatting what was formatted

A module that was formatted stays as it is when it is formatted again in a style that indents by tabs, by two spaces or
not at all.  The parser is any that tells where literals stand; it has to read what was formatted with the literals that
were written.  A style that drops commas drops one from the end of a line each time, so what it leaves must not end in a
comma that is dropped next.
-/

namespace StoryDocs
namespace Layout

open Text Script

variable {style : Style} {literals literals' : Literals} {text t : List Char} {ls rs us : List Line} {l m : Line}
  {read : List Char → Option Literals}

/-! ## Lines that are not blank -/

/-- The lines that are not blank. -/
def spoken (ls : List Line) : List Line :=
  ls.filter fun l => !allBlank l.text

theorem spoken_cons_blank (hl : allBlank l.text = true) (ls : List Line) : spoken (l :: ls) = spoken ls :=
  List.filter_cons_of_neg (by simp [hl])

theorem spoken_cons_code (hl : allBlank l.text = false) (ls : List Line) : spoken (l :: ls) = l :: spoken ls :=
  List.filter_cons_of_pos (by simp [hl])

theorem closesNext_eq_spoken (ls : List Line) : closesNext ls =
    match (spoken ls).head? with
    | some l => !l.verbatim && startsClosing l.text
    | none => false := by
  rw [spoken, List.head?_filter]
  rfl

/-- A comma at the end of the first line does not stand in front of a closing line. -/
def Clear (l m : Line) : Prop :=
  l.verbatim = false → (dropComma l.text).isSome = true → m.verbatim = false → startsClosing m.text = false

theorem dropComma_of_allBlank {u : List Char} (hu : allBlank u = true) : dropComma u = none := by
  refine Option.eq_none_iff_forall_ne_some.mpr fun cut hcut => ?_
  rw [allBlank_of_dropComma hcut] at hu
  cases hu

/-- Of the commas that go, none stands alone on its line or behind another comma. -/
def SingleCommas (ls : List Line) : Prop :=
  (spoken ls).IsChain fun l m => l.verbatim = false → m.verbatim = false → startsClosing m.text = true →
    ∀ cut, dropComma l.text = some cut → allBlank cut = false ∧ dropComma cut = none

/-- A line that loses its comma starts as before. -/
theorem startsClosing_append {u v : List Char} (hu : allBlank u = false) : startsClosing (u ++ v) =
    startsClosing u := by
  induction u with
  | nil => cases hu
  | cons c u ih =>
      rw [List.cons_append, startsClosing_cons, startsClosing_cons]
      cases hc : isBlank c with
      | false => rfl
      | true =>
          rw [allBlank, List.all_cons, hc, Bool.true_and] at hu
          rw [if_pos rfl, if_pos rfl, ih hu]

theorem startsClosing_of_allBlank {u : List Char} (hu : allBlank u = true) : startsClosing u = false := by
  induction u with
  | nil => rfl
  | cons c u ih =>
      obtain ⟨hc, hu⟩ := Bool.and_eq_true_iff.mp hu
      rw [startsClosing_cons, hc, if_pos rfl, ih hu]

theorem startsClosing_trimEnd (u : List Char) : startsClosing (trimEnd u) = startsClosing u := by
  obtain ⟨back, hsplit, _⟩ := exists_dropTail_append isBlank u
  cases hu : allBlank (trimEnd u) with
  | true =>
      rw [startsClosing_of_allBlank hu, startsClosing_of_allBlank]
      rw [← allBlank_trimEnd]
      exact hu
  | false =>
      calc startsClosing (trimEnd u) = startsClosing (trimEnd u ++ back) := (startsClosing_append hu).symm
        _ = startsClosing u := congrArg startsClosing hsplit.symm

theorem startsClosing_dropComma {u cut : List Char} (hcut : dropComma u = some cut) (hcode : allBlank cut = false) :
    startsClosing cut = startsClosing u := by
  rw [← startsClosing_trimEnd u, dropTrail?_eq_some_iff.mp hcut, startsClosing_append hcode]

/-- What tells of a line whether it closes a bracket. -/
def closing (l : Line) : Bool :=
  !l.verbatim && startsClosing l.text

theorem closesNext_eq (ls : List Line) : closesNext ls = ((spoken ls).head?.map closing).getD false := by
  rw [closesNext_eq_spoken]
  cases (spoken ls).head? with
  | none => rfl
  | some l => rfl

/-- Without the commas that go, no comma is left in front of a closing line. -/
theorem SingleCommas.clear (h : SingleCommas ls) : (spoken (dropCommas ls)).IsChain Clear ∧
    (spoken (dropCommas ls)).head?.map closing = (spoken ls).head?.map closing := by
  induction ls with
  | nil => exact ⟨.nil, rfl⟩
  | cons l ls ih =>
      rw [SingleCommas] at h
      cases hblank : allBlank l.text with
      | true =>
          have hnone : dropComma l.text = none := dropComma_of_allBlank hblank
          rw [dropCommas, hnone]
          dsimp only
          rw [spoken_cons_blank hblank] at h ⊢
          rw [spoken_cons_blank hblank]
          exact ih h
      | false =>
          rw [spoken_cons_code hblank] at h
          obtain ⟨hchain, hhead⟩ := ih h.tail
          -- What is left of the line is not blank, and a comma at its end is not in front of a closing line.
          have hleft : ∀ l' : Line, allBlank l'.text = false → closing l' = closing l →
              (l'.verbatim = false → (dropComma l'.text).isSome = true → closesNext ls = false) →
              (spoken (l' :: dropCommas ls)).IsChain Clear ∧
                (spoken (l' :: dropCommas ls)).head?.map closing = (spoken (l :: ls)).head?.map closing := by
            intro l' hcode hsame hclear
            rw [spoken_cons_code hcode, spoken_cons_code hblank, List.isChain_cons]
            refine ⟨⟨fun m hm houtside hcomma hm' => ?_, hchain⟩,
              by rw [List.head?_cons, List.head?_cons]; simp [hsame]⟩
            have hcloses := hclear houtside hcomma
            rw [closesNext_eq, ← hhead, Option.mem_def.mp hm, Option.map_some, Option.getD_some,
              closing, hm'] at hcloses
            simpa using hcloses
          rw [dropCommas]
          cases hcut : dropComma l.text with
          | none => exact hleft l hblank rfl fun _ hcomma => by rw [hcut] at hcomma; cases hcomma
          | some cut =>
              dsimp only
              split
              · rename_i hcond
                obtain ⟨houtside, hcloses⟩ := Bool.and_eq_true_iff.mp hcond
                rw [closesNext_eq] at hcloses
                cases hnext : (spoken ls).head? with
                | none =>
                    rw [hnext] at hcloses
                    cases hcloses
                | some m =>
                    rw [hnext] at hcloses
                    obtain ⟨hm, hstarts⟩ := Bool.and_eq_true_iff.mp hcloses
                    obtain ⟨hcode, hsingle⟩ := (List.isChain_cons.mp h).1 m hnext (by simpa using houtside)
                      (by simpa using hm) hstarts cut hcut
                    refine hleft ⟨cut, l.verbatim⟩ hcode ?_ fun _ hcomma => by rw [hsingle] at hcomma; cases hcomma
                    rw [closing, closing, startsClosing_dropComma hcut hcode]
              · rename_i hcond
                refine hleft l hblank rfl fun houtside _ => ?_
                simpa [houtside] using hcond

/-! ## Commas of written lines -/

/-- The reader of modules, which tells where literals stand. -/
def literalsOf (path text : List Char) : Option Literals :=
  (Module.parse? (featuresOf path) text).map (Literals.ofModule text)

/-- An array that ends in a hole, as it is written when its commas are dropped. -/
def hollowText : List Char :=
  "[\n  a,\n\n];\n".toList

/-- Where a comma that stood alone was dropped, the comma before it ends the last line of its bracket: each time, one
more comma is dropped. -/
theorem format_drops_next_comma :
    format { trailingComma := .never } "[\n  a,\n  ,\n];\n".toList "a.js".toList = .ok hollowText ∧
      format { trailingComma := .never } hollowText "a.js".toList = .ok "[\n  a\n\n];\n".toList := by
  obtain ⟨items, hitems, hliterals⟩ := @exists_ofModule_eq "[\n  a,\n  ,\n];\n".toList (featuresOf "a.js".toList) [] []
    (by decide +kernel) (List.forall_mem_nil _) List.Pairwise.nil
  obtain ⟨items', hitems', hliterals'⟩ := @exists_ofModule_eq hollowText (featuresOf "a.js".toList) [] []
    (by decide +kernel) (List.forall_mem_nil _) List.Pairwise.nil
  exact ⟨format_of_literals hitems hliterals (by decide),
    format_of_literals hitems' hliterals' (by decide)⟩

/-- So it is with a comma that stands behind another one. -/
theorem format_drops_comma_before :
    format { trailingComma := .never } "[\n  a,,\n];\n".toList "a.js".toList = .ok "[\n  a,\n];\n".toList ∧
      format { trailingComma := .never } "[\n  a,\n];\n".toList "a.js".toList = .ok "[\n  a\n];\n".toList := by
  obtain ⟨items, hitems, hliterals⟩ := @exists_ofModule_eq "[\n  a,,\n];\n".toList (featuresOf "a.js".toList) [] []
    (by decide +kernel) (List.forall_mem_nil _) List.Pairwise.nil
  obtain ⟨items', hitems', hliterals'⟩ := @exists_ofModule_eq "[\n  a,\n];\n".toList (featuresOf "a.js".toList) [] []
    (by decide +kernel) (List.forall_mem_nil _) List.Pairwise.nil
  exact ⟨format_of_literals hitems hliterals (by decide),
    format_of_literals hitems' hliterals' (by decide)⟩

end Layout
end StoryDocs
