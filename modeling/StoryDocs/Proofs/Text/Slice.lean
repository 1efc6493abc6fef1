import Mathlib.Data.List.Infix
import StoryDocs.Text.Slice

/-!
# Texts that start or end with a given text, or hold one
-/

namespace StoryDocs
namespace Text

theorem dropLead?_eq_some_iff {lead s rest : List Char} :
    dropLead? lead s = some rest ↔ s = lead ++ rest := by
  fun_induction dropLead? lead s with
  | case1 s => simp [eq_comm]
  | case2 => simp
  | case3 a lead c s hc ih => simp [ih, beq_iff_eq.mp hc]
  | case4 a lead c s hc =>
      have hne : c ≠ a := fun hsame => hc (beq_iff_eq.mpr hsame.symm)
      simp [hne]

theorem dropTrail?_eq_some_iff {tail s front : List Char} :
    dropTrail? tail s = some front ↔ s = front ++ tail := by
  rw [dropTrail?, Option.map_eq_some_iff]
  constructor
  · rintro ⟨rest, hrest, rfl⟩
    have hs := congrArg List.reverse (dropLead?_eq_some_iff.mp hrest)
    simpa using hs
  · rintro rfl
    exact ⟨front.reverse, dropLead?_eq_some_iff.mpr (by simp), by simp⟩

/-! ## Marks in a text -/

variable {mark s t u : List Char} {n : Nat}

/-- A mark that fits into `u` stands there or not, whatever comes behind. -/
theorem startsWith_append (h : mark.length ≤ u.length) :
    startsWith mark (u ++ s) = startsWith mark u := by
  induction mark generalizing u with
  | nil => simp [startsWith, dropLead?]
  | cons a mark ih =>
      cases u with
      | nil => simp at h
      | cons c u =>
          have hrest := @ih u (by simpa using h)
          simp only [startsWith] at hrest
          by_cases hac : a = c
          · simp [startsWith, dropLead?, hac, hrest]
          · simp [startsWith, dropLead?, hac]

theorem startsWith_iff : startsWith mark s = true ↔ mark <+: s := by
  rw [startsWith, Option.isSome_iff_exists]
  constructor
  · rintro ⟨rest, hrest⟩
    exact ⟨rest, (dropLead?_eq_some_iff.mp hrest).symm⟩
  · rintro ⟨rest, hrest⟩
    exact ⟨rest, dropLead?_eq_some_iff.mpr hrest.symm⟩

theorem contains_iff : contains mark s = true ↔ mark <:+: s := by
  induction s with
  | nil => rw [contains, List.isEmpty_iff, List.infix_nil]
  | cons c s ih => rw [contains, Bool.or_eq_true, startsWith_iff, ih, List.infix_cons_iff]

/-- A mark does not reach over a character that it does not hold. -/
theorem infix_append_cons_iff {c : Char} (hc : c ∉ mark) : mark <:+: u ++ c :: t ↔ mark <:+: u ∨ mark <:+: t := by
  constructor
  · rintro ⟨front, behind, hsplit⟩
    rcases List.append_eq_append_iff.mp hsplit with ⟨left, hu, _⟩ | ⟨left, hfront, hbehind⟩
    · exact .inl ⟨front, left, hu.symm⟩
    rcases List.append_eq_append_iff.mp hfront with ⟨inner, hu, hmark⟩ | ⟨inner, _, hinner⟩
    · -- The mark starts in front of the character, so it ends there as well.
      cases left with
      | nil =>
          rw [List.append_nil] at hmark
          exact .inl ⟨front, [], by rw [hu, hmark, List.append_nil]⟩
      | cons d left =>
          obtain ⟨rfl, _⟩ := List.cons.inj hbehind
          exact absurd (by rw [hmark]; simp) hc
    · rw [hinner] at hbehind
      cases inner with
      | nil =>
          cases mark with
          | nil => exact .inl List.nil_infix
          | cons d mark =>
              obtain ⟨rfl, _⟩ := List.cons.inj hbehind
              exact absurd List.mem_cons_self hc
      | cons d inner => exact .inr ⟨inner, behind, (List.cons.inj hbehind).2.symm⟩
  · rintro (h | h)
    · exact h.trans (List.prefix_append u (c :: t)).isInfix
    · exact h.trans ((List.suffix_cons c t).trans (List.suffix_append u (c :: t))).isInfix

/-- A mark stands where it is found. -/
theorem exists_of_find?_eq_some (h : find? mark s = some n) :
    ∃ before behind, s = before ++ mark ++ behind ∧ before.length = n := by
  induction s generalizing n with
  | nil =>
      simp only [find?] at h
      split at h
      · rename_i hempty
        cases h
        exact ⟨[], [], by simp [List.isEmpty_iff.mp hempty], rfl⟩
      · cases h
  | cons c s ih =>
      rw [find?] at h
      split at h
      · rename_i hstarts
        cases h
        obtain ⟨rest, hrest⟩ := Option.isSome_iff_exists.mp hstarts
        exact ⟨[], rest, dropLead?_eq_some_iff.mp hrest, rfl⟩
      · obtain ⟨m, hm, rfl⟩ := Option.map_eq_some_iff.mp h
        obtain ⟨before, behind, rfl, rfl⟩ := ih hm
        exact ⟨c :: before, behind, rfl, rfl⟩

/-- The first mark of a text is the first one whatever comes behind it. -/
theorem find?_inside (h : find? mark (u ++ s) = some n) (hn : n + mark.length ≤ u.length)
    (hmark : mark ≠ []) : find? mark (u ++ t) = some n := by
  have hpos := List.length_pos_iff.mpr hmark
  induction u generalizing n with
  | nil =>
      rw [List.length_nil] at hn
      omega
  | cons c u ih =>
      have hfits : mark.length ≤ (c :: u).length := by omega
      rw [List.cons_append, find?, ← List.cons_append, startsWith_append hfits] at h ⊢
      split at h
      · rename_i hstarts
        rw [if_pos hstarts]
        exact h
      · rename_i hstarts
        obtain ⟨m, hm, rfl⟩ := Option.map_eq_some_iff.mp h
        rw [if_neg hstarts, ih hm (by rw [List.length_cons] at hn; omega)]
        rfl

/-- A mark is found where it ends for the first time. -/
theorem find?_first (hmark : mark ≠ []) (hfirst : ¬ mark <:+: u ++ mark.dropLast) :
    find? mark (u ++ mark ++ s) = some u.length := by
  have hpos := List.length_pos_iff.mpr hmark
  induction u with
  | nil =>
      have hstarts : startsWith mark (mark ++ s) = true := startsWith_iff.mpr (List.prefix_append mark s)
      obtain ⟨c, t, hcons⟩ := List.exists_cons_of_ne_nil hmark
      rw [hcons] at hstarts ⊢
      simp only [List.nil_append, List.cons_append] at hstarts ⊢
      rw [find?, if_pos hstarts]
      rfl
  | cons c u ih =>
      have hrest : ¬ mark <:+: u ++ mark.dropLast := fun h =>
        hfirst (h.trans (List.suffix_cons c (u ++ mark.dropLast)).isInfix)
      have hstarts : ¬ startsWith mark (c :: u ++ mark ++ s) = true := by
        intro h
        have hwhole : c :: u ++ mark ++ s = c :: u ++ mark.dropLast ++ (mark.drop (mark.length - 1) ++ s) := by
          have hsplit := List.take_append_drop (mark.length - 1) mark
          rw [← List.dropLast_eq_take] at hsplit
          rw [List.append_assoc, List.append_assoc, ← List.append_assoc mark.dropLast, hsplit]
        rw [hwhole, startsWith_append (by
          rw [List.length_append, List.length_cons, List.length_dropLast]
          omega)] at h
        exact hfirst (startsWith_iff.mp h).isInfix
      simp only [List.cons_append] at hstarts ⊢
      rw [find?, if_neg hstarts, ih hrest]
      rfl

end Text
end StoryDocs
