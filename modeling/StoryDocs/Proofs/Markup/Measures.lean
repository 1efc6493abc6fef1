import StoryDocs.Proofs.Markup.Bytes.Scan

/-!
# Extents without bounds

The scanners of embedded code take a bound that is larger than the text.  What they find does not depend on it, so
`templateExtent`, `braceExtent` and `scriptExtent` take none and are given by the rules for one character.
A `CodeScanner` is what the scanner of groups and the scanner of script blocks have in common: both pass over a literal
as a whole and count brackets.  The end of a group depends on the text behind a line feed only if it lies there.
-/

namespace StoryDocs
namespace Markup

open Text Bytes

variable {c before quote : Char} {s t u : List Char} {bound depth n : Nat}

/-! ## Bounds -/

/-- A literal is measured as far as the rests of templates in the text are. -/
theorem literalLength?_congr {f g : List Char → Option Nat} (h : ∀ t : List Char, t.length < s.length → f t = g t) :
    literalLength? f before s = literalLength? g before s := by
  cases s with
  | nil => rfl
  | cons c s =>
      by_cases hslash : c = '/'
      · rw [hslash, literalLength?_slash, literalLength?_slash]
      · rw [literalLength?_of_ne_slash hslash, literalLength?_of_ne_slash hslash, h s (by simp)]

/-- What is found with a bound above the length of the text is found with all such bounds. -/
structure Settled (bound : Nat) : Prop where
  braces : ∀ (most : Nat) {depth : Nat} {before : Char} {s : List Char}, s.length < bound → s.length < most →
    braceLength? bound depth before s = braceLength? most depth before s
  template : ∀ (most : Nat) {s : List Char}, s.length < bound → s.length < most →
    templateLength? bound s = templateLength? most s

theorem Settled.literal (h : Settled bound) {most : Nat} (hbound : s.length < bound + 1) (hmost : s.length < most + 1) :
    literalLength? (templateLength? bound) before s = literalLength? (templateLength? most) before s :=
  literalLength?_congr fun _ ht => h.template most (by omega) (by omega)

theorem settled (bound : Nat) : Settled bound := by
  -- The two scanners call each other, each on a shorter text, so both are compared in one induction.
  induction bound with
  | zero =>
      constructor
      · intro most depth before s hbound _
        exact absurd hbound (Nat.not_lt_zero _)
      · intro most s hbound _
        exact absurd hbound (Nat.not_lt_zero _)
  | succ bound ih =>
      constructor
      · intro most depth before s hbound hmost
        obtain ⟨most, rfl⟩ := Nat.exists_eq_add_one_of_ne_zero (by omega : most ≠ 0)
        cases s with
        | nil => rfl
        | cons c s =>
            rw [braceLength?_cons, braceLength?_cons, ih.literal hbound hmost]
            rw [List.length_cons] at hbound hmost
            cases hliteral : literalLength? (templateLength? most) before (c :: s) with
            | none =>
                have hbraces : ∀ depth, braceLength? bound depth c s = braceLength? most depth c s :=
                  fun depth => ih.braces most (by omega) (by omega)
                simp only [Option.elim_none, hbraces]
            | some n =>
                have hpos := literalLength?_pos hliteral
                have hdrop : ((c :: s).drop n).length ≤ s.length := by
                  rw [List.length_drop, List.length_cons]
                  omega
                rw [Option.elim_some, Option.elim_some, ih.braces most (by omega) (by omega)]
      · intro most s hbound hmost
        obtain ⟨most, rfl⟩ := Nat.exists_eq_add_one_of_ne_zero (by omega : most ≠ 0)
        match s with
        | [] => rfl
        | c :: s =>
            rw [List.length_cons] at hbound hmost
            by_cases hslash : c = '\\'
            · subst hslash
              cases s with
              | nil => rfl
              | cons d s =>
                  rw [List.length_cons] at hbound hmost
                  rw [templateLength?, templateLength?, ih.template most (by omega) (by omega)]
            by_cases hhole : c = '$' ∧ s.head? = some '\x7b'
            · obtain ⟨rfl, hhead⟩ := hhole
              obtain ⟨s, rfl⟩ := List.head?_eq_some_iff.mp hhead
              rw [templateLength?_group, templateLength?_group, ih.braces most (by omega) (by omega)]
              congr 1
              funext n
              have hdrop : (('\x7b' :: s).drop n).length ≤ ('\x7b' :: s).length := by
                rw [List.length_drop]
                omega
              rw [ih.template most (by omega) (by omega)]
            · rw [templateLength?_of_ne hslash hhole, templateLength?_of_ne hslash hhole,
                ih.template most (by omega) (by omega)]

theorem scriptLengthFrom_eq (most : Nat) (hbound : s.length < bound) (hmost : s.length < most) :
    scriptLengthFrom bound depth before s = scriptLengthFrom most depth before s := by
  induction bound generalizing most depth before s with
  | zero => omega
  | succ bound ih =>
      obtain ⟨most, rfl⟩ := Nat.exists_eq_add_one_of_ne_zero (by omega : most ≠ 0)
      cases s with
      | nil => rfl
      | cons c s =>
          rw [scriptLengthFrom, scriptLengthFrom, (settled bound).literal hbound hmost]
          rw [List.length_cons] at hbound hmost
          have hrest : ∀ depth, scriptLengthFrom bound depth c s = scriptLengthFrom most depth c s :=
            fun depth => ih most (by omega) (by omega)
          cases hliteral : literalLength? (templateLength? most) before (c :: s) with
          | none => simp only [hrest]
          | some n =>
              have hpos := literalLength?_pos hliteral
              have hdrop : ((c :: s).drop n).length ≤ s.length := by
                rw [List.length_drop, List.length_cons]
                omega
              dsimp only
              rw [ih most (by omega) (by omega)]

/-! ## Rules for one character -/

/-- The rest of a template. -/
def templateExtent (s : List Char) : Option Nat :=
  templateLength? (s.length + 1) s

/-- A string, template or comment at the start of a text. -/
def literalExtent (before : Char) (s : List Char) : Option Nat :=
  literalLength? templateExtent before s

/-- A group in braces of which `depth` are open. -/
def braceExtent (depth : Nat) (before : Char) (s : List Char) : Option Nat :=
  braceLength? (s.length + 1) depth before s

/-- A script block with `depth` brackets open. -/
def scriptExtent (depth : Nat) (before : Char) (s : List Char) : Nat :=
  scriptLengthFrom (s.length + 1) depth before s

theorem literalLength?_eq_extent (hbound : s.length < bound + 1) :
    literalLength? (templateLength? bound) before s = literalExtent before s :=
  literalLength?_congr fun _ ht => (settled bound).template _ (by omega) (Nat.lt_succ_self _)

theorem literalExtent_pos (h : literalExtent before s = some n) : 0 < n :=
  literalLength?_pos h

@[simp] theorem templateExtent_nil : templateExtent [] = some 0 := rfl

theorem templateExtent_escape (c : Char) (s : List Char) :
    templateExtent ('\\' :: c :: s) = (templateExtent s).map (· + 2) := by
  have hlength : s.length < (c :: s).length + 1 := by
    rw [List.length_cons]
    omega
  rw [templateExtent, List.length_cons, templateLength?, templateExtent,
    (settled _).template _ hlength (Nat.lt_succ_self s.length)]

theorem templateExtent_tick (s : List Char) : templateExtent ('\x60' :: s) = some 1 := by
  rw [templateExtent, List.length_cons, templateLength?_of_ne (by decide) (by simp)]
  rfl

theorem templateExtent_of_ne (hslash : c ≠ '\\') (htick : c ≠ '\x60') (hhole : ¬(c = '$' ∧ s.head? = some '\x7b')) :
    templateExtent (c :: s) = (templateExtent s).map (· + 1) := by
  rw [templateExtent, List.length_cons, templateLength?_of_ne hslash hhole, beq_false_of_ne htick]
  rfl

@[simp] theorem braceExtent_nil (depth : Nat) (before : Char) : braceExtent depth before [] = none := rfl

theorem braceExtent_literal (h : literalExtent before s = some n) :
    braceExtent depth before s = (braceExtent depth (lastOf n s) (s.drop n)).map (· + n) := by
  cases s with
  | nil => cases h
  | cons c s =>
      have hpos := literalExtent_pos h
      have hdrop : ((c :: s).drop n).length ≤ s.length := by
        rw [List.length_drop, List.length_cons]
        omega
      rw [braceExtent, List.length_cons, braceLength?_cons, literalLength?_eq_extent (by simp), h, Option.elim_some,
        (settled _).braces _ (by omega) (Nat.lt_succ_self _)]
      rfl

/-- Outside literals only braces count. -/
theorem braceExtent_none (h : literalExtent before (c :: s) = none) :
    braceExtent depth before (c :: s) =
      if c = '\x7b' then (braceExtent (depth + 1) c s).map (· + 1)
      else if c = '\x7d' then
        if depth ≤ 1 then some 1 else (braceExtent (depth - 1) c s).map (· + 1)
      else (braceExtent depth c s).map (· + 1) := by
  rw [braceExtent, List.length_cons, braceLength?_cons, literalLength?_eq_extent (by simp), h, Option.elim_none]
  simp only [beq_iff_eq]
  rfl

theorem templateExtent_hole (s : List Char) :
    templateExtent ('$' :: '\x7b' :: s) =
      (braceExtent 1 '\x7b' s).bind fun n => (templateExtent (s.drop n)).map (· + (n + 2)) := by
  have hbrace : braceLength? (s.length + 2) 0 ' ' ('\x7b' :: s) = (braceExtent 1 '\x7b' s).map (· + 1) := by
    rw [braceLength?_cons, literalLength?_open_brace, Option.elim_none, beq_self_eq_true, if_pos rfl]
    rfl
  rw [templateExtent, List.length_cons, List.length_cons, templateLength?_group, hbrace]
  cases braceExtent 1 '\x7b' s with
  | none => rfl
  | some n =>
      have hdrop : (s.drop n).length ≤ s.length := by
        rw [List.length_drop]
        omega
      show (templateLength? (s.length + 2) (s.drop n)).map (· + (n + 1 + 1)) = _
      rw [(settled _).template _ (by omega) (Nat.lt_succ_self _)]
      rfl

theorem scriptExtent_literal (h : literalExtent before s = some n) :
    scriptExtent depth before s = scriptExtent depth (lastOf n s) (s.drop n) + n := by
  cases s with
  | nil => cases h
  | cons c s =>
      have hpos := literalExtent_pos h
      have hdrop : ((c :: s).drop n).length ≤ s.length := by
        rw [List.length_drop, List.length_cons]
        omega
      rw [scriptExtent, List.length_cons, scriptLengthFrom, literalLength?_eq_extent (by simp), h]
      dsimp only
      rw [scriptLengthFrom_eq _ (by omega) (Nat.lt_succ_self _)]
      rfl

/-- Outside literals brackets count, and so do line feeds in front of blank lines. -/
theorem scriptExtent_none (h : literalExtent before (c :: s) = none) :
    scriptExtent depth before (c :: s) =
      if c == '\x7b' || c == '[' || c == '(' then scriptExtent (depth + 1) c s + 1
      else if c == '\x7d' || c == ']' || c == ')' then scriptExtent (depth - 1) c s + 1
      else if c == '\n' && depth == 0 && lineIsBlank s then 0
      else scriptExtent depth c s + 1 := by
  rw [scriptExtent, List.length_cons, scriptLengthFrom, literalLength?_eq_extent (by simp), h]
  rfl

/-! ## Scanners of code -/

/-- The brackets that open, all of them or only braces. -/
def openings (wide : Bool) : List Char :=
  if wide then ['\x7b', '[', '('] else ['\x7b']

/-- The brackets that close, all of them or only braces. -/
def closings (wide : Bool) : List Char :=
  if wide then ['\x7d', ']', ')'] else ['\x7d']

/-- How a scanner of code goes on from one character to the next, up to the end that it looks for.  A scanner that
counts all brackets also looks for blank lines. -/
structure CodeScanner where
  wide : Bool
  extent : Nat → Char → List Char → Option Nat
  literal : ∀ {depth n before s}, literalExtent before s = some n →
    extent depth before s = (extent depth (lastOf n s) (s.drop n)).map (· + n)
  opening : ∀ {c} (depth before s), c ∈ openings wide →
    extent depth before (c :: s) = (extent (depth + 1) c s).map (· + 1)
  closing : ∀ {c} (depth before s), c ∈ closings wide →
    extent (depth + 1) before (c :: s) = (extent depth c s).map (· + 1)
  other : ∀ {c before s} (depth), literalExtent before (c :: s) = none → c ∉ openings wide → c ∉ closings wide →
    (wide = true → c = '\n' → lineIsBlank s = false) → extent depth before (c :: s) = (extent depth c s).map (· + 1)

/-- No literal starts at a bracket. -/
theorem literalExtent_code (hc : c ≠ '\x22' ∧ c ≠ '\x27' ∧ c ≠ '\x60' ∧ c ≠ '/') :
    literalExtent before (c :: s) = none := by
  obtain ⟨hdouble, hsingle, htick, hslash⟩ := hc
  rw [literalExtent, literalLength?_of_ne_slash hslash]
  simp [hdouble, hsingle, htick]

/-- The scanner of a group in which a brace is open. -/
def CodeScanner.braces : CodeScanner where
  wide := false
  extent := fun depth => braceExtent (depth + 1)
  literal := braceExtent_literal
  opening := by
    intro c depth before s hc
    obtain rfl : c = '\x7b' := by simpa [openings] using hc
    rw [braceExtent_none (literalExtent_code (by decide)), if_pos rfl]
  closing := by
    intro c depth before s hc
    obtain rfl : c = '\x7d' := by simpa [closings] using hc
    rw [braceExtent_none (literalExtent_code (by decide)), if_neg (by decide), if_pos rfl, if_neg (by omega)]
    rfl
  other := by
    intro c before s depth hliteral hopen hclose _
    rw [braceExtent_none hliteral, if_neg (by simpa [openings] using hopen), if_neg (by simpa [closings] using hclose)]

/-- The scanner of a script block. -/
def CodeScanner.script : CodeScanner where
  wide := true
  extent := fun depth before s => some (scriptExtent depth before s)
  literal := fun h => congrArg some (scriptExtent_literal h)
  opening := by
    intro c depth before s hc
    have hcode : c ≠ '\x22' ∧ c ≠ '\x27' ∧ c ≠ '\x60' ∧ c ≠ '/' := by
      revert c
      decide
    have hopen : (c == '\x7b' || c == '[' || c == '(') = true := by simpa [openings, or_assoc] using hc
    rw [scriptExtent_none (literalExtent_code hcode), if_pos hopen]
    rfl
  closing := by
    intro c depth before s hc
    have hcode : (c ≠ '\x22' ∧ c ≠ '\x27' ∧ c ≠ '\x60' ∧ c ≠ '/') ∧ (c == '\x7b' || c == '[' || c == '(') = false := by
      revert c
      decide
    have hclose : (c == '\x7d' || c == ']' || c == ')') = true := by simpa [closings, or_assoc] using hc
    rw [scriptExtent_none (literalExtent_code hcode.1), if_neg (by simp [hcode.2]), if_pos hclose]
    rfl
  other := by
    intro c before s depth hliteral hopen hclose hline
    have hno : ¬(c == '\n' && depth == 0 && lineIsBlank s) = true := by
      intro hblank
      simp only [Bool.and_eq_true, beq_iff_eq] at hblank
      rw [hline rfl hblank.1.1] at hblank
      exact absurd hblank.2 (by decide)
    rw [scriptExtent_none hliteral, if_neg (by simpa [openings, or_assoc] using hopen),
      if_neg (by simpa [closings, or_assoc] using hclose), if_neg hno]
    rfl

end Markup
end StoryDocs
