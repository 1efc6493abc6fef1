import StoryDocs.Proofs.Script.Core.Syntax

/-!
# Tokens of the syntax

What `Token.read` gives at a number, at a string in either quotes and at the marks inside of operands, and what the
texts of the syntax start with.
-/

namespace StoryDocs
namespace Script

open Text Grammar

variable {tags : Bool} {bound n : Nat} {b : Bool} {c : Char} {g s w rest text : List Char} {category : Category}
  {shapes : List Shape}

/-! ## Numbers -/

theorem IsWhole.all_isDigit (h : IsWhole w) : w.all Char.isDigit = true := by
  cases h with
  | zero => rfl
  | digits hd _ htail => rw [List.all_cons, hd, htail]; rfl

/-- A number does not go on in a text. -/
def EndsNumber (rest : List Char) : Prop :=
  EndsWord rest ∧ rest.head? ≠ some '.'

theorem isIdentifierPart_digit (h : c.isDigit = true) : isIdentifierPart c = true := by
  simp [isIdentifierPart, h]

theorem mem_digits (h : c.isDigit = true) : c ∈ "0123456789".toList := by
  have hcode : c.toNat ∈ "0123456789".toList.map Char.toNat := by
    have hcodes : "0123456789".toList.map Char.toNat = [48, 49, 50, 51, 52, 53, 54, 55, 56, 57] := by decide
    rw [hcodes]
    have hrange : 48 ≤ c.toNat ∧ c.toNat ≤ 57 := by
      simpa [Char.isDigit, UInt32.le_iff_toNat_le] using h
    simp only [List.mem_cons, List.not_mem_nil, or_false]
    omega
  obtain ⟨d, hd, hsame⟩ := List.mem_map.mp hcode
  rw [← Char.toNat_inj.mp hsame]
  exact hd

theorem scanDigits_digits (hw : w.all Char.isDigit = true)
    (hrest : ∀ c ∈ rest.head?, c.isDigit = false ∧ c ≠ '_') (seen : Bool) (n : Nat) :
    scanDigits Char.isDigit seen (w ++ rest) n = some (n + w.length, rest) := by
  induction w generalizing seen n with
  | nil =>
      cases rest with
      | nil => rfl
      | cons c rest =>
          obtain ⟨hdigit, hline⟩ := hrest c rfl
          simp [scanDigits, hdigit, hline]
  | cons d w ih =>
      rw [List.all_cons, Bool.and_eq_true] at hw
      rw [List.cons_append, scanDigits.eq_def]
      simp only [hw.1, if_true, ih hw.2, List.length_cons]
      congr 2
      omega

theorem EndsWord.ne_of_part (h : EndsWord (c :: rest)) {d : Char} (hd : isIdentifierPart d = true) : c ≠ d := by
  rintro rfl
  rw [(h c rfl).1] at hd
  cases hd

theorem EndsWord.not_digit (h : EndsWord rest) : ∀ c ∈ rest.head?, c.isDigit = false ∧ c ≠ '_' := by
  intro c hc
  obtain ⟨hpart, _⟩ := h c hc
  constructor
  · cases hdigit : c.isDigit with
    | false => rfl
    | true =>
        rw [isIdentifierPart_digit hdigit] at hpart
        cases hpart
  · rintro rfl
    exact absurd hpart (by decide)

theorem scanExponent_rest (h : EndsWord rest) (n : Nat) : scanExponent n rest = some (n, rest) := by
  cases rest with
  | nil => rfl
  | cons c rest =>
      have hparts : ∀ d ∈ ['e', 'E'], isIdentifierPart d = true := by decide
      simp [scanExponent, h.ne_of_part (hparts 'e' (by simp)), h.ne_of_part (hparts 'E' (by simp))]

theorem scanFraction_digits (hw : w.all Char.isDigit = true) (hrest : EndsWord rest) (n : Nat) :
    scanFraction n (w ++ rest) = some ⟨.number, n + w.length, rest, false⟩ := by
  simp [scanFraction, scanDigits_digits hw hrest.not_digit, scanExponent_rest hrest]

theorem touchesWord_rest (h : EndsWord rest) : touchesWord rest = false := by
  cases rest with
  | nil => rfl
  | cons c rest =>
      obtain ⟨hpart, hslash⟩ := h c rfl
      rw [isIdentifierPart] at hpart
      simp only [Bool.or_eq_false_iff] at hpart
      simp [touchesWord, hpart, hslash]

theorem EndsNumber.cases (h : EndsNumber rest) :
    rest = [] ∨ ∃ c k, rest = c :: k ∧ c ∉ ['.', 'x', 'X', 'o', 'O', 'b', 'B', '_', 'n'] ∧ c.isDigit = false := by
  obtain ⟨hword, hpoint⟩ := h
  cases rest with
  | nil => exact .inl rfl
  | cons c k =>
      have hparts : ∀ d ∈ ['x', 'X', 'o', 'O', 'b', 'B', '_', 'n'], isIdentifierPart d = true := by decide
      refine .inr ⟨c, k, rfl, ?_, (hword.not_digit c rfl).1⟩
      intro hmem
      rcases List.mem_cons.mp hmem with rfl | hc
      · exact hpoint rfl
      · exact hword.ne_of_part (hparts c hc) rfl

/-- What is read of a number that starts with no zero and no point. -/
def scanPlain (s : List Char) : Option NumberScan :=
  match scanDigits Char.isDigit false s 0 with
  | none => none
  | some (n, '.' :: t) => scanFraction (n + 1) t
  | some (n, 'n' :: t) => some ⟨.bigint, n + 1, t, false⟩
  | some (n, t) => (scanExponent n t).map fun (n, t) => ⟨.number, n, t, false⟩

theorem scanNumber_eq_plain (hw : IsWhole w) (hne : w ≠ ['0']) (rest : List Char) :
    scanNumber (w ++ rest) = scanPlain (w ++ rest) := by
  cases hw with
  | zero => exact absurd rfl hne
  | @digits d tail hd hzero htail =>
      have hpoint : d ≠ '.' := by
        rintro rfl
        cases hd
      rw [scanNumber.eq_def]
      split
      · rename_i heq
        exact absurd (List.cons.inj heq).1 hpoint
      · rename_i heq
        exact absurd (List.cons.inj heq).1 hzero
      · rfl

theorem scanNumber_whole (hw : IsWhole w) (hrest : EndsNumber rest) :
    scanNumber (w ++ rest) = some ⟨.number, w.length, rest, false⟩ := by
  have hexponent := scanExponent_rest hrest.1 w.length
  by_cases hne : w = ['0']
  · subst hne
    rcases hrest.cases with rfl | ⟨c, k, rfl, hc, hdigit⟩
    · rfl
    · simp only [List.mem_cons, List.not_mem_nil, or_false, not_or] at hc
      simp only [List.length_singleton] at hexponent
      simp [scanNumber, hc, hdigit, hexponent]
  · have hdigits := scanDigits_digits hw.all_isDigit hrest.1.not_digit false 0
    rw [Nat.zero_add] at hdigits
    rw [scanNumber_eq_plain hw hne, scanPlain, hdigits]
    rcases hrest.cases with rfl | ⟨c, k, rfl, hc, hdigit⟩
    · simp [hexponent]
    · simp only [List.mem_cons, List.not_mem_nil, or_false, not_or] at hc
      simp [hc, hexponent]

theorem scanNumber_fraction {tail : List Char} (hw : IsWhole w) (htail : tail.all Char.isDigit = true)
    (hrest : EndsWord rest) : scanNumber (w ++ '.' :: (tail ++ rest)) =
      some ⟨.number, w.length + 1 + tail.length, rest, false⟩ := by
  by_cases hne : w = ['0']
  · subst hne
    have hfraction := scanFraction_digits htail hrest 2
    simp [scanNumber, hfraction]
  · have hdigits := @scanDigits_digits w ('.' :: (tail ++ rest)) hw.all_isDigit (by simp) false 0
    rw [Nat.zero_add] at hdigits
    rw [scanNumber_eq_plain hw hne, scanPlain, hdigits]
    exact scanFraction_digits htail hrest _

theorem IsWhole.exists_digit (hw : IsWhole w) : ∃ d tail, w = d :: tail ∧ d.isDigit = true := by
  cases hw with
  | zero => exact ⟨_, _, rfl, by decide⟩
  | digits hd _ _ => exact ⟨_, _, rfl, hd⟩

theorem IsNumber.exists_digit (hw : IsNumber w) : ∃ d tail, w = d :: tail ∧ d.isDigit = true := by
  cases hw with
  | whole hw => exact hw.exists_digit
  | fraction hw _ _ =>
      obtain ⟨d, tail, rfl, hd⟩ := hw.exists_digit
      exact ⟨d, _, rfl, hd⟩

/-- A number is one token. -/
theorem Token.read_number (hg : IsGap g) (hw : IsNumber w) (hrest : EndsNumber rest) :
    Token.read bound (g ++ w ++ rest) n = .over .number (g.any isLineBreak) g w rest n := by
  have hscan : scanNumber (w ++ rest) = some ⟨.number, w.length, rest, false⟩ := by
    cases hw with
    | whole hw => exact scanNumber_whole hw hrest
    | fraction hw hne htail =>
        have hfraction := scanNumber_fraction hw htail hrest.1
        rw [List.append_assoc, List.cons_append, hfraction]
        congr 2
        simp
        omega
  obtain ⟨d, tail, rfl, hd⟩ := hw.exists_digit
  have hclass : ∀ d : Char, d.isDigit = true → isIdentifierStart d = false ∧ isBlank d = false ∧
      d ≠ '\\' ∧ d ≠ '#' ∧ d ≠ '\x22' ∧ d ≠ '\x27' ∧ d ≠ '/' ∧ d.toNat ≠ 0xFEFF := by
    intro d hd
    have hdigits : ∀ e ∈ "0123456789".toList, isIdentifierStart e = false ∧ isBlank e = false ∧ e ≠ '\\' ∧ e ≠ '#' ∧
        e ≠ '\x22' ∧ e ≠ '\x27' ∧ e ≠ '/' ∧ e.toNat ≠ 0xFEFF := by decide
    exact hdigits d (mem_digits hd)
  obtain ⟨hstart, hblank, hescape, hhash, hdouble, hsingle, hslash, hbom⟩ := hclass d hd
  rw [List.append_assoc, List.cons_append, Token.read_code hg.skips hslash hblank hbom]
  rw [List.cons_append] at hscan
  simp [Token.readHere, hstart, hescape, hhash, hdouble, hsingle, hd, hscan, touchesWord_rest hrest.1, Token.over]

theorem Cursor.at_number (hg : IsGap g) (hw : IsNumber w) (hrest : EndsNumber rest) :
    (Cursor.front bound (g ++ w ++ rest) n).At bound .number rest (n + g.length + w.length) :=
  at_of_read (Token.read_number hg hw hrest) (by simp) (by simp)

/-! ## Strings and marks -/

theorem Cursor.at_written {quote : Char} (hquote : IsQuote quote) (hg : IsGap g) (v : List Char)
    (hbound : (written quote v).length ≤ bound) :
    (Cursor.front bound (g ++ written quote v ++ rest) n).At bound (.string (String.ofList v)) rest
      (n + g.length + (written quote v).length) :=
  at_of_read (Token.read_written hquote hg v hbound) (by simp) (by simp)

theorem scanMark_point (hdigit : ∀ c ∈ s.head?, c ≠ '.') : scanMark ('.' :: s) = some (".", s) := by
  cases s with
  | nil => rfl
  | cons c s =>
      have hpoint := hdigit c rfl
      simp [scanMark, longMarks, scanMark.dropMark, shortMarks, Ne.symm hpoint]

/-- A point in front of a name. -/
theorem Cursor.at_point (hg : IsGap g) (hs : ∀ c ∈ s.head?, c ≠ '.' ∧ c.isDigit = false) :
    (Cursor.front bound (g ++ '.' :: s) n).At bound (.mark ".") s (n + g.length + 1) := by
  have hstart : isIdentifierStart '.' = false := by decide
  have hscan := scanMark_point fun c hc => (hs c hc).1
  have hdigit : (s.head?.map Char.isDigit).getD false = false := by
    cases s with
    | nil => rfl
    | cons c s => exact (hs c rfl).2
  have hread : Token.read bound (g ++ '.' :: s) n = .over (.mark ".") (g.any isLineBreak) g ['.'] s n := by
    rw [Token.read_code hg.skips (by decide) (by decide) (by decide)]
    simp [Token.readHere, hstart, hdigit, isMarkupComment, hscan, Token.over]
    rfl
  exact at_of_read hread (by simp) (by simp)

/-- The sign of a function, which stays on its line. -/
theorem Cursor.at_arrow (hg : IsGap g) :
    (Cursor.front bound (g ++ '=' :: '>' :: s) n).At bound (.mark "=>") s (n + g.length + 2) ∧
      (Cursor.front bound (g ++ '=' :: '>' :: s) n).token.afterBreak = g.any isLineBreak := by
  have hread := @Token.read_sign bound n g s ['=', '>'] hg (by decide) rfl
  rw [List.append_assoc] at hread
  exact ⟨at_of_read hread (by simp) (by simp), congrArg Token.afterBreak hread⟩

/-! ## Tags -/

/-- The bracket of a tag. -/
theorem Cursor.at_angle (hg : IsGap g) (hs : s.head? ≠ some '!') :
    (Cursor.front bound (g ++ '<' :: s) n).At bound (.mark "<") s (n + g.length + 1) := by
  have hstart : isIdentifierStart '<' = false := by decide
  have hmarkup : isMarkupComment ('<' :: s) = false := by
    rw [isMarkupComment]
    rintro t ⟨⟩
    exact hs rfl
  have hscan : scanMark ('<' :: s) = some ("<", s) := rfl
  have hread : Token.read bound (g ++ '<' :: s) n = .over (.mark "<") (g.any isLineBreak) g ['<'] s n := by
    rw [Token.read_code hg.skips (by decide) (by decide) (by decide)]
    simp [Token.readHere, hstart, hmarkup, hscan, Token.over]
    rfl
  exact at_of_read hread (by simp) (by simp)

/-- The slash of a tag, which starts no comment. -/
theorem Cursor.at_slash (hg : IsGap g) (hs : ∀ c ∈ s.head?, c ∉ ['/', '*', '=']) :
    (Cursor.front bound (g ++ '/' :: s) n).At bound (.mark "/") s (n + g.length + 1) := by
  have hstart : isIdentifierStart '/' = false := by decide
  have hscan : scanMark ('/' :: s) = some ("/", s) := by
    cases s with
    | nil => rfl
    | cons c s =>
        have hequals : c ≠ '=' := fun heq => hs c rfl (by simp [heq])
        simp [scanMark, longMarks, scanMark.dropMark, shortMarks, Ne.symm hequals]
  have hgap : skipGap (g ++ '/' :: s) n false = ⟨'/' :: s, n + g.length, g.any isLineBreak, true⟩ := by
    rw [hg.skips, Bool.false_or, skipGap_slash (fun heq => hs _ heq (by simp)) fun heq => hs _ heq (by simp)]
  have hread : Token.read bound (g ++ '/' :: s) n = .over (.mark "/") (g.any isLineBreak) g ['/'] s n := by
    rw [Token.read, hgap]
    simp [Token.readHere, hstart, isMarkupComment, hscan, Token.over]
    rfl
  exact at_of_read hread (by simp) (by simp)

theorem IsTagWord.head?_ne (hw : IsTagWord w) (hc : isIdentifierStart c = false) (s : List Char) :
    (w ++ s).head? ≠ some c := by
  obtain ⟨hstart, _⟩ := hw
  rintro ⟨⟩
  rw [hc] at hstart
  cases hstart

theorem IsTagName.head?_ne (hw : IsTagName w) (hc : isIdentifierStart c = false) (s : List Char) :
    (w ++ s).head? ≠ some c := by
  cases hw with
  | word hw => exact hw.head?_ne hc s
  | member hw _ =>
      rw [List.append_assoc]
      exact hw.head?_ne hc _

/-- A tag starts with its bracket, and no comment does. -/
theorem Core.exists_angle (h : Core tags .tag text shapes) :
    ∃ k, text = '<' :: k ∧ ∀ rest, (k ++ rest).head? ≠ some '!' := by
  have hstart : isIdentifierStart '!' = false := by decide
  cases h with
  | lone hw | pair hw =>
      refine ⟨_, rfl, fun rest => ?_⟩
      rw [List.append_assoc]
      exact hw.head?_ne hstart _
  | fragment =>
      refine ⟨_, rfl, fun rest => ?_⟩
      rintro ⟨⟩

/-! ## What stands behind an operand -/

/-- The marks behind an operand: they end what is around it, or start a step. -/
def followMarks : List String :=
  [",", ";", ")", "]", "\x7d", ".", "(", "["]

/-- A text that can stand behind an operand. -/
structure BehindOperand (rest : List Char) : Prop where
  word : EndsWord rest
  token : ∀ bound n, ∃ m ∈ followMarks, (Cursor.front bound rest n).token.lexeme = .mark m

theorem ClosesText.behindOperand (h : ClosesText rest) : BehindOperand rest where
  word := h.endsWord
  token := by
    intro bound n
    obtain ⟨m, hm, hlexeme⟩ := h.closes bound n
    have hmarks : ∀ m ∈ [",", ";", ")", "]", "\x7d"], m ∈ followMarks := by decide
    exact ⟨m, hmarks m hm, hlexeme⟩

theorem IsSpace.endsWord (h : IsSpace g) (s : List Char) : EndsWord (g ++ s) := by
  obtain ⟨hg, hne⟩ := h
  cases g with
  | nil => exact absurd rfl hne
  | cons d g => exact fun e he => endsWord_gapStart e (hg.head_mem e he)

theorem IsGap.head_word (hg : IsGap g) (hw : IsWord w) (s : List Char) :
    ∀ c ∈ (g ++ (w ++ s)).head?, c ≠ '.' ∧ c.isDigit = false := by
  have hstarts : ∀ d ∈ '/' :: blanks, d ≠ '.' ∧ d.isDigit = false := by decide
  cases g with
  | nil =>
      obtain ⟨d, tail, rfl, hstart, _⟩ := hw
      rintro c ⟨⟩
      have hdigits : ∀ e ∈ '.' :: "0123456789".toList, isIdentifierStart e = false := by decide
      constructor
      · rintro rfl
        rw [hdigits _ (by simp)] at hstart
        cases hstart
      · cases hdigit : d.isDigit with
        | false => rfl
        | true =>
            rw [hdigits d (List.mem_cons_of_mem _ (mem_digits hdigit))] at hstart
            cases hstart
  | cons d g => exact fun e he => hstarts e (hg.head_mem e he)

/-- Steps stand behind an operand, and start with one of their marks. -/
theorem Core.step_cases {steps : List Shape} (h : Core tags .steps s steps) : (s = [] ∧ steps = []) ∨
    ∀ rest, EndsWord (s ++ rest) ∧ ∀ bound n, ∃ m ∈ [".", "(", "["],
      (Cursor.front bound (s ++ rest) n).token.lexeme = .mark m := by
  cases h with
  | nothing => exact .inl ⟨rfl, rfl⟩
  | @memberStep g g' w rest' steps hg hg' hw _ =>
      refine .inr fun rest => ?_
      simp only [List.append_assoc, List.cons_append]
      refine ⟨hg.endsWord (by decide) (by decide) _, fun bound n => ⟨".", by simp, ?_⟩⟩
      exact (Cursor.at_point hg (hg'.head_word hw _)).lexeme
  | indexStep hg _ _ _ _ =>
      refine .inr fun rest => ?_
      simp only [List.append_assoc, List.cons_append]
      refine ⟨hg.endsWord (by decide) (by decide) _, fun bound n => ⟨"[", by simp, ?_⟩⟩
      exact (Cursor.at_mark hg (by decide)).lexeme
  | callStep hg _ _ =>
      refine .inr fun rest => ?_
      simp only [List.append_assoc, List.cons_append]
      refine ⟨hg.endsWord (by decide) (by decide) _, fun bound n => ⟨"(", by simp, ?_⟩⟩
      exact (Cursor.at_mark hg (by decide)).lexeme

theorem Core.behindOperand {steps : List Shape} (h : Core tags .steps s steps) (hrest : ClosesText rest) :
    BehindOperand (s ++ rest) := by
  rcases h.step_cases with ⟨rfl, _⟩ | hsteps
  · exact hrest.behindOperand
  · obtain ⟨hword, htoken⟩ := hsteps rest
    refine ⟨hword, fun bound n => ?_⟩
    obtain ⟨m, hm, hlexeme⟩ := htoken bound n
    have hmarks : ∀ m ∈ [".", "(", "["], m ∈ followMarks := by decide
    exact ⟨m, hmarks m hm, hlexeme⟩

/-! ## First characters -/

/-- A text that starts with code. -/
def StartsCode (s : List Char) : Prop :=
  ∃ c k, s = c :: k ∧ isBlank c = false

theorem startsCode_cons (hc : isBlank c = false) (s : List Char) : StartsCode (c :: s) :=
  ⟨c, s, rfl, hc⟩

theorem StartsCode.append (h : StartsCode s) (t : List Char) : StartsCode (s ++ t) := by
  obtain ⟨c, k, rfl, hc⟩ := h
  exact ⟨c, k ++ t, rfl, hc⟩

theorem StartsCode.head?_append (h : StartsCode s) (t : List Char) : (s ++ t).head? = s.head? := by
  obtain ⟨c, k, rfl, _⟩ := h
  rfl

theorem IsWord.startsCode (h : IsWord w) : StartsCode w := by
  obtain ⟨c, tail, rfl, hstart, _⟩ := h
  exact ⟨c, tail, rfl, isBlank_of_start hstart⟩

theorem isBlank_digit (h : c.isDigit = true) : isBlank c = false :=
  isBlank_eq_false_of Char.isDigit (by decide) h

theorem IsQuote.isBlank {quote : Char} (h : IsQuote quote) : isBlank quote = false := by
  rcases h with rfl | rfl
  · decide
  · decide

theorem IsWhole.startsCode (h : IsWhole w) : StartsCode w := by
  cases h with
  | zero => exact startsCode_cons (by decide) []
  | digits hd _ _ => exact startsCode_cons (isBlank_digit hd) _

theorem IsNumber.startsCode (h : IsNumber w) : StartsCode w := by
  cases h with
  | whole hw => exact hw.startsCode
  | fraction hw _ _ => exact hw.startsCode.append _

theorem IsMemberKey.startsCode {shape : Shape} (h : IsMemberKey w shape) : StartsCode w := by
  cases h with
  | word hw => exact hw.startsCode
  | string hquote v => exact ⟨_, _, rfl, hquote.isBlank⟩

/-- Whether the texts of a class stand alone: steps and lists are parts of other texts. -/
def Category.isWhole : Category → Bool
  | primary => true
  | tag => true
  | one _ => true
  | _ => false

/-- A text that stands alone starts with code. -/
theorem Core.startsCode (h : Core tags category text shapes) :
    category.isWhole = true → StartsCode text := by
  induction h with
  | name hw => exact fun _ => hw.startsCode
  | literal hw => exact fun _ => hw.startsCode
  | string hquote v => exact fun _ => ⟨_, _, rfl, hquote.isBlank⟩
  | operand _ _ ih => exact fun _ => (ih rfl).append _
  | number hw => exact fun _ => hw.startsCode
  | functionOf hw => exact fun _ => hw.startsCode.append _
  | tagged _ _ ih => exact fun _ => ih rfl
  | element _ ih => exact fun _ => ih rfl
  | property hkey => exact fun _ => hkey.startsCode.append _
  | shorthand hw => exact fun _ => hw.startsCode
  | parameter hw => exact fun _ => hw.startsCode
  | paren | array | object | function | spread | memberSpread | lone | pair | fragment =>
      exact fun _ => startsCode_cons (by decide) _
  | _ =>
      intro hwhole
      cases hwhole

theorem Core.length_pos (h : Core tags category text shapes) (hwhole : category.isWhole = true) : 0 < text.length := by
  obtain ⟨c, k, rfl, _⟩ := h.startsCode hwhole
  exact Nat.succ_pos _

theorem Core.startsCode_one {entry : Entry} (h : Core tags (.one entry) text shapes) : StartsCode text :=
  h.startsCode rfl

end Script
end StoryDocs
