import StoryDocs.Naming
import StoryDocs.Proofs.Script.Running
import StoryDocs.Proofs.Text.Trimming

/-!
# Reading written tokens

What `Token.read` gives at a word, a mark or a string in single quotes, behind blanks and in front of any
text that does not go on with the token.
-/

namespace StoryDocs
namespace Script

open Text

variable {bound n : Nat} {b : Bool} {c : Char} {g s w rest : List Char}

/-! ## Gaps -/

/-- The blank characters. -/
def blanks : List Char :=
  [' ', '\t', '\n', '\x0b', '\x0c', '\r', '\u0085', '\u00A0', '\u1680', '\u2000', '\u2001', '\u2002',
    '\u2003', '\u2004', '\u2005', '\u2006', '\u2007', '\u2008', '\u2009', '\u200A', '\u2028', '\u2029',
    '\u202F', '\u205F', '\u3000']

theorem mem_blanks_of_isBlank (h : isBlank c = true) : c ∈ blanks := by
  have hcode : c.toNat ∈ blanks.map Char.toNat := by
    have hcodes : blanks.map Char.toNat = [0x20, 0x09, 0x0A, 0x0B, 0x0C, 0x0D, 0x85, 0xA0, 0x1680, 0x2000,
      0x2001, 0x2002, 0x2003, 0x2004, 0x2005, 0x2006, 0x2007, 0x2008, 0x2009, 0x200A, 0x2028, 0x2029,
      0x202F, 0x205F, 0x3000] := by decide
    rw [hcodes]
    simp only [isBlank, Bool.or_eq_true, Bool.and_eq_true, decide_eq_true_eq, beq_iff_eq] at h
    simp only [List.mem_cons, List.not_mem_nil, or_false]
    omega
  obtain ⟨d, hd, hsame⟩ := List.mem_map.mp hcode
  rw [← Char.toNat_inj.mp hsame]
  exact hd

theorem isBlank_eq_false_of (p : Char → Bool) (hp : ∀ d ∈ blanks, p d = false) (h : p c = true) :
    isBlank c = false := by
  cases hblank : isBlank c with
  | false => rfl
  | true =>
      rw [hp c (mem_blanks_of_isBlank hblank)] at h
      cases h

theorem isBlank_of_isLineBreak (h : isLineBreak c = true) : isBlank c = true := by
  simp only [isLineBreak, Bool.or_eq_true, beq_iff_eq] at h
  rcases h with ((rfl | rfl) | h) | h
  · decide
  · decide
  · simp [isBlank, h]
  · simp [isBlank, h]

theorem skipGap_cons (hc : c ≠ '/') : skipGap (c :: s) n b =
    if isLineBreak c then skipGap s (n + 1) true
    else if isBlank c || c.toNat == 0xFEFF then skipGap s (n + 1) b else ⟨c :: s, n, b, true⟩ := by
  rw [skipGap.eq_def]
  split
  · rename_i heq
    exact absurd (List.cons.inj heq).1 hc
  · rename_i heq
    exact absurd (List.cons.inj heq).1 hc
  · rename_i heq
    obtain ⟨rfl, rfl⟩ := List.cons.inj heq
    rfl
  · rename_i heq
    cases heq

/-- A slash that starts no comment is code. -/
theorem skipGap_slash (hslash : s.head? ≠ some '/') (hstar : s.head? ≠ some '*') :
    skipGap ('/' :: s) n b = ⟨'/' :: s, n, b, true⟩ := by
  rw [skipGap.eq_def]
  split
  · rename_i heq
    rw [(List.cons.inj heq).2] at hslash
    exact absurd rfl hslash
  · rename_i heq
    rw [(List.cons.inj heq).2] at hstar
    exact absurd rfl hstar
  · rename_i heq
    obtain ⟨rfl, rfl⟩ := List.cons.inj heq
    rfl
  · rename_i heq
    cases heq

theorem skipGap_blanks (h : allBlank g = true) :
    skipGap (g ++ s) n b = skipGap s (n + g.length) (b || g.any isLineBreak) := by
  induction g generalizing n b with
  | nil => simp
  | cons c g ih =>
      rw [allBlank, List.all_cons, Bool.and_eq_true] at h
      have hslash : c ≠ '/' := by
        rintro rfl
        exact absurd h.1 (by decide)
      have hrest := @ih (n + 1)
      rw [List.cons_append, skipGap_cons hslash, List.any_cons, List.length_cons]
      cases hline : isLineBreak c with
      | true =>
          rw [if_pos rfl, hrest h.2, Bool.true_or, Bool.or_true]
          congr 1
          omega
      | false =>
          rw [if_neg (by simp), if_pos (by simp [h.1]), hrest h.2, Bool.false_or]
          congr 1
          omega

/-- Blanks and comments that are skipped as a whole; `b` tells whether a line break is among them. -/
def Skips (g : List Char) (b : Bool) : Prop :=
  ∀ s n broken, skipGap (g ++ s) n broken = skipGap s (n + g.length) (broken || b)

theorem skips_blank (h : allBlank g = true) : Skips g (g.any isLineBreak) :=
  fun _ _ _ => skipGap_blanks h

theorem Skips.append {h : List Char} {b' : Bool} (hg : Skips g b) (hh : Skips h b') :
    Skips (g ++ h) (b || b') := by
  intro s n broken
  rw [List.append_assoc, hg, hh, List.length_append, Bool.or_assoc, Nat.add_assoc]

/-- Blanks and comments between tokens. -/
inductive IsGap : List Char → Prop
  | nil : IsGap []
  | blank {c : Char} {g : List Char} (hc : isBlank c = true) (hg : IsGap g) : IsGap (c :: g)
  | line {w g : List Char} {e : Char} (hw : w.any isLineBreak = false) (he : isLineBreak e = true) (hg : IsGap g) :
      IsGap ('/' :: '/' :: (w ++ e :: g))
  | block {w g : List Char} (hw : ¬ ['*', '/'] <:+: w) (hg : IsGap g) :
      IsGap ('/' :: '*' :: (w ++ '*' :: '/' :: g))

theorem isGap_blank (h : allBlank g = true) : IsGap g := by
  induction g with
  | nil => exact .nil
  | cons c g ih =>
      rw [allBlank, List.all_cons, Bool.and_eq_true] at h
      exact .blank h.1 (ih h.2)

theorem isGap_space : IsGap [' '] :=
  isGap_blank (by decide)

theorem isGap_feed : IsGap ['\n'] :=
  isGap_blank (by decide)

/-- A gap starts with a blank or with the slash of a comment. -/
theorem IsGap.head_mem (h : IsGap g) : ∀ c ∈ g.head?, c ∈ '/' :: blanks := by
  cases h with
  | nil => exact nofun
  | blank hc _ =>
      rintro c ⟨⟩
      exact List.mem_cons_of_mem _ (mem_blanks_of_isBlank hc)
  | line _ _ _ =>
      rintro c ⟨⟩
      exact List.mem_cons_self
  | block _ _ =>
      rintro c ⟨⟩
      exact List.mem_cons_self

theorem IsGap.append {h : List Char} (hg : IsGap g) (hh : IsGap h) : IsGap (g ++ h) := by
  induction hg with
  | nil => exact hh
  | blank hc _ ih => exact .blank hc ih
  | line hw he _ ih => simpa using IsGap.line hw he ih
  | block hw _ ih => simpa using IsGap.block hw ih

theorem skipLineComment_line {e : Char} (hw : w.any isLineBreak = false) (he : isLineBreak e = true) :
    skipLineComment (w ++ e :: s) n b = skipGap s (n + w.length + 1) true := by
  induction w generalizing n with
  | nil => simp [skipLineComment, he]
  | cons c w ih =>
      rw [List.any_cons, Bool.or_eq_false_iff] at hw
      rw [List.cons_append, skipLineComment, hw.1, if_neg (by simp), ih hw.2, List.length_cons]
      congr 1
      omega

theorem skipBlockComment_block (hw : ¬ ['*', '/'] <:+: w) :
    skipBlockComment (w ++ '*' :: '/' :: s) n b = skipGap s (n + w.length + 2) (b || w.any isLineBreak) := by
  induction w generalizing n b with
  | nil => simp [skipBlockComment]
  | cons c w ih =>
      rw [List.infix_cons_iff, not_or] at hw
      -- The comment does not end at its first character, because the star of the end is no slash.
      have hstep : skipBlockComment (c :: (w ++ '*' :: '/' :: s)) n b =
          skipBlockComment (w ++ '*' :: '/' :: s) (n + 1) (b || isLineBreak c) := by
        rw [skipBlockComment.eq_def]
        split
        · rename_i heq
          obtain ⟨rfl, htail⟩ := List.cons.inj heq
          cases w with
          | nil => cases htail
          | cons d w =>
              obtain ⟨rfl, _⟩ := List.cons.inj htail
              exact absurd ⟨w, rfl⟩ hw.1
        · rename_i heq
          obtain ⟨rfl, rfl⟩ := List.cons.inj heq
          rfl
        · rename_i heq
          cases heq
      rw [List.cons_append, hstep, ih hw.2, List.any_cons, List.length_cons, Bool.or_assoc]
      congr 1
      omega

/-- Blanks and comments are skipped. -/
theorem IsGap.skips (h : IsGap g) : Skips g (g.any isLineBreak) := by
  have hslash : isLineBreak '/' = false := by decide
  have hstar : isLineBreak '*' = false := by decide
  induction h with
  | nil => exact skips_blank rfl
  | @blank c g hc _ ih =>
      have hall : allBlank [c] = true := by simp [allBlank, hc]
      have happend := (skips_blank hall).append ih
      rwa [← List.any_append] at happend
  | @line w g e hw he _ ih =>
      intro s n broken
      have htext : '/' :: '/' :: (w ++ e :: g) ++ s = '/' :: '/' :: (w ++ e :: (g ++ s)) := by simp
      rw [htext, skipGap, skipLineComment_line hw he, ih]
      simp [he]
      congr 1
      omega
  | @block w g hw _ ih =>
      intro s n broken
      have htext : '/' :: '*' :: (w ++ '*' :: '/' :: g) ++ s = '/' :: '*' :: (w ++ '*' :: '/' :: (g ++ s)) := by simp
      rw [htext, skipGap, skipBlockComment_block hw, ih]
      simp [hslash, hstar, Bool.or_assoc]
      congr 1
      omega

/-- A gap ends at code. -/
theorem skipGap_code (hslash : c ≠ '/') (hblank : isBlank c = false) (hmark : c.toNat ≠ 0xFEFF) :
    skipGap (c :: s) n b = ⟨c :: s, n, b, true⟩ := by
  have hline : isLineBreak c = false := by
    cases hline : isLineBreak c with
    | false => rfl
    | true => rw [isBlank_of_isLineBreak hline] at hblank; cases hblank
  rw [skipGap_cons hslash, if_neg (by simp [hline]), if_neg (by simp [hblank, hmark])]

/-! ## Tokens -/

/-- The token over `text`, between a gap and `rest`, in a text that starts at `n`. -/
def Token.over (lexeme : Lexeme) (b : Bool) (g text rest : List Char) (n : Nat) : Token :=
  ⟨lexeme, n + g.length, n + g.length + text.length, b, false, text ++ rest, rest⟩

/-- A cursor in front of a token that can be moved over. -/
structure Cursor.At (bound : Nat) (c : Cursor) (lexeme : Lexeme) (rest : List Char) (stop : Nat) : Prop where
  lexeme : c.token.lexeme = lexeme
  sound : c.token.Sound
  behind : c.token.rest = rest
  next : c.next bound = .front bound rest stop

theorem Cursor.at_of_read {lexeme : Lexeme} {text : List Char}
    (h : Token.read bound s n = .over lexeme b g text rest n) (hbad : lexeme ≠ .bad)
    (hdone : lexeme ≠ .done) :
    (Cursor.front bound s n).At bound lexeme rest (n + g.length + text.length) := by
  constructor
  · rw [Cursor.front, h]
    rfl
  · rw [Cursor.front, h]
    exact ⟨rfl, hbad, hdone⟩
  · rw [Cursor.front, h]
    rfl
  · rw [Cursor.next_front, h]
    rfl

/-- What a token starts with is code. -/
theorem Token.read_code (hg : Skips g b) (hslash : c ≠ '/') (hblank : isBlank c = false)
    (hmark : c.toNat ≠ 0xFEFF) : Token.read bound (g ++ c :: s) n =
      Token.readHere bound ⟨c :: s, n + g.length, b, true⟩ := by
  rw [Token.read, hg, Bool.false_or, skipGap_code hslash hblank hmark]

/-! ## Marks -/

/-- The marks that are no part of a longer one. -/
def loneMarks : List Char :=
  [',', ';', ':', '(', ')', '[', ']', '\x7b', '\x7d', '>']

theorem scanMark_lone (hc : c ∈ loneMarks) : scanMark (c :: s) = some (String.ofList [c], s) := by
  simp only [loneMarks, List.mem_cons, List.not_mem_nil, or_false] at hc
  rcases hc with rfl | rfl | rfl | rfl | rfl | rfl | rfl | rfl | rfl | rfl <;> rfl

theorem Token.read_mark (hg : IsGap g) (hc : c ∈ loneMarks) :
    Token.read bound (g ++ c :: rest) n = .over (.mark (String.ofList [c])) (g.any isLineBreak) g [c] rest n := by
  have hclass : ∀ d ∈ loneMarks, isIdentifierStart d = false ∧ isBlank d = false ∧ d.isDigit = false ∧
      d ≠ '\\' ∧ d ≠ '#' ∧ d ≠ '\x22' ∧ d ≠ '\x27' ∧ d ≠ '.' ∧ d ≠ '/' ∧ d ≠ '<' ∧
        d.toNat ≠ 0xFEFF := by decide
  obtain ⟨hstart, hblank, hdigit, hescape, hhash, hdouble, hsingle, hpoint, hslash, hangle, hbom⟩ :=
    hclass c hc
  have hmarkup : isMarkupComment (c :: rest) = false := by
    rw [isMarkupComment]
    rintro t ⟨⟩
    exact hangle rfl
  have hdashes : String.singleton c ≠ "--" := by
    intro heq
    have hlength := congrArg (fun u => u.toList.length) heq
    simp at hlength
  rw [Token.read_code (hg.skips) hslash hblank hbom]
  simp [Token.readHere, hstart, hdigit, hescape, hhash, hdouble, hsingle, hpoint, hmarkup,
    scanMark_lone hc, hdashes, Token.over]

theorem Cursor.at_mark (hg : IsGap g) (hc : c ∈ loneMarks) :
    (Cursor.front bound (g ++ c :: rest) n).At bound (.mark (String.ofList [c])) rest
      (n + g.length + 1) :=
  at_of_read (Token.read_mark hg hc) (by simp) (by simp)

theorem Cursor.at_mark_front (hc : c ∈ loneMarks) :
    (Cursor.front bound (c :: rest) n).At bound (.mark (String.ofList [c])) rest (n + 1) :=
  @at_mark bound n c [] rest .nil hc

/-- Marks that are longer than one character, or that longer ones start with. -/
def signs : List (List Char) :=
  [['.', '.', '.'], ['='], ['=', '>'], ['*']]

theorem Token.read_sign {m : List Char} (hg : IsGap g) (hm : m ∈ signs)
    (hscan : scanMark (m ++ rest) = some (String.ofList m, rest)) :
    Token.read bound (g ++ m ++ rest) n =
      .over (.mark (String.ofList m)) (g.any isLineBreak) g m rest n := by
  have hpoint : isIdentifierStart '.' = false := by decide
  have hequals : isIdentifierStart '=' = false := by decide
  have hstar : isIdentifierStart '*' = false := by decide
  have hmarkup : ∀ c s, c ≠ '<' → isMarkupComment (c :: s) = false := by
    intro c s hc
    rw [isMarkupComment]
    rintro t ⟨⟩
    exact hc rfl
  simp only [signs, List.mem_cons, List.not_mem_nil, or_false] at hm
  rw [List.append_assoc]
  rcases hm with rfl | rfl | rfl | rfl
  all_goals
    simp only [List.cons_append, List.nil_append] at hscan ⊢
    rw [Token.read_code (hg.skips) (by decide) (by decide) (by decide)]
    simp [Token.readHere, hscan, hmarkup, hpoint, hequals, hstar, Token.over]
    rfl

theorem Cursor.at_dots (hg : IsGap g) :
    (Cursor.front bound (g ++ '.' :: '.' :: '.' :: rest) n).At bound (.mark "...") rest
      (n + g.length + 3) := by
  have hread := @Token.read_sign bound n g rest ['.', '.', '.'] hg (by decide) rfl
  rw [List.append_assoc] at hread
  exact at_of_read hread (by simp) (by simp)

/-- A sign with a blank behind it. -/
theorem Cursor.at_sign (hg : IsGap g) (hc : c ∈ ['=', '*']) :
    (Cursor.front bound (g ++ c :: ' ' :: rest) n).At bound (.mark (String.ofList [c])) (' ' :: rest)
      (n + g.length + 1) := by
  have hscan : scanMark (c :: ' ' :: rest) = some (String.ofList [c], ' ' :: rest) := by
    simp only [List.mem_cons, List.not_mem_nil, or_false] at hc
    rcases hc with rfl | rfl <;> rfl
  have hsigns : ∀ d ∈ ['=', '*'], [d] ∈ signs := by decide
  have hread := @Token.read_sign bound n g (' ' :: rest) [c] hg (hsigns c hc) hscan
  rw [List.append_assoc] at hread
  exact at_of_read hread (by simp) (by simp)

/-- Behind the last token there is nothing but a gap. -/
theorem Token.read_end (hg : Skips g b) : Token.read bound g n = .over .done b g [] [] n := by
  have hgap := hg [] n false
  rw [List.append_nil] at hgap
  rw [Token.read, hgap]
  rfl

/-! ## Words -/

/-- A word of the script. -/
def IsWord (w : List Char) : Prop :=
  ∃ c tail, w = c :: tail ∧ isIdentifierStart c = true ∧ tail.all isIdentifierPart = true

instance decidableIsWord : DecidablePred IsWord
  | [] => .isFalse (by rintro ⟨_, _, ⟨⟩, _⟩)
  | c :: tail => decidable_of_iff (isIdentifierStart c = true ∧ tail.all isIdentifierPart = true)
      ⟨fun ⟨hc, htail⟩ => ⟨c, tail, rfl, hc, htail⟩, by rintro ⟨_, _, ⟨⟩, hc, htail⟩; exact ⟨hc, htail⟩⟩

/-- A word does not go on in a text. -/
def EndsWord (rest : List Char) : Prop :=
  ∀ c, rest.head? = some c → isIdentifierPart c = false ∧ c ≠ '\\'

theorem endsWord_space (s : List Char) : EndsWord (' ' :: s) := by
  rintro c ⟨⟩
  decide

theorem isIdentifierPart_of_start (h : isIdentifierStart c = true) : isIdentifierPart c = true := by
  rw [isIdentifierPart, h]
  rfl

theorem ne_backslash_of_part (h : isIdentifierPart c = true) : c ≠ '\\' := by
  rintro rfl
  exact absurd h (by decide)

/-- Nothing that a gap starts with goes on with a word. -/
theorem endsWord_gapStart : ∀ d ∈ '/' :: blanks, isIdentifierPart d = false ∧ d ≠ '\\' := by
  decide +kernel

theorem isBlank_of_part (h : isIdentifierPart c = true) : isBlank c = false :=
  isBlank_eq_false_of isIdentifierPart (fun d hd => (endsWord_gapStart d (List.mem_cons_of_mem _ hd)).1) h

theorem isBlank_of_start (h : isIdentifierStart c = true) : isBlank c = false :=
  isBlank_of_part (isIdentifierPart_of_start h)

theorem ne_slash_of_start (h : isIdentifierStart c = true) : c ≠ '/' := by
  rintro rfl
  exact absurd h (by decide)

theorem ne_byteOrderMark_of_start (h : isIdentifierStart c = true) : c.toNat ≠ 0xFEFF := by
  intro heq
  obtain rfl : c = '\uFEFF' := Char.toNat_inj.mp heq
  exact absurd h (by decide +kernel)

theorem IsGap.endsWord (hg : IsGap g) (hc : isIdentifierPart c = false) (hslash : c ≠ '\\') (s : List Char) :
    EndsWord (g ++ c :: s) := by
  cases g with
  | nil =>
      rintro d ⟨⟩
      exact ⟨hc, hslash⟩
  | cons d g => exact fun e he => endsWord_gapStart e (hg.head_mem e he)

theorem scanWord_rest (hrest : EndsWord rest) (k : Nat) {name : List Char} {size : Nat} (hname : name ≠ []) :
    scanWord k ⟨name, false, size, rest⟩ = some ⟨name, false, size, rest⟩ := by
  cases k with
  | zero => rfl
  | succ k =>
      cases rest with
      | nil => rfl
      | cons d rest =>
          obtain ⟨hpart, hslash⟩ := hrest d rfl
          rw [scanWord]
          split
          · rename_i heq
            exact absurd (List.cons.inj heq).1 hslash
          · rename_i heq
            exact absurd (List.cons.inj heq).1 hslash
          · rename_i heq
            obtain ⟨rfl, rfl⟩ := List.cons.inj heq
            simp [hname, hpart]
          · rename_i heq
            cases heq

theorem scanWord_tail {tail : List Char} (htail : tail.all isIdentifierPart = true)
    (hrest : EndsWord rest) {k : Nat} (hk : tail.length ≤ k) {name : List Char} {size : Nat}
    (hname : name ≠ []) :
    scanWord k ⟨name, false, size, tail ++ rest⟩ =
      some ⟨tail.reverse ++ name, false, size + tail.length, rest⟩ := by
  induction tail generalizing k name size with
  | nil => exact scanWord_rest hrest k hname
  | cons d tail ih =>
      rw [List.all_cons, Bool.and_eq_true] at htail
      have hslash := ne_backslash_of_part htail.1
      rw [List.length_cons] at hk
      obtain ⟨k, rfl⟩ : ∃ j, k = j + 1 := ⟨k - 1, by omega⟩
      rw [List.cons_append, scanWord]
      split
      · rename_i heq
        exact absurd (List.cons.inj heq).1 hslash
      · rename_i heq
        exact absurd (List.cons.inj heq).1 hslash
      · rename_i heq
        obtain ⟨rfl, rfl⟩ := List.cons.inj heq
        have hgoes := @ih htail.2 k (by omega) (d :: name) (size + 1) (by simp)
        simp only [List.isEmpty_iff, hname, if_false, htail.1, if_true, hgoes]
        simp
        omega
      · rename_i heq
        cases heq

theorem scanWord_word (hw : IsWord w) (hrest : EndsWord rest) (hbound : w.length ≤ bound) :
    scanWord bound ⟨[], false, 0, w ++ rest⟩ = some ⟨w.reverse, false, w.length, rest⟩ := by
  obtain ⟨c, tail, rfl, hstart, htail⟩ := hw
  have hslash := ne_backslash_of_part (isIdentifierPart_of_start hstart)
  rw [List.length_cons] at hbound
  obtain ⟨k, rfl⟩ : ∃ j, bound = j + 1 := ⟨bound - 1, by omega⟩
  rw [List.cons_append, scanWord]
  split
  · rename_i heq
    exact absurd (List.cons.inj heq).1 hslash
  · rename_i heq
    exact absurd (List.cons.inj heq).1 hslash
  · rename_i heq
    obtain ⟨rfl, rfl⟩ := List.cons.inj heq
    have hgoes := @scanWord_tail rest tail htail hrest k (by omega) [c] 1 (by simp)
    simp [hstart, hgoes]
    omega
  · rename_i heq
    cases heq

theorem Token.read_word (hg : Skips g b) (hw : IsWord w) (hrest : EndsWord rest)
    (hbound : w.length ≤ bound) : Token.read bound (g ++ w ++ rest) n =
      .over (.word (String.ofList w) false) b g w rest n := by
  have hscan := scanWord_word hw hrest hbound
  obtain ⟨c, tail, rfl, hstart, htail⟩ := hw
  rw [List.append_assoc, List.cons_append, Token.read_code hg (ne_slash_of_start hstart) (isBlank_of_start hstart)
    (ne_byteOrderMark_of_start hstart)]
  rw [List.cons_append] at hscan
  simp [Token.readHere, hstart, hscan, Token.over]

theorem Cursor.at_word (hg : Skips g b) (hw : IsWord w) (hrest : EndsWord rest)
    (hbound : w.length ≤ bound) :
    (Cursor.front bound (g ++ w ++ rest) n).At bound (.word (String.ofList w) false) rest
      (n + g.length + w.length) :=
  at_of_read (Token.read_word hg hw hrest hbound) (by simp) (by simp)

/-! ## Strings -/

/-- The two kinds of quotes. -/
def IsQuote (quote : Char) : Prop :=
  quote = '\x22' ∨ quote = '\x27'

/-- A character as it is written between quotes of one kind. -/
def writtenChar (quote c : Char) : List Char :=
  if c == '\\' then ['\\', '\\']
  else if c == quote then ['\\', quote]
  else if c == '\n' then ['\\', 'n']
  else if c == '\r' then ['\\', 'r']
  else [c]

/-- A text as a string between quotes of one kind. -/
def written (quote : Char) (v : List Char) : List Char :=
  quote :: v.flatMap (writtenChar quote) ++ [quote]

theorem quoted_eq_written (v : List Char) : Naming.quoted v = written '\x27' v := rfl

/-- A written character is read back in one round. -/
theorem scanString_writtenChar {quote : Char} (hquote : IsQuote quote) (c : Char) (k size : Nat)
    (units : List StringUnit) (s : List Char) :
    scanString quote (k + 1) ⟨units, size, writtenChar quote c ++ s, false⟩ =
      scanString quote k ⟨.char c :: units, size + (writtenChar quote c).length, s, false⟩ := by
  have hslash : '\\' ≠ quote := by
    rcases hquote with rfl | rfl
    · decide
    · decide
  -- Four characters are escaped, and all others stand for themselves.
  by_cases hc : c = '\\'
  · subst c
    simp [writtenChar, scanString, scanEscape, controlEscape?, isLineBreak, isOctal, hslash]
  by_cases hsame : c = quote
  · subst c
    rcases hquote with rfl | rfl
    · simp [writtenChar, scanString, scanEscape, controlEscape?, isLineBreak, isOctal]
    · simp [writtenChar, scanString, scanEscape, controlEscape?, isLineBreak, isOctal]
  by_cases hfeed : c = '\n'
  · subst c
    simp [writtenChar, scanString, scanEscape, controlEscape?, isLineBreak, hslash, hsame]
  by_cases hreturn : c = '\r'
  · subst c
    simp [writtenChar, scanString, scanEscape, controlEscape?, isLineBreak, hslash, hsame]
  have hplain : writtenChar quote c = [c] := by
    simp [writtenChar, hc, hsame, hfeed, hreturn]
  simp [hplain, scanString, hc, hsame, hfeed, hreturn]

theorem length_writtenChar_pos (quote c : Char) : 0 < (writtenChar quote c).length := by
  rw [writtenChar]
  grind -linarith

theorem scanString_written {quote : Char} (hquote : IsQuote quote) (v : List Char) {k size : Nat}
    (hk : (v.flatMap (writtenChar quote)).length < k) (units : List StringUnit) :
    scanString quote k ⟨units, size, v.flatMap (writtenChar quote) ++ quote :: rest, false⟩ =
      some ⟨(v.map StringUnit.char).reverse ++ units,
        size + (v.flatMap (writtenChar quote)).length + 1, rest, false⟩ := by
  induction v generalizing k size units with
  | nil =>
      rw [List.flatMap_nil, List.length_nil] at hk
      obtain ⟨k, rfl⟩ : ∃ j, k = j + 1 := ⟨k - 1, by omega⟩
      simp [scanString]
  | cons c v ih =>
      have hpos := length_writtenChar_pos quote c
      rw [List.flatMap_cons, List.length_append] at hk ⊢
      obtain ⟨k, rfl⟩ : ∃ j, k = j + 1 := ⟨k - 1, by omega⟩
      rw [List.append_assoc, scanString_writtenChar hquote, ih (by omega), List.map_cons,
        List.reverse_cons, List.append_assoc]
      simp
      omega

theorem unitsText_chars (v : List Char) : unitsText (v.map StringUnit.char) = v := by
  induction v with
  | nil => rfl
  | cons c v ih => rw [List.map_cons, unitsText, ih]

/-- A written string is one token that denotes its text. -/
theorem Token.read_written {quote : Char} (hquote : IsQuote quote) (hg : IsGap g)
    (v : List Char) (hbound : (written quote v).length ≤ bound) :
    Token.read bound (g ++ written quote v ++ rest) n =
      .over (.string (String.ofList v)) (g.any isLineBreak) g (written quote v) rest n := by
  have hlength : (written quote v).length = (v.flatMap (writtenChar quote)).length + 2 := by
    simp [written]
  have hscan := @scanString_written rest quote hquote v bound 1 (by omega) []
  have htext : written quote v ++ rest =
      quote :: (v.flatMap (writtenChar quote) ++ quote :: rest) := by
    simp [written]
  have hclass : ∀ q ∈ ['\x22', '\x27'], isIdentifierStart q = false ∧ isBlank q = false ∧ q ≠ '/' ∧
      q ≠ '\\' ∧ q ≠ '#' ∧ (q == '\x22' || q == '\x27') = true ∧ q.toNat ≠ 0xFEFF := by decide
  obtain ⟨hstart, hblank, hslash, hescape, hhash, hmark, hbom⟩ :=
    hclass quote (by rcases hquote with rfl | rfl <;> simp)
  rw [List.append_assoc, Token.over, hlength, htext,
    Token.read_code (hg.skips) hslash hblank hbom]
  simp [Token.readHere, hstart, hescape, hhash, hmark, hscan, unitsText_chars]
  omega

theorem Token.read_quoted (hg : IsGap g) (v : List Char)
    (hbound : (Naming.quoted v).length ≤ bound) :
    Token.read bound (g ++ Naming.quoted v ++ rest) n =
      .over (.string (String.ofList v)) (g.any isLineBreak) g (Naming.quoted v) rest n :=
  Token.read_written (.inr rfl) hg v hbound

theorem Cursor.at_quoted (hg : IsGap g) (v : List Char)
    (hbound : (Naming.quoted v).length ≤ bound) :
    (Cursor.front bound (g ++ Naming.quoted v ++ rest) n).At bound (.string (String.ofList v)) rest
      (n + g.length + (Naming.quoted v).length) :=
  at_of_read (Token.read_quoted hg v hbound) (by simp) (by simp)

end Script
end StoryDocs
