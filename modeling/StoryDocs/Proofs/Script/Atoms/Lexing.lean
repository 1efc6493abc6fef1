import StoryDocs.Proofs.Script.Atoms.Basic
import StoryDocs.Proofs.Script.Tokens
import StoryDocs.Script.Grammar.Literal

/-!
# Atoms of tokens

What the readers of the lexer move over: a gap is cut into blanks and comments, and the text of a token is
an atom of the kind that its lexeme names.
-/

namespace StoryDocs
namespace Script

open Text

variable {bound n k size : Nat} {b : Bool} {c quote : Char} {s t rest : List Char}

/-! ## Gaps -/

/-- Whether an atom stands between tokens. -/
def Atom.IsGap (a : Atom) : Prop :=
  a.kind = .blank ∨ a.kind = .lineComment ∨ a.kind = .blockComment

/-- How many characters atoms have. -/
def extentOf (as : List Atom) : Nat :=
  (as.flatMap Atom.text).length

@[simp] theorem extentOf_cons (a : Atom) (as : List Atom) :
    extentOf (a :: as) = a.text.length + extentOf as := by
  simp [extentOf]

/-- A line comment ends in front of the line break behind it. -/
theorem skipLineComment_eq (s : List Char) (n : Nat) (b : Bool) :
    skipLineComment s n b = skipGap (s.dropWhile fun c => !isLineBreak c)
      (n + (s.takeWhile fun c => !isLineBreak c).length) b := by
  induction s generalizing n with
  | nil => rfl
  | cons c s ih =>
      rw [skipLineComment]
      cases hc : isLineBreak c with
      | true =>
          have hslash : c ≠ '/' := by
            rintro rfl
            exact absurd hc (by decide)
          simp only [List.dropWhile_cons, List.takeWhile_cons, hc, Bool.not_true, Bool.false_eq_true, if_false,
            if_true, List.length_nil, Nat.add_zero]
          rw [skipGap_cons hslash, hc, if_pos rfl]
      | false =>
          simp only [List.dropWhile_cons, List.takeWhile_cons, hc, Bool.not_false, if_true, Bool.false_eq_true,
            if_false, List.length_cons]
          rw [ih]
          congr 1
          omega

/-- A block comment that is closed ends with the first star in front of a slash. -/
theorem skipBlockComment_eq (s : List Char) (n : Nat) (b : Bool)
    (hclosed : (skipBlockComment s n b).closed = true) :
    ∃ body rest b', s = body ++ '*' :: '/' :: rest ∧
      find? ['*', '/'] (body ++ ['*', '/']) = some body.length ∧
      skipBlockComment s n b = skipGap rest (n + body.length + 2) b' := by
  induction s generalizing n b with
  | nil => cases hclosed
  | cons c s ih =>
      by_cases hend : c = '*' ∧ s.head? = some '/'
      · obtain ⟨rfl, hs⟩ := hend
        obtain ⟨rest, rfl⟩ := List.head?_eq_some_iff.mp hs
        exact ⟨[], rest, b, rfl, by decide, rfl⟩
      · have hmore : skipBlockComment (c :: s) n b = skipBlockComment s (n + 1) (b || isLineBreak c) := by
          rw [skipBlockComment.eq_def]
          split
          · rename_i heq
            obtain ⟨rfl, rfl⟩ := List.cons.inj heq
            exact absurd ⟨rfl, rfl⟩ hend
          · rename_i heq
            obtain ⟨rfl, rfl⟩ := List.cons.inj heq
            rfl
          · rename_i heq
            cases heq
        rw [hmore] at hclosed ⊢
        obtain ⟨body, rest, b', hs, hfind, hskip⟩ := ih _ _ hclosed
        refine ⟨c :: body, rest, b', by rw [hs]; rfl, ?_, ?_⟩
        -- The end does not stand here: the first character is no star, or no slash is behind it.
        · have hnot : startsWith ['*', '/'] (c :: (body ++ ['*', '/'])) = false := by
            rw [Bool.eq_false_iff]
            intro hstart
            refine hend ?_
            rw [startsWith, dropLead?] at hstart
            split at hstart
            · rename_i hstar
              refine ⟨(beq_iff_eq.mp hstar).symm, ?_⟩
              cases body with
              | nil => exact absurd hstart (by decide)
              | cons d body =>
                  rw [List.cons_append, dropLead?] at hstart
                  split at hstart
                  · rename_i hslash
                    rw [hs, ← beq_iff_eq.mp hslash]
                    rfl
                  · cases hstart
            · cases hstart
          rw [List.cons_append, find?, hnot, hfind]
          rfl
        · rw [hskip, List.length_cons]
          congr 1
          omega

/-- Only at the end of a text a comment is left open. -/
theorem rest_skipGap (s : List Char) (n : Nat) (b : Bool) (h : (skipGap s n b).closed = false) :
    (skipGap s n b).rest = [] := by
  have hall := skipGap.mutual_induct (fun s n b => (skipGap s n b).closed = false → (skipGap s n b).rest = [])
    (fun s n b => (skipBlockComment s n b).closed = false → (skipBlockComment s n b).rest = [])
    (fun s n b => (skipLineComment s n b).closed = false → (skipLineComment s n b).rest = [])
  refine (hall ?_ ?_ ?_ ?_ ?_ ?_ ?_ ?_ ?_ ?_ ?_ ?_).1 s n b h
  all_goals simp +contextual [skipGap, skipBlockComment, skipLineComment]

/-- A gap is cut into blanks and comments, and no comment starts behind it. -/
theorem cuts_skipGap (s : List Char) (n : Nat) (b : Bool) (hclosed : (skipGap s n b).closed = true) :
    ∃ gap : List Atom, (∀ a ∈ gap, a.IsGap) ∧ Cuts s gap (skipGap s n b).rest ∧
      (skipGap s n b).offset = n + extentOf gap ∧
      ∀ t, (skipGap s n b).rest = '/' :: t → t.head? ≠ some '/' ∧ t.head? ≠ some '*' := by
  induction hlength : s.length using Nat.strong_induction_on generalizing s n b with
  | _ m ih =>
    subst hlength
    -- What is left behind an atom is shorter, and the atom comes in front of its gap.
    have hbehind : ∀ (a : Atom) (u : List Char) (b' : Bool), a.IsGap → a.Fits u → a.text ≠ [] →
        s = a.text ++ u → skipGap s n b = skipGap u (n + a.text.length) b' →
        ∃ gap : List Atom, (∀ a ∈ gap, a.IsGap) ∧ Cuts s gap (skipGap s n b).rest ∧
          (skipGap s n b).offset = n + extentOf gap ∧
          ∀ t, (skipGap s n b).rest = '/' :: t → t.head? ≠ some '/' ∧ t.head? ≠ some '*' := by
      intro a u b' hgap hfits hne hs heq
      have hshort : u.length < s.length := by
        have hpos := List.length_pos_iff.mpr hne
        rw [hs, List.length_append]
        omega
      rw [heq] at hclosed ⊢
      obtain ⟨gap, hall, hcuts, hoffset, hcode⟩ := ih u.length hshort u _ b' hclosed rfl
      refine ⟨a :: gap, List.forall_mem_cons.mpr ⟨hgap, hall⟩, by rw [hs]; exact .cons hfits hcuts, ?_, hcode⟩
      rw [hoffset, extentOf_cons]
      omega
    rcases s with _ | ⟨c, s⟩
    · exact ⟨[], by simp, .nil, rfl, by simp [skipGap]⟩
    · by_cases hslash : c = '/'
      · subst hslash
        by_cases hline : s.head? = some '/'
        · obtain ⟨s, rfl⟩ := List.head?_eq_some_iff.mp hline
          refine hbehind ⟨.lineComment, '/' :: '/' :: s.takeWhile fun c => !isLineBreak c⟩
            (s.dropWhile fun c => !isLineBreak c) b (.inr (.inl rfl)) ⟨_, rfl, ?_, ?_⟩ (by simp) ?_ ?_
          · intro c hc
            have hnot := List.all_eq_true.mp List.all_takeWhile c hc
            simpa using hnot
          · intro c hc
            have hnot := List.head?_dropWhile_not (fun c => !isLineBreak c) s
            rw [Option.mem_def.mp hc] at hnot
            simpa using hnot
          · simp [List.takeWhile_append_dropWhile]
          · rw [skipGap, skipLineComment_eq]
            congr 1
            simp only [List.length_cons]
            omega
        · by_cases hblock : s.head? = some '*'
          · obtain ⟨s, rfl⟩ := List.head?_eq_some_iff.mp hblock
            have hskip : skipGap ('/' :: '*' :: s) n b = skipBlockComment s (n + 2) b := rfl
            rw [hskip] at hclosed
            obtain ⟨body, rest, b', hs, hfind, heq⟩ := skipBlockComment_eq s _ b hclosed
            refine hbehind ⟨.blockComment, '/' :: '*' :: (body ++ ['*', '/'])⟩ rest b' (.inr (.inr rfl))
              ⟨_, rfl, hfind⟩ (by simp) (by simp [hs]) ?_
            rw [hskip, heq]
            congr 1
            simp only [List.length_cons, List.length_append, List.length_nil]
            omega
          · rw [skipGap_slash hline hblock]
            refine ⟨[], by simp, .nil, rfl, fun t ht => ?_⟩
            rw [← (List.cons.inj ht).2]
            exact ⟨hline, hblock⟩
      · have hcons := @skipGap_cons n b c s hslash
        have hblank : ∀ b', (isLineBreak c || isBlank c || c.toNat == 0xFEFF) = true →
            skipGap (c :: s) n b = skipGap s (n + 1) b' →
            ∃ gap : List Atom, (∀ a ∈ gap, a.IsGap) ∧ Cuts (c :: s) gap (skipGap (c :: s) n b).rest ∧
              (skipGap (c :: s) n b).offset = n + extentOf gap ∧
              ∀ t, (skipGap (c :: s) n b).rest = '/' :: t → t.head? ≠ some '/' ∧ t.head? ≠ some '*' :=
          fun b' hc heq => hbehind ⟨.blank, [c]⟩ s b' (.inl rfl) ⟨c, rfl, hc⟩ (by simp) rfl heq
        split at hcons
        · rename_i hc
          exact hblank true (by simp [hc]) hcons
        · split at hcons
          · rename_i hc
            exact hblank b (by rw [Bool.or_assoc, hc, Bool.or_true]) hcons
          · rw [hcons]
            exact ⟨[], by simp, .nil, rfl, fun t ht => absurd (List.cons.inj ht).1 hslash⟩

/-! ## Escapes and words -/

theorem bracedCode_eq {value digits read code : Nat}
    (h : bracedCode s value digits read = some (code, size, rest)) :
    ∃ ds, s = ds ++ '\x7d' :: rest ∧ (∀ d ∈ ds, (hexDigit? d).isSome) ∧ size = read + ds.length + 1 := by
  induction s generalizing value digits read with
  | nil => cases h
  | cons c s ih =>
      rw [bracedCode] at h
      split at h
      · rename_i hc
        split at h
        · cases h
        · obtain ⟨rfl, rfl, rfl⟩ : value = code ∧ read + 1 = size ∧ s = rest := by simpa using h
          exact ⟨[], by rw [beq_iff_eq.mp hc]; rfl, by simp, rfl⟩
      · split at h
        · cases h
        · rename_i d hd
          dsimp only at h
          split at h
          · cases h
          · obtain ⟨ds, rfl, hds, rfl⟩ := ih h
            refine ⟨c :: ds, rfl, List.forall_mem_cons.mpr ⟨by rw [hd]; rfl, hds⟩, ?_⟩
            rw [List.length_cons]
            omega

theorem unicodeCode_eq {code : Nat} (h : unicodeCode s = some (code, size, rest)) :
    ∃ e, CodeText e ∧ s = e ++ rest ∧ size = e.length := by
  rw [unicodeCode.eq_def] at h
  split at h
  · obtain ⟨ds, rfl, hds, rfl⟩ := bracedCode_eq h
    refine ⟨'{' :: (ds ++ ['\x7d']), .braced hds, by simp, ?_⟩
    simp only [List.length_cons, List.length_append, List.length_nil]
    omega
  · rename_i a b c d s _
    simp only [Option.bind_eq_bind, Option.bind_eq_some_iff] at h
    obtain ⟨va, ha, vb, hb, vc, hc, vd, hd, h⟩ := h
    obtain ⟨_, rfl, rfl⟩ : _ ∧ 4 = size ∧ s = rest := by simpa using h
    exact ⟨[a, b, c, d], .four (by rw [ha]; rfl) (by rw [hb]; rfl) (by rw [hc]; rfl) (by rw [hd]; rfl), rfl, rfl⟩
  · cases h

/-- What `scanWord` moves over, and its name where it holds no escape. -/
theorem scanWord_eq {w w' : WordScan} (h : scanWord bound w = some w') :
    ∃ part, WordText part ∧ w.rest = part ++ w'.rest ∧ w'.size = w.size + part.length ∧
      (w.escaped = true → w'.escaped = true) ∧ (w'.escaped = false → w'.name = part.reverse ++ w.name) := by
  induction bound generalizing w with
  | zero =>
      obtain rfl : w = w' := by simpa [scanWord] using h
      exact ⟨[], .nil, rfl, rfl, id, fun _ => rfl⟩
  | succ bound ih =>
      rw [scanWord] at h
      split at h
      -- An escaped character, whose code has to be one that names may hold.
      · rename_i s hrest
        split at h
        · cases h
        · rename_i code size t hcode
          obtain ⟨e, he, rfl, rfl⟩ := unicodeCode_eq hcode
          dsimp only at h
          generalize (if w.name.isEmpty = true then isIdentifierStart (Char.ofNat code)
            else isIdentifierPart (Char.ofNat code)) = ok at h
          cases ok with
          | false => cases h
          | true =>
              obtain ⟨part, hpart, hsplit, hsize, hescaped, _⟩ := ih h
              refine ⟨'\\' :: 'u' :: (e ++ part), .escape he hpart, ?_, ?_, fun _ => hescaped rfl, ?_⟩
              · rw [hrest, show t = _ from hsplit]
                simp
              · rw [hsize]
                simp only [List.length_cons, List.length_append]
                omega
              · rw [hescaped rfl]
                intro hfalse
                cases hfalse
      · cases h
      -- A character that stands for itself.
      · rename_i c s _ _ hrest
        dsimp only at h
        cases hok : (if w.name.isEmpty = true then isIdentifierStart c else isIdentifierPart c) with
        | false =>
            rw [hok] at h
            obtain rfl : w = w' := by simpa using h
            exact ⟨[], .nil, rfl, rfl, id, fun _ => rfl⟩
        | true =>
            rw [hok] at h
            obtain ⟨part, hpart, hsplit, hsize, hescaped, hname⟩ := ih h
            have hc : isIdentifierPart c = true := by
              split at hok
              · exact isIdentifierPart_of_start hok
              · exact hok
            refine ⟨c :: part, .char hc hpart, ?_, ?_, hescaped, ?_⟩
            · rw [hrest, show s = _ from hsplit]
              rfl
            · rw [hsize, List.length_cons]
              show w.size + 1 + part.length = _
              omega
            · intro hplain
              rw [hname hplain]
              simp
      · obtain rfl : w = w' := by simpa using h
        exact ⟨[], .nil, rfl, rfl, id, fun _ => rfl⟩

theorem scanEscape_eq {e : EscapeScan} (h : scanEscape s = some e) :
    ∃ part, EscapeText part ∧ s = part ++ e.rest ∧ e.size = part.length := by
  rw [scanEscape.eq_def] at h
  split at h
  · cases h
  · rename_i a b s
    simp only [Option.bind_eq_bind, Option.bind_eq_some_iff] at h
    obtain ⟨va, ha, vb, hb, h⟩ := h
    obtain rfl := Option.some.inj h
    exact ⟨['x', a, b], .byte (by rw [ha]; rfl) (by rw [hb]; rfl), rfl, rfl⟩
  · cases h
  · simp only [Option.bind_eq_bind, Option.bind_eq_some_iff] at h
    obtain ⟨⟨code, size, rest⟩, hcode, h⟩ := h
    obtain rfl := Option.some.inj h
    obtain ⟨part, hpart, rfl, rfl⟩ := unicodeCode_eq hcode
    exact ⟨'u' :: part, .code hpart, rfl, rfl⟩
  · obtain rfl := Option.some.inj h
    exact ⟨_, .lineEnd, rfl, rfl⟩
  · split at h
    · obtain rfl := Option.some.inj h
      exact ⟨_, .single _, rfl, rfl⟩
    · obtain rfl := Option.some.inj h
      exact ⟨_, .single _, rfl, rfl⟩
  · rename_i c s _ _ _ _ _
    refine ⟨[c], .single c, ?_⟩
    split at h
    · obtain rfl := Option.some.inj h
      exact ⟨rfl, rfl⟩
    · split at h
      · obtain rfl := Option.some.inj h
        exact ⟨rfl, rfl⟩
      · obtain rfl := Option.some.inj h
        exact ⟨rfl, rfl⟩

/-! ## Strings and templates -/

theorem scanString_eq {w w' : StringScan} (h : scanString quote bound w = some w') :
    ∃ body, StringText quote body ∧ w.rest = body ++ quote :: w'.rest ∧
      w'.size = w.size + body.length + 1 := by
  induction bound generalizing w with
  | zero => cases h
  | succ bound ih =>
      rw [scanString] at h
      split at h
      · cases h
      · rename_i c s hrest
        split at h
        · rename_i hc
          obtain rfl := Option.some.inj h
          exact ⟨[], .nil, by rw [hrest, beq_iff_eq.mp hc]; rfl, rfl⟩
        · rename_i hquote
          split at h
          · rename_i hslash
            split at h
            · cases h
            · rename_i e hescape
              obtain ⟨part, hpart, rfl, hpartSize⟩ := scanEscape_eq hescape
              obtain ⟨body, hbody, hsplit, hsize⟩ := ih h
              refine ⟨'\\' :: (part ++ body), .escape hpart hbody, ?_, ?_⟩
              · rw [hrest, beq_iff_eq.mp hslash, show e.rest = _ from hsplit]
                simp
              · rw [hsize, hpartSize]
                simp only [List.length_cons, List.length_append]
                omega
          · rename_i hslash
            split at h
            · cases h
            · rename_i hline
              obtain ⟨body, hbody, hsplit, hsize⟩ := ih h
              simp only [Bool.or_eq_true, beq_iff_eq, not_or] at hquote hslash hline
              refine ⟨c :: body, .char hquote hslash hline.1 hline.2 hbody, ?_, ?_⟩
              · rw [hrest, show s = _ from hsplit]
                rfl
              · rw [hsize, List.length_cons]
                show w.size + 1 + body.length + 1 = _
                omega

/-- What `scanTemplate` moves over: characters of the template, and the mark behind them. -/
theorem scanTemplate_eq {tagged : Bool} {scan : TemplateScan}
    (h : scanTemplate tagged bound s n = some scan) :
    ∃ part, TemplateText part ∧
      ((scan.opensCode = true ∧ s = part ++ '$' :: '{' :: scan.rest ∧ scan.size = n + part.length + 2) ∨
        (scan.opensCode = false ∧ s = part ++ '\x60' :: scan.rest ∧ scan.size = n + part.length + 1)) := by
  induction bound generalizing s n with
  | zero => cases h
  | succ bound ih =>
      -- An escape comes in front of what is read behind it.
      have hescape : ∀ e t m, EscapeText e → s = '\\' :: (e ++ t) → m = n + 1 + e.length →
          scanTemplate tagged bound t m = some scan →
          ∃ part, TemplateText part ∧
            ((scan.opensCode = true ∧ s = part ++ '$' :: '{' :: scan.rest ∧
                scan.size = n + part.length + 2) ∨
              (scan.opensCode = false ∧ s = part ++ '\x60' :: scan.rest ∧
                scan.size = n + part.length + 1)) := by
        rintro e t m he rfl rfl hrest
        obtain ⟨part, hpart, hend⟩ := ih hrest
        refine ⟨'\\' :: (e ++ part), .escape he hpart, ?_⟩
        rcases hend with ⟨hcode, rfl, hsize⟩ | ⟨hcode, rfl, hsize⟩
        · refine .inl ⟨hcode, by simp, ?_⟩
          rw [hsize, List.length_cons, List.length_append]
          omega
        · refine .inr ⟨hcode, by simp, ?_⟩
          rw [hsize, List.length_cons, List.length_append]
          omega
      rw [scanTemplate.eq_def] at h
      dsimp only at h
      split at h
      · cases h
      · obtain rfl := Option.some.inj h
        exact ⟨[], .nil, .inl ⟨rfl, rfl, rfl⟩⟩
      · rename_i c t hdollar
        split at h
        · rename_i hc
          obtain rfl := Option.some.inj h
          exact ⟨[], .nil, .inr ⟨rfl, by rw [beq_iff_eq.mp hc]; rfl, rfl⟩⟩
        · rename_i htick
          split at h
          · rename_i hslash
            split at h
            · rename_i e he
              obtain ⟨part, hpart, rfl, hsize⟩ := scanEscape_eq he
              split at h
              · cases h
              · exact hescape part e.rest _ hpart (by rw [beq_iff_eq.mp hslash]) (by rw [hsize]) h
            · split at h
              · cases t with
                | nil => cases h
                | cons d u => exact hescape [d] u _ (.single d) (by rw [beq_iff_eq.mp hslash]; rfl) rfl h
              · cases h
          · rename_i hslash
            obtain ⟨part, hpart, hend⟩ := ih h
            have hnext : c = '$' → part.head? ≠ some '{' := by
              rintro rfl hhead
              obtain ⟨tail, rfl⟩ := List.head?_eq_some_iff.mp hhead
              rcases hend with ⟨_, rfl, _⟩ | ⟨_, rfl, _⟩
              · exact hdollar _ rfl rfl
              · exact hdollar _ rfl rfl
            simp only [beq_iff_eq] at htick hslash
            refine ⟨c :: part, .char htick hslash hnext hpart, ?_⟩
            rcases hend with ⟨hcode, rfl, hsize⟩ | ⟨hcode, rfl, hsize⟩
            · refine .inl ⟨hcode, rfl, ?_⟩
              rw [hsize, List.length_cons]
              omega
            · refine .inr ⟨hcode, rfl, ?_⟩
              rw [hsize, List.length_cons]
              omega

theorem scanRegex_eq {inClass : Bool} (h : scanRegex inClass s n = some (size, rest)) :
    ∃ body, s = body ++ '/' :: rest ∧ size = n + body.length + 1 := by
  induction inClass, s, n using scanRegex.induct with
  | case1 => cases h
  | case2 inClass c s n hline => rw [scanRegex, if_pos hline] at h; cases h
  | case3 inClass c s n hline ih =>
      rw [scanRegex, if_neg hline] at h
      obtain ⟨body, rfl, rfl⟩ := ih h
      refine ⟨'\\' :: c :: body, rfl, ?_⟩
      simp only [List.length_cons]
      omega
  | case4 inClass c s n hno hline => rw [scanRegex, if_pos hline] at h; cases h; exact hno
  | case5 inClass c s n hno hline hslash =>
      rw [scanRegex, if_neg hline, if_pos hslash] at h
      · obtain ⟨rfl, rfl⟩ : n + 1 = size ∧ s = rest := by simpa using h
        simp only [Bool.and_eq_true, beq_iff_eq] at hslash
        exact ⟨[], by rw [hslash.1]; rfl, rfl⟩
      · exact hno
  | case6 inClass c s n hno hline hslash ih =>
      rw [scanRegex, if_neg hline, if_neg hslash] at h
      · obtain ⟨body, rfl, rfl⟩ := ih h
        refine ⟨c :: body, rfl, ?_⟩
        rw [List.length_cons]
        omega
      · exact hno

/-! ## Numbers -/

/-- A text starts with `size` characters of numbers, and `rest` stands behind them. -/
def NumberRun (s : List Char) (size : Nat) (rest : List Char) : Prop :=
  ∃ part, (∀ c ∈ part, isNumberChar c = true) ∧ s = part ++ rest ∧ size = part.length

namespace NumberRun

theorem nil (s : List Char) : NumberRun s 0 s :=
  ⟨[], by simp, rfl, rfl⟩

theorem cons (hc : isNumberChar c = true) (h : NumberRun s k rest) : NumberRun (c :: s) (k + 1) rest := by
  obtain ⟨part, hpart, rfl, rfl⟩ := h
  exact ⟨c :: part, List.forall_mem_cons.mpr ⟨hc, hpart⟩, rfl, rfl⟩

theorem append (h : NumberRun s n t) (h' : NumberRun t k rest) : NumberRun s (n + k) rest := by
  obtain ⟨part, hpart, rfl, rfl⟩ := h
  obtain ⟨part', hpart', rfl, rfl⟩ := h'
  refine ⟨part ++ part', ?_, (List.append_assoc _ _ _).symm, List.length_append.symm⟩
  intro c hc
  rcases List.mem_append.mp hc with hc | hc
  · exact hpart c hc
  · exact hpart' c hc

end NumberRun

theorem isNumberChar_of_isDigit (h : c.isDigit = true) : isNumberChar c = true := by
  simp [isNumberChar, isAsciiAlphanumeric, h]

theorem isNumberChar_of_hexDigit? (h : (hexDigit? c).isSome = true) : isNumberChar c = true := by
  have hcode : ('0' ≤ c ∧ c ≤ '9') ∨ ('a' ≤ c ∧ c ≤ 'f') ∨ ('A' ≤ c ∧ c ≤ 'F') := by
    rw [hexDigit?] at h
    split at h
    · simp_all
    · split at h
      · simp_all
      · split at h
        · simp_all
        · cases h
  have hkind : c.isAlpha = true ∨ c.isDigit = true := by
    rcases hcode with ⟨hlow, hhigh⟩ | ⟨hlow, hhigh⟩ | ⟨hlow, hhigh⟩
    · exact .inr (Bool.and_eq_true_iff.mpr ⟨decide_eq_true hlow, decide_eq_true hhigh⟩)
    · have hlower : c.isLower = true :=
        Bool.and_eq_true_iff.mpr ⟨decide_eq_true hlow, decide_eq_true (Char.le_trans hhigh (by decide))⟩
      exact .inl (Bool.or_eq_true_iff.mpr (.inr hlower))
    · have hupper : c.isUpper = true := decide_eq_true ⟨hlow, Char.le_trans hhigh (by decide)⟩
      exact .inl (Bool.or_eq_true_iff.mpr (.inl hupper))
  have hletter : isAsciiAlphanumeric c = true := Bool.or_eq_true_iff.mpr hkind
  simp [isNumberChar, hletter]

theorem scanDigits_eq {p : Char → Bool} {seen : Bool} (hp : ∀ c, p c = true → isNumberChar c = true)
    (h : scanDigits p seen s n = some (size, rest)) : ∃ k, size = n + k ∧ NumberRun s k rest := by
  induction s generalizing seen n with
  | nil =>
      obtain ⟨rfl, rfl⟩ : n = size ∧ [] = rest := by simpa [scanDigits] using h
      exact ⟨0, rfl, .nil _⟩
  | cons c s ih =>
      have hmore : ∀ seen', isNumberChar c = true → scanDigits p seen' s (n + 1) = some (size, rest) →
          ∃ k, size = n + k ∧ NumberRun (c :: s) k rest := by
        intro seen' hc h
        obtain ⟨k, rfl, hrun⟩ := ih h
        exact ⟨k + 1, by omega, hrun.cons hc⟩
      rw [scanDigits.eq_def] at h
      dsimp only at h
      split at h
      · rename_i hc
        exact hmore _ (hp c hc) h
      · split at h
        · rename_i hc
          have hunder : isNumberChar c = true := by
            rw [beq_iff_eq.mp hc]
            decide
          split at h
          · split at h
            · exact hmore _ hunder h
            · cases h
          · cases h
        · obtain ⟨rfl, rfl⟩ : n = size ∧ c :: s = rest := by simpa using h
          exact ⟨0, rfl, .nil _⟩

/-- The digits of an exponent, behind its letter and sign. -/
theorem scanExponent_digits {m : Nat} (hrun : NumberRun s m t)
    (h : (match scanDigits Char.isDigit false t 0 with
      | some (0, _) => none
      | some (k, u) => some (n + m + k, u)
      | none => none) = some (size, rest)) : ∃ k, size = n + k ∧ NumberRun s k rest := by
  split at h
  · cases h
  · rename_i k u _ hscan
    obtain ⟨rfl, rfl⟩ : n + m + k = size ∧ u = rest := by simpa using h
    obtain ⟨k', hk, hrest⟩ := scanDigits_eq (fun c => isNumberChar_of_isDigit) hscan
    obtain rfl : k = k' := by omega
    exact ⟨m + k, by omega, hrun.append hrest⟩
  · cases h

theorem scanExponent_eq (h : scanExponent n s = some (size, rest)) :
    ∃ k, size = n + k ∧ NumberRun s k rest := by
  rw [scanExponent.eq_def] at h
  split at h
  · rename_i e s
    dsimp only at h
    split at h
    · rename_i he
      have hletter : isNumberChar e = true := by
        rcases Bool.or_eq_true_iff.mp he with he | he
        · rw [beq_iff_eq.mp he]
          decide
        · rw [beq_iff_eq.mp he]
          decide
      cases s with
      | nil => exact scanExponent_digits (.cons hletter (.nil [])) h
      | cons c t =>
          dsimp only at h
          cases hsign : c == '+' || c == '-' with
          | true =>
              have hc : isNumberChar c = true := by
                simp only [Bool.or_eq_true] at hsign
                simp only [isNumberChar, Bool.or_eq_true]
                tauto
              rw [hsign] at h
              exact scanExponent_digits (.cons hletter (.cons hc (.nil t))) h
          | false =>
              rw [hsign] at h
              exact scanExponent_digits (.cons hletter (.nil (c :: t))) h
    · obtain ⟨rfl, rfl⟩ : n = size ∧ e :: s = rest := by simpa using h
      exact ⟨0, rfl, .nil _⟩
  · obtain ⟨rfl, rfl⟩ : n = size ∧ [] = rest := by simpa using h
    exact ⟨0, rfl, .nil _⟩

theorem scanFraction_eq {w : NumberScan} (h : scanFraction n s = some w) :
    ∃ k, w.size = n + k ∧ NumberRun s k w.rest := by
  rw [scanFraction] at h
  simp only [Option.bind_eq_bind, Option.bind_eq_some_iff] at h
  obtain ⟨⟨k, t⟩, hdigits, ⟨m, u⟩, hexponent, h⟩ := h
  obtain rfl := Option.some.inj h
  obtain ⟨k', hk, hrun⟩ := scanDigits_eq (fun c => isNumberChar_of_isDigit) hdigits
  obtain ⟨j, rfl, hrest⟩ := scanExponent_eq hexponent
  obtain rfl : k = k' := by omega
  exact ⟨k + j, by dsimp only; omega, hrun.append hrest⟩

theorem scanRadix_eq {p : Char → Bool} {w : NumberScan} (hp : ∀ c, p c = true → isNumberChar c = true)
    (h : scanRadix p s = some w) : ∃ k, w.size = 2 + k ∧ NumberRun s k w.rest := by
  rw [scanRadix] at h
  split at h
  · cases h
  · rename_i k t _ hdigits
    obtain rfl := Option.some.inj h
    obtain ⟨k', hk, hrun⟩ := scanDigits_eq hp hdigits
    obtain rfl : k = k' := by omega
    exact ⟨k + 1, by dsimp only; omega, hrun.append (.cons (by decide) (.nil t))⟩
  · rename_i k t _ _ hdigits
    obtain rfl := Option.some.inj h
    obtain ⟨k', hk, hrun⟩ := scanDigits_eq hp hdigits
    obtain rfl : k = k' := by omega
    exact ⟨k, by dsimp only; omega, hrun⟩
  · cases h

theorem isNumberChar_of_either {a b : Char} (ha : isNumberChar a = true) (hb : isNumberChar b = true)
    (h : (c == a || c == b) = true) : isNumberChar c = true := by
  rcases Bool.or_eq_true_iff.mp h with h | h
  · rw [beq_iff_eq.mp h]
    exact ha
  · rw [beq_iff_eq.mp h]
    exact hb

theorem isNumberChar_of_isOctal (h : isOctal c = true) : isNumberChar c = true := by
  simp only [isOctal, Bool.and_eq_true, decide_eq_true_eq] at h
  refine isNumberChar_of_isDigit ?_
  simp only [Char.isDigit, Bool.and_eq_true, decide_eq_true_eq]
  exact ⟨h.1, Char.le_trans h.2 (by decide)⟩

theorem scanNumber_run {w : NumberScan} (h : scanNumber s = some w) : NumberRun s w.size w.rest := by
  have hzero : isNumberChar '0' = true := by decide
  have hpoint : isNumberChar '.' = true := by decide
  have hbig : isNumberChar 'n' = true := by decide
  rw [scanNumber.eq_def] at h
  split at h
  · obtain ⟨k, hsize, hrun⟩ := scanFraction_eq h
    rw [hsize, Nat.add_comm]
    exact hrun.cons hpoint
  · rename_i c s
    -- A letter behind the zero names the base of the digits that follow.
    have hradix : ∀ p : Char → Bool, isNumberChar c = true → (∀ c, p c = true → isNumberChar c = true) →
        scanRadix p s = some w → NumberRun ('0' :: c :: s) w.size w.rest := by
      intro p hc hp h
      obtain ⟨k, hsize, hrun⟩ := scanRadix_eq hp h
      rw [hsize, Nat.add_comm]
      exact (hrun.cons hc).cons hzero
    split at h
    · rename_i hc
      exact hradix _ (isNumberChar_of_either (by decide) (by decide) hc) (fun c => isNumberChar_of_hexDigit?) h
    · split at h
      · rename_i hc
        exact hradix _ (isNumberChar_of_either (by decide) (by decide) hc) (fun c => isNumberChar_of_isOctal) h
      · split at h
        · rename_i hc
          exact hradix _ (isNumberChar_of_either (by decide) (by decide) hc)
            (fun c => isNumberChar_of_either hzero (by decide)) h
        · split at h
          · cases h
          · split at h
            · obtain ⟨⟨k, t⟩, hdigits, rfl⟩ := Option.map_eq_some_iff.mp h
              obtain ⟨k', hk, hrun⟩ := scanDigits_eq (fun c => isNumberChar_of_isDigit) hdigits
              obtain rfl : k = k' := by omega
              exact hrun.cons hzero
            · split at h
              · rename_i hc
                obtain ⟨k, hsize, hrun⟩ := scanFraction_eq h
                rw [hsize, beq_iff_eq.mp hc, Nat.add_comm]
                exact (hrun.cons hpoint).cons hzero
              · split at h
                · rename_i hc
                  obtain rfl := Option.some.inj h
                  rw [beq_iff_eq.mp hc]
                  exact ((NumberRun.nil s).cons hbig).cons hzero
                · obtain ⟨⟨k, t⟩, hexponent, rfl⟩ := Option.map_eq_some_iff.mp h
                  obtain ⟨k', rfl, hrun⟩ := scanExponent_eq hexponent
                  rw [Nat.add_comm]
                  exact hrun.cons hzero
  · split at h
    · cases h
    · rename_i k t hdigits
      obtain ⟨k', hk, hrun⟩ := scanDigits_eq (fun c => isNumberChar_of_isDigit) hdigits
      obtain ⟨m, hsize, hrest⟩ := scanFraction_eq h
      rw [hsize, show k + 1 + m = k' + (m + 1) by omega]
      exact hrun.append (hrest.cons hpoint)
    · rename_i k t hdigits
      obtain rfl := Option.some.inj h
      obtain ⟨k', hk, hrun⟩ := scanDigits_eq (fun c => isNumberChar_of_isDigit) hdigits
      obtain rfl : k = k' := by omega
      exact hrun.append ((NumberRun.nil t).cons hbig)
    · rename_i k t _ _ hdigits
      obtain ⟨⟨m, u⟩, hexponent, rfl⟩ := Option.map_eq_some_iff.mp h
      obtain ⟨k', hk, hrun⟩ := scanDigits_eq (fun c => isNumberChar_of_isDigit) hdigits
      obtain ⟨j, rfl, hrest⟩ := scanExponent_eq hexponent
      obtain rfl : k = k' := by omega
      exact hrun.append hrest

theorem kind_scanFraction {w : NumberScan} (h : scanFraction n s = some w) : w.kind = .number := by
  rw [scanFraction] at h
  simp only [Option.bind_eq_bind, Option.bind_eq_some_iff] at h
  obtain ⟨_, _, _, _, h⟩ := h
  rw [← Option.some.inj h]

theorem kind_scanRadix {p : Char → Bool} {w : NumberScan} (h : scanRadix p s = some w) :
    w.kind = .number ∨ w.kind = .bigint := by
  rw [scanRadix] at h
  split at h
  · cases h
  · exact .inr (by rw [← Option.some.inj h])
  · exact .inl (by rw [← Option.some.inj h])
  · cases h

theorem kind_scanNumber {w : NumberScan} (h : scanNumber s = some w) :
    w.kind = .number ∨ w.kind = .bigint := by
  rw [scanNumber.eq_def] at h
  split at h
  · exact .inl (kind_scanFraction h)
  · split at h
    · exact kind_scanRadix h
    · split at h
      · exact kind_scanRadix h
      · split at h
        · exact kind_scanRadix h
        · split at h
          · cases h
          · split at h
            · obtain ⟨_, _, rfl⟩ := Option.map_eq_some_iff.mp h
              exact .inl rfl
            · split at h
              · exact .inl (kind_scanFraction h)
              · split at h
                · exact .inr (by rw [← Option.some.inj h])
                · obtain ⟨_, _, rfl⟩ := Option.map_eq_some_iff.mp h
                  exact .inl rfl
  · split at h
    · cases h
    · exact .inl (kind_scanFraction h)
    · exact .inr (by rw [← Option.some.inj h])
    · obtain ⟨_, _, rfl⟩ := Option.map_eq_some_iff.mp h
      exact .inl rfl

/-! ## Marks -/

theorem dropMark_eq {m : List Char} (h : scanMark.dropMark m s = some rest) : s = m ++ rest := by
  induction m generalizing s with
  | nil => exact Option.some.inj h
  | cons a m ih =>
      cases s with
      | nil => cases h
      | cons c s =>
          rw [scanMark.dropMark] at h
          split at h
          · rename_i hc
            rw [ih h, beq_iff_eq.mp hc]
            rfl
          · cases h

/-- A mark that was read is one of the marks of scripts, and the text starts with it. -/
theorem scanMark_eq {m : String} (h : scanMark s = some (m, rest)) :
    s = m.toList ++ rest ∧ (m ∈ "?." :: longMarks ∨ ∃ c ∈ shortMarks, m = String.ofList [c]) := by
  rw [scanMark.eq_def] at h
  split at h
  · split at h
    · split at h
      · obtain ⟨rfl, rfl⟩ := Prod.mk.inj (Option.some.inj h)
        exact ⟨rfl, .inr ⟨'?', by decide, rfl⟩⟩
      · obtain ⟨rfl, rfl⟩ := Prod.mk.inj (Option.some.inj h)
        exact ⟨rfl, .inl (List.mem_cons_self ..)⟩
    · obtain ⟨rfl, rfl⟩ := Prod.mk.inj (Option.some.inj h)
      exact ⟨rfl, .inl (List.mem_cons_self ..)⟩
  · split at h
    · rename_i found hfound
      obtain rfl := Option.some.inj h
      obtain ⟨m', hm', hdrop⟩ := List.exists_of_findSome?_eq_some hfound
      obtain ⟨t, ht, heq⟩ := Option.map_eq_some_iff.mp hdrop
      obtain ⟨rfl, rfl⟩ := Prod.mk.inj heq
      exact ⟨dropMark_eq ht, .inl (List.mem_cons_of_mem _ hm')⟩
    · split at h
      · split at h
        · rename_i hc
          obtain ⟨rfl, rfl⟩ := Prod.mk.inj (Option.some.inj h)
          exact ⟨by simp, .inr ⟨_, by simpa using hc, rfl⟩⟩
        · cases h
      · cases h

/-! ## Tokens -/

/-- Whether the text of a token is what its lexeme says. -/
def Token.Spells (t : Token) (text : List Char) : Prop :=
  match t.lexeme with
  | .word name escaped =>
    Atom.Fits ⟨.word, text⟩ t.rest ∧ (escaped = false → text = name.toList)
  | .hash _ => Atom.Fits ⟨.word, text⟩ t.rest
  | .string _ => Atom.Fits ⟨.string, text⟩ t.rest
  | .number => Atom.Fits ⟨.number, text⟩ t.rest
  | .bigint => Atom.Fits ⟨.number, text⟩ t.rest
  | .mark m => text = m.toList ∧
      (m ∈ ["(", ")", "[", "]", "\x7b", "\x7d", "\x60"] ∨ Atom.Fits ⟨.mark, text⟩ t.rest)
  | .done => text = [] ∧ t.rest = []
  | .bad => True

/-- A token behind a gap in a text that starts at `n`. -/
structure Token.Cut (t : Token) (s : List Char) (n : Nat) (gap : List Atom) (text : List Char) : Prop where
  between : ∀ a ∈ gap, a.IsGap
  cuts : Cuts s gap t.here
  start_eq : t.start = n + extentOf gap
  here_eq : t.here = text ++ t.rest
  stop_eq : t.stop = t.start + text.length
  spells : t.Spells text

theorem markFits {m : String} (h : m ∈ "?." :: longMarks ∨ ∃ c ∈ shortMarks, m = String.ofList [c])
    (hslash : m = "/" → rest.head? ≠ some '/' ∧ rest.head? ≠ some '*') :
    m ∈ ["(", ")", "[", "]", "\x7b", "\x7d", "\x60"] ∨ Atom.Fits ⟨.mark, m.toList⟩ rest := by
  rcases h with hlong | ⟨c, hshort, rfl⟩
  · by_cases hsign : m = "/="
    · subst hsign
      exact .inr .slashSign
    · have hplain : ∀ m ∈ "?." :: longMarks, m ≠ "/=" → ∀ c ∈ m.toList, c ∈ markChars := by decide
      exact .inr (.plain (hplain m hlong hsign))
  · by_cases hc : c = '/'
    · subst hc
      obtain ⟨hline, hblock⟩ := hslash rfl
      exact .inr (.slash hline hblock)
    · have hplain : ∀ c ∈ shortMarks, c ≠ '/' →
          String.ofList [c] ∈ ["(", ")", "[", "]", "\x7b", "\x7d", "\x60"] ∨ c ∈ markChars := by decide
      rcases hplain c hshort hc with hbracket | hmark
      · exact .inl hbracket
      · refine .inr (.plain fun d hd => ?_)
        obtain rfl : d = c := by simpa using hd
        exact hmark

/-- Every token at the end of a gap starts there and ends behind its text. -/
theorem Token.readHere_spells {gap : Gap} (hclosed : gap.closed = true)
    (hcode : ∀ t, gap.rest = '/' :: t → t.head? ≠ some '/' ∧ t.head? ≠ some '*')
    (hbad : (Token.readHere bound gap).lexeme ≠ .bad) :
    ∃ text, (Token.readHere bound gap).here = gap.rest ∧ (Token.readHere bound gap).start = gap.offset ∧
      gap.rest = text ++ (Token.readHere bound gap).rest ∧
      (Token.readHere bound gap).stop = gap.offset + text.length ∧
      (Token.readHere bound gap).Spells text := by
  generalize ht : Token.readHere bound gap = t at hbad ⊢
  rw [Token.readHere.eq_def] at ht
  dsimp only at ht
  rw [hclosed] at ht
  cases hrest : gap.rest with
  | nil =>
      rw [hrest] at ht
      subst ht
      exact ⟨[], rfl, rfl, rfl, rfl, rfl, rfl⟩
  | cons c s =>
      rw [hrest] at ht hcode
      simp only [Bool.not_true, Bool.false_eq_true, if_false] at ht
      split at ht
      -- A word.
      · split at ht
        · rename_i w hscan
          obtain ⟨part, hpart, hsplit, hsize, _, hname⟩ := scanWord_eq hscan
          split at ht
          · subst ht
            exact absurd rfl hbad
          · subst ht
            refine ⟨part, rfl, rfl, hsplit, ?_, ⟨part, hpart, .inl rfl⟩, fun hplain => ?_⟩
            · rw [hsize, Nat.zero_add]
            · rw [hname hplain]
              simp
        · subst ht
          exact absurd rfl hbad
      · split at ht
        -- A private name.
        · rename_i hhash
          obtain rfl := beq_iff_eq.mp hhash
          split at ht
          · rename_i w hscan
            obtain ⟨part, hpart, hsplit, hsize, _, _⟩ := scanWord_eq hscan
            split at ht
            · subst ht
              exact absurd rfl hbad
            · subst ht
              refine ⟨'#' :: part, rfl, rfl, ?_, ?_, ⟨part, hpart, .inr rfl⟩⟩
              · rw [show s = _ from hsplit]
                rfl
              · rw [hsize, Nat.zero_add, List.length_cons]
          · subst ht
            exact absurd rfl hbad
        · split at ht
          -- A string.
          · rename_i hquote
            split at ht
            · rename_i w hscan
              obtain ⟨body, hbody, hsplit, hsize⟩ := scanString_eq hscan
              subst ht
              refine ⟨c :: (body ++ [c]), rfl, rfl, ?_, ?_, ⟨c, body, by simpa using hquote, hbody, rfl⟩⟩
              · rw [show s = _ from hsplit]
                simp
              · rw [hsize]
                simp only [List.length_cons, List.length_append, List.length_nil]
                omega
            · subst ht
              exact absurd rfl hbad
          · split at ht
            · split at ht
              · rename_i w hscan
                -- A number.
                obtain ⟨part, hpart, hsplit, hsize⟩ := scanNumber_run hscan
                split at ht
                · subst ht
                  exact absurd rfl hbad
                · subst ht
                  refine ⟨part, rfl, rfl, hsplit, by rw [hsize], ?_⟩
                  rw [Token.Spells]
                  rcases kind_scanNumber hscan with hkind | hkind
                  · rw [hkind]
                    exact hpart
                  · rw [hkind]
                    exact hpart
              · subst ht
                exact absurd rfl hbad
            · split at ht
              · subst ht
                exact absurd rfl hbad
              · split at ht
                · rename_i m u hscan
                  -- A mark, which is no slash of a comment.
                  obtain ⟨hsplit, hmark⟩ := scanMark_eq hscan
                  subst ht
                  refine ⟨m.toList, rfl, rfl, hsplit, by rw [String.length_toList], rfl, markFits hmark ?_⟩
                  rintro rfl
                  exact hcode u (by simpa using hsplit)
                · subst ht
                  exact absurd rfl hbad

/-- A token stands at the end of its gap, also one that cannot be read. -/
theorem Token.readHere_here (bound : Nat) (gap : Gap) :
    (Token.readHere bound gap).here = gap.rest ∧ (Token.readHere bound gap).start = gap.offset := by
  rw [Token.readHere.eq_def]
  dsimp only
  repeat' split
  all_goals exact ⟨rfl, rfl⟩

/-- Every token that can be moved over is cut out of its text. -/
theorem Token.exists_cut {bound n : Nat} {s : List Char} (hbad : (Token.read bound s n).lexeme ≠ .bad) :
    ∃ gap text, (Token.read bound s n).Cut s n gap text := by
  rw [Token.read] at hbad ⊢
  have hclosed : (skipGap s n false).closed = true := by
    by_contra hopen
    rw [Bool.not_eq_true] at hopen
    rw [Token.readHere.eq_def, hopen] at hbad
    exact hbad rfl
  obtain ⟨gap, hgap, hcuts, hoffset, hcode⟩ := cuts_skipGap s n false hclosed
  obtain ⟨text, hhere, hstart, hrest, hstop, hspells⟩ := Token.readHere_spells hclosed hcode hbad
  exact ⟨gap, text, hgap, by rw [hhere]; exact hcuts, by rw [hstart, hoffset], by rw [hhere]; exact hrest,
    by rw [hstop, hstart], hspells⟩

end Script
end StoryDocs
