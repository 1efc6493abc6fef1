import StoryDocs.Proofs.Script.Tokens

/-!
# What quoted texts denote

The value of a string is spelled between its quotes alone: the reader looks at nothing behind the closing
quote, and more fuel than the text has characters changes nothing.  A text put between quotes as it is denotes
itself exactly when it needs no escapes.
-/

namespace StoryDocs
namespace Script

open Text

variable {s rest body v v' literal : List Char} {quote : Char} {k n size code : Nat}

/-! ## Reading does not look behind -/

theorem bracedCode_front {value digits read : Nat}
    (h : bracedCode s value digits read = some (code, size, rest)) :
    ∃ part, s = part ++ rest ∧ size = read + part.length ∧ (digits = 0 → 2 ≤ part.length) ∧
      ∀ rest', bracedCode (part ++ rest') value digits read = some (code, size, rest') := by
  induction s generalizing value digits read with
  | nil => cases h
  | cons c s ih =>
      rw [bracedCode] at h
      split at h
      · rename_i hc
        split at h
        · cases h
        · rename_i hdigits
          obtain ⟨rfl, rfl, rfl⟩ : value = code ∧ read + 1 = size ∧ s = rest := by simpa using h
          refine ⟨[c], rfl, rfl, fun hnone => absurd (by simpa using hnone) hdigits, fun rest' => ?_⟩
          rw [List.singleton_append, bracedCode, if_pos hc, if_neg hdigits]
      · rename_i hc
        split at h
        · cases h
        · rename_i d hd
          dsimp only at h
          split at h
          · cases h
          · rename_i hle
            obtain ⟨part, rfl, rfl, _, hlocal⟩ := ih h
            refine ⟨c :: part, rfl, by rw [List.length_cons]; omega, fun _ => ?_, fun rest' => ?_⟩
            · cases part with
              | nil =>
                  -- Nothing read behind a digit would leave no closing brace.
                  have hshort := hlocal []
                  cases hshort
              | cons d part =>
                  rw [List.length_cons, List.length_cons]
                  omega
            · rw [List.cons_append, bracedCode, if_neg hc]
              simp only [hd, if_neg hle]
              exact hlocal rest'

theorem unicodeCode_front (h : unicodeCode s = some (code, size, rest)) :
    ∃ part, s = part ++ rest ∧ size = part.length ∧ 3 ≤ size ∧
      ∀ rest', unicodeCode (part ++ rest') = some (code, size, rest') := by
  rw [unicodeCode.eq_def] at h
  split at h
  · obtain ⟨part, rfl, rfl, hdigits, hlocal⟩ := bracedCode_front h
    have hlength := hdigits rfl
    refine ⟨'{' :: part, rfl, by rw [List.length_cons]; omega, by omega, fun rest' => ?_⟩
    rw [List.cons_append, unicodeCode]
    exact hlocal rest'
  · rename_i a b c d s hbrace
    simp only [Option.bind_eq_bind, Option.bind_eq_some_iff] at h
    obtain ⟨va, ha, vb, hb, vc, hc, vd, hd, h⟩ := h
    obtain ⟨rfl, rfl, rfl⟩ : ((va * 16 + vb) * 16 + vc) * 16 + vd = code ∧ 4 = size ∧ s = rest := by
      simpa using h
    refine ⟨[a, b, c, d], rfl, rfl, by omega, fun rest' => ?_⟩
    rw [List.cons_append, List.cons_append, List.cons_append, List.cons_append, List.nil_append,
      unicodeCode]
    · simp [ha, hb, hc, hd]
    · exact hbrace
  · cases h

/-- How many characters a unit adds to a value at most. -/
def StringUnit.extent : StringUnit → Nat
  | .char _ => 1
  | .surrogate _ => 3

/-- How many characters units add to a value at most. -/
def extents : List StringUnit → Nat
  | [] => 0
  | u :: us => u.extent + extents us

theorem length_unitsText_le (us : List StringUnit) : (unitsText us).length ≤ extents us := by
  fun_induction unitsText us with
  | case1 => exact Nat.le_refl _
  | case2 c us ih =>
      simp only [extents, StringUnit.extent, List.length_cons] at ih ⊢
      omega
  | case3 a b us _ ih =>
      simp only [extents, StringUnit.extent, List.length_cons] at ih ⊢
      omega
  | case4 a b us _ ih =>
      simp only [extents, StringUnit.extent, List.length_cons] at ih ⊢
      omega
  | case5 a us _ ih =>
      simp only [extents, StringUnit.extent, List.length_cons] at ih ⊢
      omega

theorem extents_append (us vs : List StringUnit) : extents (us ++ vs) = extents us + extents vs := by
  induction us with
  | nil => rw [List.nil_append, extents, Nat.zero_add]
  | cons u us ih => rw [List.cons_append, extents, extents, ih, Nat.add_assoc]

theorem extents_reverse (us : List StringUnit) : extents us.reverse = extents us := by
  induction us with
  | nil => rfl
  | cons u us ih =>
      rw [List.reverse_cons, extents_append, ih, extents, extents, extents]
      omega

theorem extent_ofCode_le (code : Nat) : (StringUnit.ofCode code).extent ≤ 3 := by
  rw [StringUnit.ofCode]
  split
  · exact Nat.le_refl 3
  · exact (by decide : 1 ≤ 3)

/-- What a character denotes behind a backslash if it starts no longer escape. -/
def singleEscape (c : Char) (s : List Char) : EscapeScan :=
  if isLineBreak c then ⟨[], 1, s, false⟩
  else
    match controlEscape? c with
    | some e => ⟨[.char e], 1, s, false⟩
    | none => ⟨[.char c], 1, s, isOctal c⟩

theorem scanEscape_single {c : Char} (hlong : c ∉ ['x', 'u', '0'])
    (hline : c = '\r' → s.head? ≠ some '\n') : scanEscape (c :: s) = some (singleEscape c s) := by
  simp only [List.mem_cons, List.not_mem_nil, or_false, not_or] at hlong
  obtain ⟨hbyte, hcode, hzero⟩ := hlong
  rw [scanEscape.eq_def, singleEscape]
  split
  · rename_i heq
    cases heq
  · rename_i heq
    exact absurd (List.cons.inj heq).1 hbyte
  · rename_i heq
    exact absurd (List.cons.inj heq).1 hbyte
  · rename_i heq
    exact absurd (List.cons.inj heq).1 hcode
  · rename_i heq
    obtain ⟨rfl, rfl⟩ := List.cons.inj heq
    exact absurd rfl (hline rfl)
  · rename_i heq
    exact absurd (List.cons.inj heq).1 hzero
  · rename_i heq
    obtain ⟨rfl, rfl⟩ := List.cons.inj heq
    split
    · rfl
    · cases controlEscape? c with
      | none => rfl
      | some e => rfl

theorem extents_singleEscape (c : Char) (s : List Char) : extents (singleEscape c s).units ≤ 1 := by
  rw [singleEscape]
  split
  · exact Nat.zero_le 1
  · split
    · exact Nat.le_refl 1
    · exact Nat.le_refl 1

theorem rest_singleEscape (c : Char) (s rest : List Char) :
    (singleEscape c s).rest = s ∧ (singleEscape c s).size = 1 ∧
      singleEscape c rest = { singleEscape c s with rest := rest } := by
  rw [singleEscape, singleEscape]
  split
  · exact ⟨rfl, rfl, rfl⟩
  · split
    · exact ⟨rfl, rfl, rfl⟩
    · exact ⟨rfl, rfl, rfl⟩

/-- An escape looks at one character behind it, and never adds more to a value than it is long. -/
theorem scanEscape_front {e : EscapeScan} (h : scanEscape s = some e) :
    ∃ part, s = part ++ e.rest ∧ e.size = part.length ∧ extents e.units ≤ e.size ∧
      ∀ d t t', e.rest = d :: t → scanEscape (part ++ d :: t') = some { e with rest := d :: t' } := by
  have hwhole := h
  rw [scanEscape.eq_def] at h
  split at h
  · cases h
  -- Two digits behind an x.
  · rename_i a b s
    simp only [Option.bind_eq_bind, Option.bind_eq_some_iff] at h
    obtain ⟨va, ha, vb, hb, h⟩ := h
    obtain rfl := Option.some.inj h
    refine ⟨['x', a, b], rfl, rfl, Nat.le_add_left 1 2, fun d t t' _ => ?_⟩
    simp [scanEscape, ha, hb]
  · cases h
  · simp only [Option.bind_eq_bind, Option.bind_eq_some_iff] at h
    obtain ⟨⟨code, size, rest⟩, hcode, h⟩ := h
    obtain rfl := Option.some.inj h
    obtain ⟨part, rfl, rfl, hpos, hlocal⟩ := unicodeCode_front hcode
    have hextent := extent_ofCode_le code
    refine ⟨'u' :: part, rfl, rfl, ?_, fun d t t' _ => ?_⟩
    · simp only [extents]
      omega
    · rw [List.cons_append, scanEscape]
      simp [hlocal]
  -- A line break of two characters.
  · obtain rfl := Option.some.inj h
    exact ⟨['\r', '\n'], rfl, rfl, Nat.zero_le 2, fun d t t' _ => rfl⟩
  · rename_i s
    split at h
    · obtain rfl := Option.some.inj h
      refine ⟨['0'], rfl, rfl, Nat.le_refl 1, fun d t t' hrest => ?_⟩
      obtain ⟨rfl, rfl⟩ := List.cons.inj hrest
      rfl
    · obtain rfl := Option.some.inj h
      exact ⟨['0'], rfl, rfl, Nat.le_refl 1, fun d t t' hrest => by cases hrest⟩
  -- A single character; one more is looked at only to see whether a line feed follows a return.
  · rename_i c s _ hbyte hcode hreturn hzero
    have hlong : c ∉ ['x', 'u', '0'] := by
      simp only [List.mem_cons, List.not_mem_nil, or_false, not_or]
      exact ⟨hbyte, hcode, hzero⟩
    have hline : c = '\r' → s.head? ≠ some '\n' := by
      intro hc hhead
      obtain ⟨t, rfl⟩ := List.head?_eq_some_iff.mp hhead
      exact hreturn t hc rfl
    rw [scanEscape_single hlong hline] at hwhole
    obtain rfl := Option.some.inj hwhole
    obtain ⟨hrest, hsize, _⟩ := rest_singleEscape c s []
    refine ⟨[c], by rw [hrest]; rfl, hsize, by rw [hsize]; exact extents_singleEscape c s, ?_⟩
    intro d t t' heq
    rw [hrest] at heq
    obtain ⟨_, _, hbehind⟩ := rest_singleEscape c s (d :: t')
    rw [List.singleton_append, scanEscape_single hlong (by rw [heq] at hline; exact hline), hbehind]

/-- An escape in a string is read the same whatever stands behind the closing quote. -/
theorem scanEscape_moved {e : EscapeScan} {part body rest : List Char} (hrest : e.rest = body ++ quote :: rest)
    (h : ∀ d t t', e.rest = d :: t → scanEscape (part ++ d :: t') = some { e with rest := d :: t' })
    (rest' : List Char) :
    scanEscape (part ++ (body ++ quote :: rest')) = some { e with rest := body ++ quote :: rest' } := by
  cases body with
  | nil => exact h quote rest rest' hrest
  | cons d body => exact h d (body ++ quote :: rest) (body ++ quote :: rest') hrest

/-- A string read up to its closing quote is read the same in front of any other text.  It adds no more to its
value than it is long, and less if it holds a backslash. -/
theorem scanString_front {w w' : StringScan} (h : scanString quote k w = some w') :
    ∃ body, w.rest = body ++ quote :: w'.rest ∧ w'.size = w.size + body.length + 1 ∧
      extents w'.units ≤ extents w.units + body.length ∧
      (extents w'.units = extents w.units + body.length → ∀ c ∈ body, c ∉ [quote, '\\', '\n', '\r']) ∧
      ∀ k' rest', body.length < k' →
        scanString quote k' { w with rest := body ++ quote :: rest' } = some { w' with rest := rest' } := by
  induction k generalizing w with
  | zero => cases h
  | succ k ih =>
      rw [scanString] at h
      split at h
      · cases h
      · rename_i c s hrest
        split at h
        · rename_i hc
          obtain rfl := Option.some.inj h
          refine ⟨[], by rw [hrest, beq_iff_eq.mp hc]; rfl, rfl, Nat.le_refl _, fun _ _ h => absurd h List.not_mem_nil,
            fun k' rest' hk => ?_⟩
          obtain ⟨k', rfl⟩ : ∃ j, k' = j + 1 := ⟨k' - 1, by simp at hk; omega⟩
          simp [scanString]
        · rename_i hquote
          split at h
          · rename_i hslash
            split at h
            · cases h
            · rename_i e hescape
              obtain ⟨body, hsplit, hsize, hextent, _, hlocal⟩ := ih h
              obtain ⟨part, rfl, hpart, hunits, hescaped⟩ := scanEscape_front hescape
              obtain rfl := beq_iff_eq.mp hslash
              change e.rest = _ at hsplit
              change w'.size = w.size + 1 + e.size + _ + 1 at hsize
              rw [extents_append, extents_reverse] at hextent
              refine ⟨'\\' :: (part ++ body), by rw [hrest, hsplit]; simp, ?_, ?_, ?_, ?_⟩
              · rw [hsize, hpart, List.length_cons, List.length_append]
                omega
              · rw [List.length_cons, List.length_append]
                omega
              · intro heq
                rw [List.length_cons, List.length_append] at heq
                omega
              · intro k' rest' hk
                rw [List.length_cons, List.length_append] at hk
                obtain ⟨k', rfl⟩ : ∃ j, k' = j + 1 := ⟨k' - 1, by omega⟩
                have hmoved := scanEscape_moved hsplit hescaped rest'
                have hbehind := hlocal k' rest' (by omega)
                simp only [List.cons_append, List.append_assoc, scanString, hquote, hslash, hmoved, if_true]
                exact hbehind
          · rename_i hslash
            split at h
            · cases h
            · rename_i hline
              obtain ⟨body, hsplit, hsize, hextent, hplain, hlocal⟩ := ih h
              change s = _ at hsplit
              change w'.size = w.size + 1 + _ + 1 at hsize
              have hunits : extents (.char c :: w.units) = extents w.units + 1 := by
                simp [extents, StringUnit.extent, Nat.add_comm]
              rw [hunits] at hextent hplain
              refine ⟨c :: body, by rw [hrest, hsplit]; rfl, ?_, ?_, ?_, ?_⟩
              · rw [hsize, List.length_cons]
                omega
              · rw [List.length_cons]
                omega
              · intro heq
                rw [List.length_cons] at heq
                refine List.forall_mem_cons.mpr ⟨?_, hplain (by omega)⟩
                simp only [Bool.or_eq_true, beq_iff_eq, not_or] at hquote hslash hline
                simp [hquote, hslash, hline]
              · intro k' rest' hk
                rw [List.length_cons] at hk
                obtain ⟨k', rfl⟩ : ∃ j, k' = j + 1 := ⟨k' - 1, by omega⟩
                have hbehind := hlocal k' rest' (by omega)
                simp only [List.cons_append, scanString, hquote, hslash, hline]
                exact hbehind

/-! ## Values -/

/-- What a quoted text denotes: it is read as a string with that value, whatever stands behind it. -/
def Denotes (literal v : List Char) : Prop :=
  ∀ (bound n : Nat) (rest : List Char), literal.length ≤ bound →
    (Token.read bound (literal ++ rest) n).lexeme = .string (String.ofList v) ∧
      (Token.read bound (literal ++ rest) n).start = n ∧
      (Token.read bound (literal ++ rest) n).stop = n + literal.length

theorem Denotes.unique (h : Denotes literal v) (h' : Denotes literal v') : v = v' := by
  obtain ⟨hread, _⟩ := h literal.length 0 [] (Nat.le_refl _)
  obtain ⟨hread', _⟩ := h' literal.length 0 [] (Nat.le_refl _)
  rw [hread] at hread'
  exact String.ofList_injective (Lexeme.string.inj hread')

/-- The token at a quote. -/
theorem Token.read_quote {bound : Nat} (hquote : IsQuote quote) : Token.read bound (quote :: s) n =
    match scanString quote bound ⟨[], 1, s, false⟩ with
    | some w =>
        ⟨.string (String.ofList (unitsText w.units.reverse)), n, n + w.size, false, w.octal, quote :: s, w.rest⟩
    | none => ⟨.bad, n, n + 1, false, true, quote :: s, s⟩ := by
  have hclass : ∀ q ∈ ['\x22', '\x27'], isIdentifierStart q = false ∧ isBlank q = false ∧ q ≠ '/' ∧
      q ≠ '\\' ∧ q ≠ '#' ∧ (q == '\x22' || q == '\x27') = true ∧ q.toNat ≠ 0xFEFF := by decide
  obtain ⟨hstart, hblank, hslash, hescape, hhash, hmark, hbom⟩ :=
    hclass quote (by rcases hquote with rfl | rfl <;> simp)
  have hcode := @Token.read_code bound n false quote [] s (skips_blank rfl) hslash hblank hbom
  rw [List.nil_append] at hcode
  rw [hcode]
  cases hscan : scanString quote bound ⟨[], 1, s, false⟩ with
  | none => simp [Token.readHere, hstart, hescape, hhash, hmark, hscan]
  | some w => simp [Token.readHere, hstart, hescape, hhash, hmark, hscan]

/-- A string read between its quotes in one place is read so everywhere. -/
theorem denotes_of_read {bound : Nat} {value : String} (hquote : IsQuote quote)
    (hlexeme : (Token.read bound (quote :: body ++ [quote] ++ rest) n).lexeme = .string value)
    (hstop : (Token.read bound (quote :: body ++ [quote] ++ rest) n).stop = n + (body.length + 2)) :
    Denotes (quote :: body ++ [quote]) value.toList := by
  have htext : ∀ rest, quote :: body ++ [quote] ++ rest = quote :: (body ++ quote :: rest) := by
    simp
  rw [htext, Token.read_quote hquote] at hlexeme hstop
  cases hscan : scanString quote bound ⟨[], 1, body ++ quote :: rest, false⟩ with
  | none =>
      rw [hscan] at hlexeme
      cases hlexeme
  | some w =>
      rw [hscan] at hlexeme hstop
      obtain ⟨body', hsplit, hsize, _, _, hlocal⟩ := scanString_front hscan
      dsimp only at hlexeme hstop hsplit hsize
      obtain rfl : body = body' := (List.append_inj hsplit (by omega)).1
      intro bound' n' rest' hbound
      simp only [List.length_append, List.length_cons, List.length_nil] at hbound ⊢
      have hmoved := hlocal bound' rest' (by omega)
      dsimp only at hmoved
      rw [htext, Token.read_quote hquote, hmoved]
      refine ⟨?_, rfl, ?_⟩
      · rw [String.ofList_toList]
        exact hlexeme
      · dsimp only
        omega

theorem flatMap_writtenChar (h : ∀ c ∈ v, c ∉ [quote, '\\', '\n', '\r']) : v.flatMap (writtenChar quote) = v := by
  induction v with
  | nil => rfl
  | cons c v ih =>
      obtain ⟨hc, hv⟩ := List.forall_mem_cons.mp h
      simp only [List.mem_cons, List.not_mem_nil, or_false, not_or] at hc
      have hplain : writtenChar quote c = [c] := by
        simp [writtenChar, hc.1, hc.2.1, hc.2.2.1, hc.2.2.2]
      rw [List.flatMap_cons, hplain, ih hv, List.singleton_append]

/-- A text between quotes denotes itself exactly if it needs no escape between them. -/
theorem denotes_quoted_iff (hquote : IsQuote quote) :
    Denotes (quote :: v ++ [quote]) v ↔ ∀ c ∈ v, c ∉ [quote, '\\', '\n', '\r'] := by
  constructor
  · intro h
    obtain ⟨hlexeme, _, hstop⟩ := h (v.length + 2) 0 [] (by simp)
    have htext : quote :: v ++ [quote] ++ [] = quote :: (v ++ [quote]) := by
      simp
    rw [htext, Token.read_quote hquote] at hlexeme hstop
    cases hscan : scanString quote (v.length + 2) ⟨[], 1, v ++ [quote], false⟩ with
    | none =>
        rw [hscan] at hlexeme
        cases hlexeme
    | some w =>
        rw [hscan] at hlexeme hstop
        simp only [List.length_append, List.length_cons, List.length_nil] at hstop
        obtain ⟨body, hsplit, hsize, hextent, hplain, _⟩ := scanString_front hscan
        dsimp only at hsplit hsize hextent hplain
        have hbody : v = body := (List.append_inj hsplit (by omega)).1
        have hvalue := String.ofList_injective (Lexeme.string.inj hlexeme)
        have hlength := length_unitsText_le w.units.reverse
        rw [hvalue, extents_reverse] at hlength
        rw [hbody] at hlength ⊢
        refine hplain ?_
        simp only [extents] at hextent ⊢
        exact Nat.le_antisymm hextent (by simpa [extents] using hlength)
  · intro h bound n rest hbound
    have hwritten : written quote v = quote :: v ++ [quote] := by
      rw [written, flatMap_writtenChar h]
    have hread := @Token.read_written bound n [] rest quote hquote .nil v (by rw [hwritten]; exact hbound)
    rw [List.nil_append, hwritten] at hread
    rw [hread]
    exact ⟨rfl, rfl, rfl⟩

end Script
end StoryDocs
