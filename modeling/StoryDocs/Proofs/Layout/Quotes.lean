import StoryDocs.Proofs.Layout.Settled
import StoryDocs.Proofs.Script.Quoted

/-!
# What a requoted string holds

A content between quotes is a sequence of parts: characters that stand for themselves, and characters behind a
backslash.  Requoting exchanges the escapes of the two quotes and keeps every other part, so the string denotes what
it denoted before.
-/

namespace StoryDocs
namespace Layout

open Script Text

variable {s u v rest content : List Char} {old new quote c : Char} {k n m code size : Nat}

/-! ## Parts -/

/-- What a content is read as between quotes: a character that stands for itself, or one behind a backslash. -/
inductive Part where
  | plain (c : Char)
  | escaped (c : Char)
  deriving DecidableEq, Repr

/-- The parts of a content, unless its last backslash has nothing behind it. -/
def parts? : List Char → Option (List Part)
  | [] => some []
  | ['\\'] => none
  | '\\' :: c :: s => (parts? s).map (Part.escaped c :: ·)
  | c :: s => (parts? s).map (Part.plain c :: ·)

/-- A part of a string between `old` quotes in a string between `new` ones. -/
def Part.exchange (old new : Char) : Part → Part
  | plain c => if c = new then escaped c else plain c
  | escaped c => if c = old then plain c else escaped c

/-- Whether a content of the given parts stands between quotes: each of these in it is behind a backslash. -/
def Delimited (quote : Char) (content : List Char) (ps : List Part) : Prop :=
  parts? content = some ps ∧ Part.plain quote ∉ ps

variable {ps : List Part}

theorem parts?_cons (hc : c ≠ '\\') (s : List Char) : parts? (c :: s) = (parts? s).map (Part.plain c :: ·) := by
  rw [parts?]
  · intro hslash
    exact absurd hslash hc
  · intro d t hslash
    exact absurd hslash hc

/-- A character in front of which a content is neither ended by a backslash nor starts with an escape. -/
theorem ne_slash (hlast : c = '\\' → s = [] → False) (hpair : ∀ d t, c = '\\' → s = d :: t → False) : c ≠ '\\' := by
  intro hc
  cases s with
  | nil => exact hlast hc rfl
  | cons d t => exact hpair d t hc rfl

theorem ne_slash_of_isQuote (hquote : IsQuote quote) : quote ≠ '\\' := by
  rcases hquote with rfl | rfl
  · decide
  · decide

theorem parts?_requoteContent (hold : old ≠ '\\') (content : List Char) :
    parts? (requoteContent old new content) = (parts? content).map (List.map (Part.exchange old new)) := by
  fun_induction requoteContent old new content with
  | case1 => rfl
  | case2 => rfl
  | case3 c s hc ih =>
      obtain rfl := beq_iff_eq.mp hc
      rw [parts?_cons hold, ih, parts?, Option.map_map, Option.map_map]
      simp [Function.comp_def, Part.exchange]
  | case4 c s hc ih =>
      have hne : c ≠ old := fun h => hc (beq_iff_eq.mpr h)
      rw [parts?, ih, parts?, Option.map_map, Option.map_map]
      simp [Function.comp_def, Part.exchange, hne]
  | case5 c s hlast hpair hc ih =>
      rw [parts?, ih, parts?_cons (ne_slash hlast hpair), Option.map_map, Option.map_map]
      simp [Function.comp_def, Part.exchange, beq_iff_eq.mp hc]
  | case6 c s hlast hpair hc ih =>
      have hplain := ne_slash hlast hpair
      have hne : c ≠ new := fun h => hc (beq_iff_eq.mpr h)
      rw [parts?_cons hplain, ih, parts?_cons hplain, Option.map_map, Option.map_map]
      simp [Function.comp_def, Part.exchange, hne]

/-- No quote of a new kind is left without a backslash. -/
theorem exchange_ne_plain (hne : new ≠ old) (p : Part) : p.exchange old new ≠ .plain new := by
  cases p with
  | plain c =>
      rw [Part.exchange]
      split
      · simp
      · rename_i hc
        simpa using hc
  | escaped c =>
      rw [Part.exchange]
      split
      · rename_i hc
        simpa [hc] using hne.symm
      · simp

/-! ## Values -/

/-- Two texts that differ as the rest of a string between `old` quotes and that of the requoted string do: quotes are
escaped or not as they have to be. -/
inductive Exchanged (old new : Char) (rest : List Char) : List Char → List Char → Prop
  | close : Exchanged old new rest (old :: rest) (new :: rest)
  | plain {c : Char} {s u : List Char} (hc : c ∉ ['\\', old, new]) (h : Exchanged old new rest s u) :
      Exchanged old new rest (c :: s) (c :: u)
  | escape (c : Char) {s u : List Char} (h : Exchanged old new rest s u) :
      Exchanged old new rest ('\\' :: c :: s) ('\\' :: c :: u)
  | bare {s u : List Char} (h : Exchanged old new rest s u) : Exchanged old new rest ('\\' :: old :: s) (old :: u)
  | guard {s u : List Char} (h : Exchanged old new rest s u) : Exchanged old new rest (new :: s) ('\\' :: new :: u)

namespace Exchanged

theorem symm (h : Exchanged old new rest s u) : Exchanged new old rest u s := by
  induction h with
  | close => exact .close
  | plain hc _ ih =>
      simp only [List.mem_cons, List.not_mem_nil, or_false, not_or] at hc
      exact .plain (by simp [hc.1, hc.2.1, hc.2.2]) ih
  | escape c _ ih => exact .escape c ih
  | bare _ ih => exact .guard ih
  | guard _ ih => exact .bare ih

theorem of_requoteContent (hne : new ≠ old) (hnew : new ≠ '\\') (hold : old ≠ '\\') (h : Delimited old content ps) :
    Exchanged old new rest (content ++ old :: rest) (requoteContent old new content ++ new :: rest) := by
  obtain ⟨hparts, hplain⟩ := h
  induction content using requoteContent.induct old new generalizing ps with
  | case1 => exact .close
  | case2 => cases hparts
  | case3 c s hc ih =>
      obtain rfl := beq_iff_eq.mp hc
      obtain ⟨qs, hqs, rfl⟩ := Option.map_eq_some_iff.mp hparts
      rw [requoteContent, if_pos hc]
      exact .bare (ih hqs fun h => hplain (List.mem_cons_of_mem _ h))
  | case4 c s hc ih =>
      obtain ⟨qs, hqs, rfl⟩ := Option.map_eq_some_iff.mp hparts
      rw [requoteContent, if_neg hc]
      exact .escape c (ih hqs fun h => hplain (List.mem_cons_of_mem _ h))
  | case5 c s hlast hpair hc ih =>
      obtain rfl := beq_iff_eq.mp hc
      rw [parts?_cons hnew] at hparts
      obtain ⟨qs, hqs, rfl⟩ := Option.map_eq_some_iff.mp hparts
      rw [requoteContent, if_pos hc]
      · exact .guard (ih hqs fun h => hplain (List.mem_cons_of_mem _ h))
      · exact hlast
      · exact hpair
  | case6 c s hlast hpair hc ih =>
      have hbare := ne_slash hlast hpair
      rw [parts?_cons hbare] at hparts
      obtain ⟨qs, hqs, rfl⟩ := Option.map_eq_some_iff.mp hparts
      have hquote : c ≠ old := fun h => hplain (by rw [h]; exact List.mem_cons_self)
      have hother : c ≠ new := fun h => hc (beq_iff_eq.mpr h)
      rw [requoteContent, if_neg hc]
      · exact .plain (by simp [hbare, hquote, hother]) (ih hqs fun h => hplain (List.mem_cons_of_mem _ h))
      · exact hlast
      · exact hpair

theorem ne_nil (h : Exchanged old new rest s u) : ∃ c t, u = c :: t := by
  cases h with
  | close => exact ⟨_, _, rfl⟩
  | plain _ _ => exact ⟨_, _, rfl⟩
  | escape _ _ => exact ⟨_, _, rfl⟩
  | bare _ => exact ⟨_, _, rfl⟩
  | guard _ => exact ⟨_, _, rfl⟩

section Reading

variable (hold : IsQuote old) (hnew : IsQuote new)
include hold hnew

/-- A character other than a quote and a backslash stands in both texts. -/
theorem exists_cons (hc : c ∉ ['\\', '\x22', '\x27']) (h : Exchanged old new rest (c :: s) u) :
    ∃ t, u = c :: t ∧ Exchanged old new rest s t := by
  have hquotes : ∀ q, IsQuote q → q ∈ ['\\', '\x22', '\x27'] := by
    rintro q (rfl | rfl)
    · decide
    · decide
  cases h with
  | close => exact absurd (hquotes _ hold) hc
  | plain _ h => exact ⟨_, rfl, h⟩
  | escape _ _ => exact absurd List.mem_cons_self hc
  | bare _ => exact absurd List.mem_cons_self hc
  | guard _ => exact absurd (hquotes _ hnew) hc

theorem exists_digit {value : Nat} (hc : hexDigit? c = some value) (h : Exchanged old new rest (c :: s) u) :
    ∃ t, u = c :: t ∧ Exchanged old new rest s t := by
  refine exists_cons hold hnew ?_ h
  intro hmem
  have hnone : ∀ d ∈ ['\\', '\x22', '\x27'], hexDigit? d = none := by decide
  rw [hnone c hmem] at hc
  cases hc

theorem exists_bracedCode {value digits read : Nat} (h : Exchanged old new rest s u)
    (hcode : bracedCode s value digits read = some (code, size, v)) :
    ∃ t, bracedCode u value digits read = some (code, size, t) ∧ Exchanged old new rest v t := by
  induction s generalizing u value digits read with
  | nil => cases hcode
  | cons c s ih =>
      rw [bracedCode] at hcode
      split at hcode
      · rename_i hc
        split at hcode
        · cases hcode
        · rename_i hdigits
          obtain ⟨rfl, rfl, rfl⟩ : value = code ∧ read + 1 = size ∧ s = v := by simpa using hcode
          obtain ⟨t, rfl, ht⟩ := exists_cons hold hnew (by rw [beq_iff_eq.mp hc]; decide) h
          refine ⟨t, ?_, ht⟩
          rw [bracedCode, if_pos hc, if_neg hdigits]
      · rename_i hc
        split at hcode
        · cases hcode
        · rename_i d hd
          dsimp only at hcode
          split at hcode
          · cases hcode
          · rename_i hle
            obtain ⟨t, rfl, ht⟩ := exists_digit hold hnew hd h
            obtain ⟨t', ht', hrest⟩ := ih ht hcode
            refine ⟨t', ?_, hrest⟩
            rw [bracedCode, if_neg hc]
            simp only [hd, if_neg hle]
            exact ht'

theorem exists_unicodeCode (h : Exchanged old new rest s u) (hcode : unicodeCode s = some (code, size, v)) :
    ∃ t, unicodeCode u = some (code, size, t) ∧ Exchanged old new rest v t := by
  rw [unicodeCode.eq_def] at hcode
  split at hcode
  · obtain ⟨t, rfl, ht⟩ := exists_cons hold hnew (by decide) h
    rw [unicodeCode]
    exact exists_bracedCode hold hnew ht hcode
  · rename_i a b c d s hbrace
    simp only [Option.bind_eq_bind, Option.bind_eq_some_iff] at hcode
    obtain ⟨va, ha, vb, hb, vc, hc, vd, hd, hcode⟩ := hcode
    obtain ⟨rfl, rfl, rfl⟩ : ((va * 16 + vb) * 16 + vc) * 16 + vd = code ∧ 4 = size ∧ s = v := by
      simpa using hcode
    obtain ⟨ta, rfl, hta⟩ := exists_digit hold hnew ha h
    obtain ⟨tb, rfl, htb⟩ := exists_digit hold hnew hb hta
    obtain ⟨tc, rfl, htc⟩ := exists_digit hold hnew hc htb
    obtain ⟨td, rfl, htd⟩ := exists_digit hold hnew hd htc
    refine ⟨td, ?_, htd⟩
    rw [unicodeCode]
    · simp [ha, hb, hc, hd]
    · exact hbrace
  · cases hcode

/-- An escape denotes the same in both texts. -/
theorem exists_scanEscape {e : EscapeScan} (h : Exchanged old new rest s u) (he : scanEscape (c :: s) = some e) :
    ∃ e', scanEscape (c :: u) = some e' ∧ e'.units = e.units ∧ Exchanged old new rest e.rest e'.rest := by
  have hwhole := he
  rw [scanEscape.eq_def] at he
  split at he
  · rename_i hs
    cases hs
  · rename_i a b s hs
    obtain ⟨rfl, rfl⟩ := List.cons.inj hs
    simp only [Option.bind_eq_bind, Option.bind_eq_some_iff] at he
    obtain ⟨va, ha, vb, hb, he⟩ := he
    obtain rfl := Option.some.inj he
    obtain ⟨ta, rfl, hta⟩ := exists_digit hold hnew ha h
    obtain ⟨tb, rfl, htb⟩ := exists_digit hold hnew hb hta
    refine ⟨⟨[.char (Char.ofNat (va * 16 + vb))], 3, tb, false⟩, ?_, rfl, htb⟩
    simp [scanEscape, ha, hb]
  · cases he
  · rename_i hs
    obtain ⟨rfl, rfl⟩ := List.cons.inj hs
    simp only [Option.bind_eq_bind, Option.bind_eq_some_iff] at he
    obtain ⟨⟨code, size, v⟩, hcode, he⟩ := he
    obtain rfl := Option.some.inj he
    obtain ⟨t, ht, hrest⟩ := exists_unicodeCode hold hnew h hcode
    refine ⟨⟨[.ofCode code], size + 1, t, false⟩, ?_, rfl, hrest⟩
    simp [scanEscape, ht]
  · rename_i hs
    obtain ⟨rfl, rfl⟩ := List.cons.inj hs
    obtain rfl := Option.some.inj he
    obtain ⟨t, rfl, ht⟩ := exists_cons hold hnew (by decide) h
    exact ⟨_, rfl, rfl, ht⟩
  · rename_i hs
    obtain ⟨rfl, rfl⟩ := List.cons.inj hs
    obtain ⟨d, t, rfl⟩ := h.ne_nil
    obtain ⟨d', t', rfl⟩ := h.symm.ne_nil
    obtain rfl := Option.some.inj he
    exact ⟨_, rfl, rfl, h⟩
  · rename_i c' s' hempty hbyte hcode hreturn hzero hs
    obtain ⟨rfl, rfl⟩ := List.cons.inj hs
    have hlong : c ∉ ['x', 'u', '0'] := by
      simp only [List.mem_cons, List.not_mem_nil, or_false, not_or]
      exact ⟨hbyte, hcode, hzero⟩
    have hline : c = '\r' → s.head? ≠ some '\n' := by
      intro hc hhead
      obtain ⟨t, rfl⟩ := List.head?_eq_some_iff.mp hhead
      exact hreturn t hc rfl
    -- A line feed behind the escape would stand in both texts.
    have hline' : c = '\r' → u.head? ≠ some '\n' := by
      intro hc hhead
      obtain ⟨t, rfl⟩ := List.head?_eq_some_iff.mp hhead
      obtain ⟨t', rfl, _⟩ := exists_cons hnew hold (by decide) h.symm
      exact hline hc rfl
    rw [scanEscape_single hlong hline] at hwhole
    obtain rfl := Option.some.inj hwhole
    obtain ⟨hrest, _, hmoved⟩ := rest_singleEscape c s u
    refine ⟨singleEscape c u, scanEscape_single hlong hline', by rw [hmoved], ?_⟩
    rw [hrest, hmoved]
    exact h

omit hold hnew in
theorem scanEscape_quote (hquote : IsQuote quote) (s : List Char) :
    scanEscape (quote :: s) = some ⟨[.char quote], 1, s, false⟩ := by
  rcases hquote with rfl | rfl
  · rfl
  · rfl

/-- A string is read up to the same place in both texts, and with the same value. -/
theorem exists_scanString {w : StringScan} {us : List StringUnit} {octal : Bool} (hne : new ≠ old)
    (h : Exchanged old new rest s u) (hscan : scanString old k ⟨us, n, s, octal⟩ = some w) :
    w.rest = rest ∧ ∀ m octal', ∃ w', scanString new k ⟨us, m, u, octal'⟩ = some w' ∧
      w'.units = w.units ∧ w'.rest = rest := by
  have hclass : ∀ q, IsQuote q → (q == '\\') = false ∧ (q == '\n' || q == '\r') = false := by
    rintro q (rfl | rfl)
    · decide
    · decide
  have hbeq : ∀ {a b : Char}, a ≠ b → (a == b) = false := fun h => beq_eq_false_iff_ne.mpr h
  obtain ⟨holdslash, holdline⟩ := hclass old hold
  obtain ⟨hnewslash, hnewline⟩ := hclass new hnew
  have hslash : ∀ {q : Char}, (q == '\\') = false → ('\\' == q) = false := fun h =>
    hbeq (beq_eq_false_iff_ne.mp h).symm
  -- The induction is on the bound of the scan; the cases are the ways in which the two texts may go on.
  induction k generalizing s u us n octal with
  | zero => cases hscan
  | succ k ih =>
      rw [scanString] at hscan
      cases h with
      | close =>
          dsimp only at hscan
          rw [if_pos (beq_self_eq_true old)] at hscan
          obtain rfl := Option.some.inj hscan
          refine ⟨rfl, fun m octal' => ⟨⟨us, m + 1, rest, octal'⟩, ?_, rfl, rfl⟩⟩
          simp [scanString]
      | @plain c s u hc h =>
          simp only [List.mem_cons, List.not_mem_nil, or_false, not_or] at hc
          dsimp only at hscan
          rw [hbeq hc.2.1, hbeq hc.1, if_neg (by decide), if_neg (by decide)] at hscan
          split at hscan
          · cases hscan
          · rename_i hline
            obtain ⟨hend, hbehind⟩ := ih h hscan
            refine ⟨hend, fun m octal' => ?_⟩
            obtain ⟨w', hw', hunits, hrest⟩ := hbehind (m + 1) octal'
            refine ⟨w', ?_, hunits, hrest⟩
            simp only [scanString, hbeq hc.2.2, hbeq hc.1, hline]
            exact hw'
      | @escape c s u h =>
          dsimp only at hscan
          rw [hslash holdslash, if_neg (by decide), if_pos (by decide)] at hscan
          split at hscan
          · cases hscan
          · rename_i e he
            obtain ⟨e', he', heunits, hbehind⟩ := exists_scanEscape hold hnew h he
            obtain ⟨hend, hbehind⟩ := ih hbehind hscan
            refine ⟨hend, fun m octal' => ?_⟩
            obtain ⟨w', hw', hunits, hrest⟩ := hbehind (m + 1 + e'.size) (octal' || e'.octal)
            refine ⟨w', ?_, hunits, hrest⟩
            simp only [scanString, hslash hnewslash, he', heunits]
            exact hw'
      | @bare s u h =>
          dsimp only at hscan
          rw [hslash holdslash, if_neg (by decide), if_pos (by decide), scanEscape_quote hold] at hscan
          obtain ⟨hend, hbehind⟩ := ih h hscan
          refine ⟨hend, fun m octal' => ?_⟩
          obtain ⟨w', hw', hunits, hrest⟩ := hbehind (m + 1) octal'
          refine ⟨w', ?_, hunits, hrest⟩
          simp only [scanString, hbeq hne.symm, holdslash, holdline]
          exact hw'
      | @guard s u h =>
          dsimp only at hscan
          rw [hbeq hne, hnewslash, hnewline, if_neg (by decide), if_neg (by decide), if_neg (by decide)] at hscan
          obtain ⟨hend, hbehind⟩ := ih h hscan
          refine ⟨hend, fun m octal' => ?_⟩
          obtain ⟨w', hw', hunits, hrest⟩ := hbehind (m + 1 + 1) (octal' || false)
          refine ⟨w', ?_, hunits, hrest⟩
          simp only [scanString, hslash hnewslash, scanEscape_quote hnew]
          exact hw'

end Reading

/-- Strings whose quotes are exchanged denote the same. -/
theorem denotes {value inner : List Char} (hold : IsQuote old) (hnew : IsQuote new) (hne : new ≠ old)
    (h : Exchanged old new [] (content ++ [old]) (inner ++ [new])) (hvalue : Denotes (old :: content ++ [old]) value) :
    Denotes (new :: inner ++ [new]) value := by
  -- Both are read with one bound.
  obtain ⟨bound, hbound⟩ : ∃ bound, bound = content.length + inner.length + 2 := ⟨_, rfl⟩
  have hfits : (old :: content ++ [old]).length ≤ bound := by
    simp only [List.length_append, List.length_cons, List.length_nil]
    omega
  obtain ⟨hlexeme, _, _⟩ := hvalue bound 0 [] hfits
  have htext : ∀ (q : Char) (s : List Char), q :: s ++ [q] ++ [] = q :: (s ++ [q]) := by simp
  rw [htext, Token.read_quote hold] at hlexeme
  cases hscan : scanString old bound ⟨[], 1, content ++ [old], false⟩ with
  | none =>
      rw [hscan] at hlexeme
      cases hlexeme
  | some w =>
      rw [hscan] at hlexeme
      obtain ⟨_, hbehind⟩ := exists_scanString hold hnew hne h hscan
      obtain ⟨w', hscan', hunits, hrest⟩ := hbehind 1 false
      obtain ⟨body, hsplit, hsize, _⟩ := scanString_front hscan'
      dsimp only at hlexeme hsplit hsize
      rw [hrest] at hsplit
      obtain rfl := List.append_cancel_right hsplit
      have hread : Token.read bound (new :: inner ++ [new] ++ []) 0 = _ :=
        (congrArg (Token.read bound · 0) (htext new inner)).trans (Token.read_quote hnew)
      rw [hscan'] at hread
      have hlexeme' : (Token.read bound (new :: inner ++ [new] ++ []) 0).lexeme = .string (String.ofList value) := by
        rw [hread, ← hlexeme, ← hunits]
      have hstop : (Token.read bound (new :: inner ++ [new] ++ []) 0).stop = 0 + (inner.length + 2) := by
        rw [hread]
        dsimp only
        omega
      have hdenotes := denotes_of_read hnew hlexeme' hstop
      rwa [String.toList_ofList] at hdenotes

end Exchanged

/-! ## Requoting -/

/-- A content that stands between its quotes is requoted to one that stands between the quotes that occur less often
in it, or the preferred ones.  It has the same parts but for the escapes of the two quotes, the string denotes what it
denoted, and requoted again it stays as it is. -/
theorem requote_exchanges (hquote : IsQuote quote) (hdelimited : Delimited quote content ps) (preferSingle : Bool) :
    ∃ q inner, requote content quote preferSingle = q :: inner ++ [q] ∧ IsQuote q ∧
      q = (if content.count (quotePair preferSingle).2 < content.count (quotePair preferSingle).1
        then (quotePair preferSingle).2 else (quotePair preferSingle).1) ∧
      Delimited q inner (if q = quote then ps else ps.map (Part.exchange quote q)) ∧
      (∀ value, Denotes (q :: inner ++ [q]) value ↔ Denotes (quote :: content ++ [quote]) value) ∧
      requote inner q preferSingle = q :: inner ++ [q] := by
  obtain ⟨q, inner, hrequote, hagain⟩ := exists_requote_again content quote preferSingle
  obtain ⟨hq, hinner⟩ := List.cons.inj hrequote
  have hchosen := isQuote_chosenQuote content preferSingle
  rw [hq] at hinner hchosen
  have hcontent := List.append_cancel_right hinner
  refine ⟨q, inner, hrequote, hchosen, hq.symm, ?_, ?_, hagain⟩
  -- The parts: the same ones between the same quotes, else with the escapes of the two quotes exchanged.
  · obtain ⟨hparts, hplain⟩ := hdelimited
    split at hcontent
    · rename_i hsame
      rw [if_pos (beq_iff_eq.mp hsame), ← hcontent, beq_iff_eq.mp hsame]
      exact ⟨hparts, hplain⟩
    · rename_i hother
      have hne : q ≠ quote := fun h => hother (beq_iff_eq.mpr h)
      rw [if_neg hne, ← hcontent]
      refine ⟨by rw [parts?_requoteContent (ne_slash_of_isQuote hquote), hparts]; rfl, ?_⟩
      intro hmem
      obtain ⟨p, _, hp⟩ := List.mem_map.mp hmem
      exact exchange_ne_plain hne p hp
  · intro value
    split at hcontent
    · rename_i hsame
      rw [← hcontent, beq_iff_eq.mp hsame]
    · rename_i hother
      have hne : q ≠ quote := fun h => hother (beq_iff_eq.mpr h)
      have hexchanged := @Exchanged.of_requoteContent [] content quote q ps hne (ne_slash_of_isQuote hchosen)
        (ne_slash_of_isQuote hquote) hdelimited
      rw [hcontent] at hexchanged
      constructor
      · exact hexchanged.symm.denotes hchosen hquote hne.symm
      · exact hexchanged.denotes hquote hchosen hne

/-- Both kinds of quotes in one content, each of which is escaped in the other kind of string only. -/
theorem requote_exchanges_both : IsQuote '\x27' ∧
    Delimited '\x27' ['a', '\\', '\x27', '\x22'] [.plain 'a', .escaped '\x27', .plain '\x22'] ∧
    ∃ q inner, requote ['a', '\\', '\x27', '\x22'] '\x27' false = q :: inner ++ [q] ∧ q = '\x22' ∧
      Delimited q inner [.plain 'a', .plain '\x27', .escaped '\x22'] ∧
      ∀ value, Denotes (q :: inner ++ [q]) value ↔
        Denotes ['\x27', 'a', '\\', '\x27', '\x22', '\x27'] value := by
  have hdelimited : Delimited '\x27' ['a', '\\', '\x27', '\x22'] [.plain 'a', .escaped '\x27', .plain '\x22'] :=
    ⟨rfl, by decide⟩
  obtain ⟨q, inner, hrequote, _, hq, hinner, hvalue, _⟩ := requote_exchanges (Or.inr rfl) hdelimited false
  obtain rfl : q = '\x22' := hq
  exact ⟨Or.inr rfl, hdelimited, _, inner, hrequote, rfl, hinner, hvalue⟩

end Layout
end StoryDocs
