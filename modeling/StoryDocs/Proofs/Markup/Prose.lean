import StoryDocs.Proofs.Markup.Lookahead
import StoryDocs.Proofs.Text.Slice

/-!
# Pieces of prose

Where a piece of prose ends: with a character or an escaped one, with the backticks of a code span, with the
bracket of a comment or link, before the line feed behind a fenced block, or with the text.  A piece of prose
is one before every text that is alike to the one behind it.
-/

namespace StoryDocs
namespace Markup

open Text

theorem Closes.of_eq {last : Char} {n m : Nat} {s : List Char} (h : Closes last n s) (hsize : n = m) :
    Closes last m s :=
  hsize ▸ h

/-! ## Code spans -/

section CodeSpans

variable {run seen n : Nat} {s t u : List Char}

/-- A code span ends with a backtick. -/
theorem closingRun?_closes (h : closingRun? run seen s = some n) :
    (n = 0 ∧ seen = run) ∨ Closes '\x60' n s ∨ run = 0 := by
  induction s generalizing seen n with
  | nil =>
      simp only [closingRun?, beq_iff_eq] at h
      split at h
      · rename_i hseen
        exact .inl ⟨(Option.some.inj h).symm, hseen⟩
      · cases h
  | cons c s ih =>
      by_cases hc : c = '\x60'
      · subst hc
        rw [closingRun?_tick] at h
        obtain ⟨m, hm, rfl⟩ := Option.map_eq_some_iff.mp h
        rcases ih hm with ⟨rfl, _⟩ | hcloses | hzero
        · exact .inr (.inl (.head _ s))
        · exact .inr (.inl (hcloses.cons _))
        · exact .inr (.inr hzero)
      · rw [closingRun?_of_ne hc] at h
        split at h
        · rename_i hseen
          exact .inl ⟨(Option.some.inj h).symm, hseen⟩
        · obtain ⟨m, hm, rfl⟩ := Option.map_eq_some_iff.mp h
          rcases ih hm with ⟨_, hzero⟩ | hcloses | hzero
          · exact .inr (.inr hzero.symm)
          · exact .inr (.inl (hcloses.cons c))
          · exact .inr (.inr hzero)

/-- A match that ends with `u` is one whatever comes behind, if that goes on alike. -/
theorem closingRun?_inside (hhead : s.head? = t.head?)
    (h : closingRun? run seen (u ++ s) = some u.length) :
    closingRun? run seen (u ++ t) = some u.length := by
  induction u generalizing seen with
  | nil =>
      cases s with
      | nil =>
          have ht : t = [] := by simpa using hhead.symm
          rw [ht]
          exact h
      | cons c s =>
          obtain ⟨t, rfl⟩ : ∃ t', t = c :: t' := by
            cases t with
            | nil => simp at hhead
            | cons d t => exact ⟨t, by simpa using hhead.symm⟩
          by_cases hc : c = '\x60'
          · subst hc
            simp [closingRun?_tick] at h
          · simp only [List.nil_append, closingRun?_of_ne hc] at h ⊢
            split at h
            · rename_i hseen
              rw [if_pos hseen]
              rfl
            · simp at h
  | cons d u ih =>
      by_cases hd : d = '\x60'
      · subst hd
        rw [List.cons_append, closingRun?_tick] at h ⊢
        obtain ⟨m, hm, hlength⟩ := Option.map_eq_some_iff.mp h
        rw [List.length_cons, Nat.add_right_cancel_iff] at hlength
        rw [ih (hlength ▸ hm)]
        rfl
      · rw [List.cons_append, closingRun?_of_ne hd] at h ⊢
        split at h
        · simp at h
        · rename_i hseen
          obtain ⟨m, hm, hlength⟩ := Option.map_eq_some_iff.mp h
          rw [List.length_cons, Nat.add_right_cancel_iff] at hlength
          rw [if_neg hseen, ih (hlength ▸ hm)]
          rfl

/-- A text that starts with a backtick starts with a run of them. -/
theorem exists_ticks (s : List Char) :
    ∃ count rest, '\x60' :: s = List.replicate (count + 1) '\x60' ++ rest ∧
      rest.head? ≠ some '\x60' := by
  induction s with
  | nil => exact ⟨0, [], rfl, by simp⟩
  | cons c s ih =>
      by_cases hc : c = '\x60'
      · obtain ⟨count, rest, hs, hrest⟩ := ih
        exact ⟨count + 1, rest, by rw [hc, hs]; rfl, hrest⟩
      · exact ⟨0, c :: s, rfl, by simpa using hc⟩

/-- A run ends where another character stands behind it. -/
theorem takeWhile_replicate_append {c : Char} (count : Nat) {rest : List Char} (hrest : rest.head? ≠ some c) :
    (List.replicate count c ++ rest).takeWhile (· == c) = List.replicate count c := by
  rw [List.takeWhile_append_of_pos (by simp)]
  cases rest with
  | nil => simp
  | cons d rest =>
      have hd : d ≠ c := by simpa using hrest
      simp [hd]

theorem codeSpanLength_eq {rest : List Char} (count : Nat) (hrest : rest.head? ≠ some '\x60') :
    codeSpanLength (List.replicate count '\x60' ++ rest) =
      count + (closingRun? count 0 rest).getD 0 := by
  have hticks := takeWhile_replicate_append count hrest
  have hdrop : (List.replicate count '\x60' ++ rest).drop count = rest := by
    rw [List.drop_append_of_le_length (by simp)]
    simp
  unfold codeSpanLength
  rw [hticks]
  simp only [List.length_replicate]
  rw [hdrop]

/-- A code span ends with a backtick. -/
theorem codeSpanLength_closes (s : List Char) :
    Closes '\x60' (codeSpanLength ('\x60' :: s)) ('\x60' :: s) := by
  obtain ⟨count, rest, hs, hrest⟩ := exists_ticks s
  rw [hs, codeSpanLength_eq _ hrest]
  have hopening : Closes '\x60' (count + 1) (List.replicate (count + 1) '\x60' ++ rest) :=
    ⟨List.replicate count '\x60', rest, by simp [List.replicate_succ'], by simp⟩
  cases hmatch : closingRun? (count + 1) 0 rest with
  | none => exact hopening
  | some m =>
      rw [Option.getD_some]
      rcases closingRun?_closes hmatch with ⟨_, hzero⟩ | hcloses | hzero
      · exact absurd hzero (by omega)
      · refine Closes.of_drop ?_
        rwa [List.drop_append_of_le_length (by simp), List.drop_of_length_le (by simp), List.nil_append]
      · exact absurd hzero (by omega)

/-- A code span is one before every text that goes on alike. -/
theorem codeSpanLength_alike (halike : Alike s t)
    (h : codeSpanLength (('\x60' :: u) ++ s) = ('\x60' :: u).length) :
    codeSpanLength (('\x60' :: u) ++ t) = ('\x60' :: u).length := by
  obtain ⟨count, rest, hu, hrest⟩ := exists_ticks u
  rw [hu, List.append_assoc] at h ⊢
  -- The run does not go on behind `u`, or the span would be longer.
  have hnext : (rest ++ s).head? ≠ some '\x60' := by
    cases rest with
    | cons c rest => exact hrest
    | nil =>
        intro hhead
        obtain ⟨s, rfl⟩ : ∃ s', s = '\x60' :: s' := List.head?_eq_some_iff.mp hhead
        obtain ⟨more, rest', hs, hrest'⟩ := exists_ticks s
        rw [List.nil_append, hs, ← List.append_assoc, List.replicate_append_replicate,
          codeSpanLength_eq _ hrest', List.append_nil, List.length_replicate] at h
        omega
  have hhead : (rest ++ s).head? = (rest ++ t).head? := (halike.ahead.append rest).head?
  rw [codeSpanLength_eq _ hnext] at h
  rw [codeSpanLength_eq _ (hhead ▸ hnext)]
  have hlength : (closingRun? (count + 1) 0 (rest ++ s)).getD 0 = rest.length := by
    simpa using h
  cases hmatch : closingRun? (count + 1) 0 (rest ++ s) with
  | none =>
      rw [hmatch] at hlength
      have hnil : rest = [] := List.length_eq_zero_iff.mp hlength.symm
      subst hnil
      have hnone := halike.runs (count + 1) 0 (by omega) hmatch
      rw [List.nil_append, hnone]
      simp
  | some m =>
      rw [hmatch, Option.getD_some] at hlength
      subst hlength
      rw [closingRun?_inside halike.ahead.head? hmatch]
      simp

end CodeSpans

/-! ## Comments and links -/

section Brackets

variable {s t u : List Char} {n : Nat}

/-- A comment ends with a bracket or with the text. -/
theorem commentLength_ends (s : List Char) :
    commentLength s = s.length ∨ Closes '>' (commentLength s) s := by
  unfold commentLength lengthThrough
  split
  · rename_i m hfind
    obtain ⟨before, behind, hs, rfl⟩ := exists_of_find?_eq_some hfind
    exact .inr ⟨before ++ ['-', '-'], behind, by simp [hs], by simp⟩
  · exact .inl rfl

/-- A comment is one whatever comes behind it, unless it ends with the text. -/
theorem commentLength_append (hend : s = [] → t = [])
    (h : commentLength (u ++ s) = u.length) : commentLength (u ++ t) = u.length := by
  unfold commentLength lengthThrough at h ⊢
  split at h
  · rename_i m hfind
    rw [find?_inside hfind (by omega) (by decide)]
    exact h
  · rename_i hfind
    have hs : s = [] := by
      rw [List.length_append] at h
      exact List.length_eq_zero_iff.mp (by omega)
    rw [hs] at hfind
    rw [hend hs, hfind, List.append_nil]

theorem schemeLinkLength?_closes (h : schemeLinkLength? s = some n) : Closes '>' n s := by
  unfold schemeLinkLength? at h
  split at h
  · cases h
  · rename_i c s
    dsimp only at h
    split at h
    · cases h
    · split at h
      · rename_i t ht
        split at h
        · rename_i hhead
          cases h
          obtain ⟨r, hr⟩ := List.head?_eq_some_iff.mp (beq_iff_eq.mp hhead)
          have htarget := Closes.of_drop (hr ▸ Closes.head '>' r)
          have hscheme := Closes.of_drop (ht ▸ htarget.cons ':')
          exact (hscheme.cons c).of_eq (by omega)
        · cases h
      · cases h

theorem mailLinkLength?_closes (h : mailLinkLength? s = some n) : Closes '>' n s := by
  unfold mailLinkLength? at h
  dsimp only at h
  split at h
  · cases h
  · split at h
    · rename_i t ht
      split at h
      · rename_i hhost
        rw [Bool.and_eq_true] at hhost
        cases h
        obtain ⟨r, hr⟩ := List.head?_eq_some_iff.mp (beq_iff_eq.mp hhost.2)
        have hbehind := Closes.of_drop (hr ▸ Closes.head '>' r)
        exact (Closes.of_drop (ht ▸ hbehind.cons '@')).of_eq (by omega)
      · cases h
    · cases h

theorem autolinkLength?_closes (h : autolinkLength? s = some n) : Closes '>' n s := by
  unfold autolinkLength? at h
  split at h
  · obtain ⟨m, hm, rfl⟩ := Option.map_eq_some_iff.mp h
    rcases Option.or_eq_some_iff.mp hm with hscheme | ⟨_, hmail⟩
    · exact (schemeLinkLength?_closes hscheme).cons '<'
    · exact (mailLinkLength?_closes hmail).cons '<'
  · cases h

end Brackets

/-! ## Fenced blocks -/

section Fences

variable {mark : Char} {count n : Nat} {s t u : List Char} {ls ms : List (List Char)}

/-- A fence is as long as the run of its marks. -/
theorem fence?_eq_some {line : List Char} (h : fence? line = some (mark, count)) :
    (mark = '\x60' ∨ mark = '~') ∧ count = ((line.dropWhile isIndent).takeWhile (· == mark)).length := by
  rw [fence?] at h
  dsimp only at h
  generalize line.dropWhile isIndent = body at h ⊢
  cases body with
  | nil => cases h
  | cons m body =>
      dsimp only at h
      split at h
      · cases h
      · rename_i hmark
        split at h
        · cases h
          refine ⟨?_, rfl⟩
          simpa [or_iff_not_imp_left] using hmark
        · cases h

/-- Lines below another one, each with the line feed before it. -/
def linesBelow (ls : List (List Char)) : List Char :=
  ls.flatMap ('\n' :: ·)

theorem pieces_eq_cons (s : List Char) : ∃ ls, pieces s = restOfLine s :: ls ∧
    s = restOfLine s ++ linesBelow ls ∧ ∀ l ∈ pieces s, '\n' ∉ l := by
  induction s with
  | nil => exact ⟨[], rfl, rfl, by simp [pieces]⟩
  | cons c s ih =>
      obtain ⟨ls, hpieces, hs, hlines⟩ := ih
      by_cases hc : c = '\n'
      · subst hc
        refine ⟨pieces s, by simp [pieces, restOfLine], ?_, ?_⟩
        · rw [hpieces]
          simpa [restOfLine, linesBelow] using hs
        · simpa [pieces] using hlines
      · refine ⟨ls, by simp [pieces, restOfLine, hc, hpieces], ?_, ?_⟩
        · simpa [restOfLine, hc] using hs
        · rw [hpieces] at hlines
          simp only [List.forall_mem_cons] at hlines
          simpa [pieces, hc, hpieces, Ne.symm hc] using hlines

theorem restOfLine_append_feed (u s : List Char) : restOfLine (u ++ '\n' :: s) = restOfLine u := by
  induction u with
  | nil => simp [restOfLine]
  | cons c u ih =>
      by_cases hc : c = '\n'
      · simp [restOfLine, hc]
      · simpa [restOfLine, hc] using ih

/-- A fenced block ends with a line that closes it, or takes all lines. -/
theorem fenceBodyLength_split (mark : Char) (count : Nat) (ls : List (List Char)) :
    ∃ ls₁ ls₂, ls = ls₁ ++ ls₂ ∧ fenceBodyLength mark count ls = (linesBelow ls₁).length ∧
      (ls₂ = [] ∨ ∃ l, ls₁.getLast? = some l ∧ closesFence mark count l = true) := by
  induction ls with
  | nil => exact ⟨[], [], rfl, rfl, .inl rfl⟩
  | cons l ls ih =>
      rw [fenceBodyLength]
      split
      · rename_i hcloses
        exact ⟨[l], ls, rfl, by simp [linesBelow], .inr ⟨l, rfl, hcloses⟩⟩
      · obtain ⟨ls₁, ls₂, rfl, hlength, hend⟩ := ih
        refine ⟨l :: ls₁, ls₂, rfl, by simp [linesBelow, hlength]; omega, ?_⟩
        rcases hend with hall | ⟨m, hlast, hcloses⟩
        · exact .inl hall
        · exact .inr ⟨m, by simp [List.getLast?_cons, hlast], hcloses⟩

/-- A fenced block that ends before other lines ends there whatever these are. -/
theorem fenceBodyLength_append (hms : ms ≠ [])
    (h : fenceBodyLength mark count (ls ++ ms) = (linesBelow ls).length) (ks : List (List Char)) :
    fenceBodyLength mark count (ls ++ ks) = (linesBelow ls).length := by
  induction ls with
  | nil =>
      cases ms with
      | nil => exact absurd rfl hms
      | cons m ms => simp [fenceBodyLength, linesBelow] at h
  | cons l ls ih =>
      simp only [List.cons_append, fenceBodyLength, linesBelow, List.flatMap_cons,
        List.length_cons, List.length_append] at h ih ⊢
      split at h
      · rename_i hcloses
        rw [if_pos hcloses]
        omega
      · rename_i hcloses
        rw [if_neg hcloses, ih (by omega)]
        omega

/-- Behind a fenced block comes a line feed or the end of the text. -/
theorem fencedLength?_ends (h : fencedLength? s = some n) :
    n = s.length ∨ ∃ u t, s = u ++ '\n' :: t ∧ n = u.length ∧ u.getLast? ≠ some '\n' := by
  obtain ⟨ls, hpieces, hs, hlines⟩ := pieces_eq_cons s
  simp only [fencedLength?, hpieces, List.drop_one, List.tail_cons] at h
  obtain ⟨⟨mark, count⟩, _, rfl⟩ := Option.map_eq_some_iff.mp h
  obtain ⟨ls₁, ls₂, hsplit, hlength, hend⟩ := fenceBodyLength_split mark count ls
  dsimp only
  rw [hlength, ← List.length_append]
  rw [hsplit] at hs
  cases ls₂ with
  | nil =>
      rw [List.append_nil] at hs
      exact .inl (congrArg List.length hs.symm)
  | cons m ms =>
      refine .inr ⟨restOfLine s ++ linesBelow ls₁, m ++ linesBelow ms, ?_, rfl, ?_⟩
      · exact hs.trans (by simp [linesBelow])
      · -- The line that closes the fence holds its marks.
        obtain ⟨l, hlast, hcloses⟩ := hend.resolve_left (by simp)
        obtain ⟨ls₀, rfl⟩ := List.getLast?_eq_some_iff.mp hlast
        have hfeed : '\n' ∉ l := hlines l (by simp [hpieces, hsplit])
        have hne : l ≠ [] := by
          rintro rfl
          simp [closesFence, fence?] at hcloses
        obtain ⟨body, d, rfl⟩ := (List.eq_nil_or_concat l).resolve_left hne
        have hd : d ≠ '\n' := fun heq => hfeed (by simp [heq])
        have hu : restOfLine s ++ linesBelow (ls₀ ++ [body.concat d]) =
            (restOfLine s ++ linesBelow ls₀ ++ '\n' :: body) ++ [d] := by
          simp [linesBelow]
        rw [hu, List.getLast?_concat]
        simpa using hd

/-- A fenced block is one before every text that goes on alike. -/
theorem fencedLength?_alike (halike : Alike s t) (h : fencedLength? (u ++ s) = some u.length) :
    fencedLength? (u ++ t) = some u.length := by
  rcases fencedLength?_ends h with hall | ⟨u', s', hsplit, hlength, _⟩
  · rw [List.length_append] at hall
    have hs : s = [] := List.length_eq_zero_iff.mp (by omega)
    rw [hs] at h
    rw [halike.eq_nil_iff.mp hs]
    exact h
  · obtain ⟨rfl, rfl⟩ := List.append_inj hsplit hlength
    obtain ⟨t, rfl⟩ : ∃ t', t = '\n' :: t' := List.head?_eq_some_iff.mp halike.ahead.head?.symm
    obtain ⟨ls, hpieces, hu, _⟩ := pieces_eq_cons u
    simp only [fencedLength?, restOfLine_append_feed, pieces_append_feed, hpieces, List.cons_append,
      List.drop_one, List.tail_cons] at h ⊢
    obtain ⟨⟨mark, count⟩, hfence, hsize⟩ := Option.map_eq_some_iff.mp h
    have hbody : u.length = (restOfLine u).length + (linesBelow ls).length := by
      rw [← List.length_append, ← hu]
    have hexact : fenceBodyLength mark count (ls ++ pieces s') = (linesBelow ls).length := by
      dsimp only at hsize
      omega
    rw [hfence, Option.map_some, fenceBodyLength_append (pieces_ne_nil s') hexact, hbody]

end Fences

/-! ## Pieces -/

namespace Piece

variable {outside startsLine : Bool} {n : Nat} {s t u : List Char}

/-- How a piece of prose of `n` characters ends. -/
inductive Ends (s : List Char) (n : Nat) : Prop
  /-- With the text. -/
  | all (h : n = s.length)
  /-- It is one character. -/
  | char (h : n = 1) (hs : s ≠ [])
  /-- It is a character with a backslash before it. -/
  | escaped {c : Char} {rest : List Char} (h : n = 2) (hs : s = '\\' :: c :: rest)
  /-- With a code span, a comment or a link. -/
  | closes {last : Char} (hlast : last = '\x60' ∨ last = '>') (h : Closes last n s)
  /-- Before a line feed, with a line that is not empty. -/
  | line {u t : List Char} (hs : s = u ++ '\n' :: t) (h : n = u.length) (hlast : u.getLast? ≠ some '\n')

theorem ofBracket_ends (h : ofBracket ('<' :: s) = .ok (.prose n)) : Ends ('<' :: s) n := by
  unfold ofBracket at h
  split at h
  · cases h
    rcases commentLength_ends ('<' :: s) with hall | hcloses
    · exact .all hall
    · exact .closes (.inr rfl) hcloses
  split at h
  · cases hread : readClosingTag ('<' :: s) with
    | error f =>
        rw [hread] at h
        cases h
    | ok t =>
        rw [hread] at h
        cases h
  split at h
  · rename_i m hlink
    cases h
    exact .closes (.inr rfl) (autolinkLength?_closes hlink)
  cases s with
  | nil =>
      cases h
      exact .all rfl
  | cons d s =>
      dsimp only at h
      split at h
      · cases hread : readOpeningTag ('<' :: d :: s) with
        | error f =>
            rw [hread] at h
            cases h
        | ok t =>
            rw [hread] at h
            cases h
      · cases h
        exact .char rfl (by simp)

theorem ofInline_ends (h : ofInline s = .ok (.prose n)) (hs : s ≠ []) : Ends s n := by
  obtain ⟨c, s, rfl⟩ := List.exists_cons_of_ne_nil hs
  simp only [ofInline] at h
  split at h
  · rename_i hc
    rw [beq_iff_eq] at hc
    subst hc
    cases s with
    | nil =>
        cases h
        exact .all rfl
    | cons d s =>
        cases h
        exact .escaped rfl rfl
  split at h
  · rename_i hc
    rw [beq_iff_eq] at hc
    subst hc
    cases h
    exact .closes (.inl rfl) (codeSpanLength_closes s)
  split at h
  · rename_i hc
    rw [beq_iff_eq] at hc
    subst hc
    exact ofBracket_ends h
  split at h
  · split at h
    · cases h
    · cases h
  · cases h
    exact .char rfl (by simp)

theorem ofText_ends (h : ofText outside startsLine s = .ok (.prose n)) (hs : s ≠ []) : Ends s n := by
  unfold ofText at h
  split at h
  · cases h
  split at h
  · rename_i m hfence
    cases h
    split at hfence
    · rcases fencedLength?_ends hfence with hall | ⟨u, t, hsplit, hlength, hlast⟩
      · exact .all hall
      · exact .line hsplit hlength hlast
    · cases hfence
  · exact ofInline_ends h hs

theorem Ends.le (h : Ends s n) : n ≤ s.length := by
  cases h with
  | all h => omega
  | char h hs =>
      have hlength := List.length_pos_iff.mpr hs
      omega
  | escaped h hs => simp [h, hs]
  | closes _ h =>
      obtain ⟨body, rest, rfl, rfl⟩ := h
      simp
  | line hs h _ =>
      rw [hs, h, List.length_append]
      omega

/-- A piece that ends with a character of another kind than backticks and brackets is that character, with a
backslash before it or not. -/
theorem Ends.last {c : Char} (h : Ends (u ++ s) u.length) (hs : s ≠ []) (hlast : u.getLast? = some c)
    (hc : c ≠ '\x60' ∧ c ≠ '>') (hnext : s.head? ≠ some '\n' ∨ c = '\n') :
    u = [c] ∨ u = ['\\', c] := by
  obtain ⟨body, rfl⟩ := List.getLast?_eq_some_iff.mp hlast
  have hlength : (body ++ [c]).length = body.length + 1 := by simp
  rw [hlength] at h
  cases h with
  | all h =>
      rw [List.length_append, hlength] at h
      exact absurd (List.length_eq_zero_iff.mp (by omega)) hs
  | char h _ =>
      rw [List.length_eq_zero_iff.mp (by omega : body.length = 0)]
      exact .inl rfl
  | @escaped d rest h hsplit =>
      obtain ⟨e, rfl⟩ := List.length_eq_one_iff.mp (by omega : body.length = 1)
      rw [(List.cons.inj hsplit).1]
      exact .inr rfl
  | @closes last hlast h =>
      exfalso
      obtain ⟨body', rest', hsplit, hsize⟩ := h
      rw [List.append_assoc] at hsplit
      have hsame := (List.cons.inj (List.append_inj hsplit (by omega)).2).1
      rw [← hsame] at hlast
      exact hlast.elim hc.1 hc.2
  | @line u' t hsplit hsize hfeed =>
      exfalso
      obtain ⟨hu, rfl⟩ := List.append_inj hsplit (by omega)
      rw [← hu] at hfeed
      rcases hnext with hnext | hnext
      · exact hnext rfl
      · exact hfeed (by rw [hlast, hnext])

/-- A character that starts nothing else is prose. -/
theorem ofText_char {c : Char} (hscript : startsLine = true → outside = true → startsScript (c :: s) = false)
    (hfence : startsLine = true → fence? (restOfLine (c :: s)) = none)
    (hc : c ≠ '\\' ∧ c ≠ '\x60' ∧ c ≠ '<' ∧ c ≠ '\x7b') :
    ofText outside startsLine (c :: s) = .ok (.prose 1) := by
  have hinline : ofInline (c :: s) = .ok (.prose 1) := by
    simp [ofInline, hc]
  cases startsLine with
  | false => simpa [ofText] using hinline
  | true =>
      cases outside with
      | false => simpa [ofText, fencedLength?, hfence rfl] using hinline
      | true => simpa [ofText, hscript rfl rfl, fencedLength?, hfence rfl] using hinline

theorem ofText_feed (s : List Char) : ofText outside startsLine ('\n' :: s) = .ok (.prose 1) :=
  ofText_char (fun _ _ => rfl) (fun _ => by simp [restOfLine, fence?]) (by decide)

theorem ofText_escaped (c : Char) (s : List Char) :
    ofText outside startsLine ('\\' :: c :: s) = .ok (.prose 2) := by
  have hscript : startsScript ('\\' :: c :: s) = false := rfl
  have hfence : fencedLength? ('\\' :: c :: s) = none := by
    simp [fencedLength?, restOfLine, fence?, isIndent]
  cases startsLine with
  | false => simp [ofText, ofInline]
  | true => simp [ofText, hscript, hfence, ofInline]

/-- At a bracket neither a script block nor a fence starts. -/
theorem ofText_bracket (s : List Char) : ofText outside startsLine ('<' :: s) = ofBracket ('<' :: s) := by
  have hscript : startsScript ('<' :: s) = false := rfl
  have hfence : fencedLength? ('<' :: s) = none := by
    simp [fencedLength?, restOfLine, fence?, isIndent]
  have hinline : ofInline ('<' :: s) = ofBracket ('<' :: s) := by
    simp [ofInline]
  rw [← hinline]
  cases startsLine with
  | false => simp [ofText]
  | true => simp [ofText, hscript, hfence]

/-- At a brace neither a script block nor a fence starts. -/
theorem ofText_brace (hgroup : groupLength? ('\x7b' :: s) = some n) :
    ofText outside startsLine ('\x7b' :: s) = .ok (.expression n) := by
  have hscript : startsScript ('\x7b' :: s) = false := rfl
  have hfence : fencedLength? ('\x7b' :: s) = none := by
    simp [fencedLength?, restOfLine, fence?, isIndent]
  cases startsLine with
  | false => simp [ofText, ofInline, hgroup]
  | true => simp [ofText, hscript, hfence, ofInline, hgroup]

/-- Prose that starts with a bracket is prose before every text that goes on alike. -/
theorem ofBracket_alike (halike : Alike s t)
    (h : ofBracket (('<' :: u) ++ s) = .ok (.prose ('<' :: u).length)) :
    ofBracket (('<' :: u) ++ t) = .ok (.prose ('<' :: u).length) := by
  have hahead : Ahead (u ++ s) (u ++ t) := halike.ahead.append u
  have hcomment : startsWith "<!--".toList ('<' :: (u ++ s)) =
      startsWith "<!--".toList ('<' :: (u ++ t)) :=
    hahead.startsWith "!--".toList (by decide)
  have hclosing : startsWith "</".toList ('<' :: (u ++ s)) =
      startsWith "</".toList ('<' :: (u ++ t)) :=
    hahead.startsWith "/".toList (by decide)
  simp only [ofBracket, List.cons_append] at h ⊢
  rw [hcomment, hclosing, hahead.autolinkLength?] at h
  split at h
  · rename_i hstarts
    rw [if_pos hstarts]
    have hlength := Piece.prose.inj (Except.ok.inj h)
    rw [← List.cons_append] at hlength ⊢
    rw [commentLength_append halike.eq_nil_iff.mp hlength]
  rename_i hstarts
  rw [if_neg hstarts]
  split at h
  · cases hread : readClosingTag ('<' :: (u ++ s)) with
    | error f =>
        rw [hread] at h
        cases h
    | ok t =>
        rw [hread] at h
        cases h
  rename_i hends
  rw [if_neg hends]
  split at h
  · exact h
  · -- The next character tells a tag from prose.
    rcases hahead.cases_head with ⟨hs, ht⟩ | ⟨c, v, w, hs, ht⟩
    · rw [hs] at h
      rw [ht]
      exact h
    · rw [hs] at h
      rw [ht]
      dsimp only at h ⊢
      split at h
      · cases hread : readOpeningTag ('<' :: c :: v) with
        | error f =>
            rw [hread] at h
            cases h
        | ok t =>
            rw [hread] at h
            cases h
      · rename_i hc
        rw [if_neg hc]
        exact h

/-- Prose is prose before every text that goes on alike. -/
theorem ofInline_alike (halike : Alike s t) (hu : u ≠ [])
    (h : ofInline (u ++ s) = .ok (.prose u.length)) : ofInline (u ++ t) = .ok (.prose u.length) := by
  obtain ⟨c, u, rfl⟩ := List.exists_cons_of_ne_nil hu
  have hempty : (u ++ t).isEmpty = (u ++ s).isEmpty := by
    rw [Bool.eq_iff_iff, List.isEmpty_iff, List.isEmpty_iff, (halike.append u).eq_nil_iff]
  simp only [List.cons_append, ofInline, hempty] at h ⊢
  -- The branches are those of the reader; only those of ticks and of brackets look further than the first character.
  split at h
  · rename_i hc
    rw [if_pos hc]
    exact h
  rename_i hescape
  rw [if_neg hescape]
  split at h
  · rename_i hc
    rw [if_pos hc]
    rw [beq_iff_eq] at hc
    subst hc
    have hlength := Piece.prose.inj (Except.ok.inj h)
    rw [← List.cons_append, codeSpanLength_alike halike hlength]
  rename_i htick
  rw [if_neg htick]
  split at h
  · rename_i hc
    rw [if_pos hc]
    rw [beq_iff_eq] at hc
    subst hc
    exact ofBracket_alike halike h
  rename_i hbracket
  rw [if_neg hbracket]
  split at h
  · split at h
    · cases h
    · cases h
  · rename_i hbrace
    rw [if_neg hbrace]
    exact h

/-- A piece of prose is one before every text that goes on alike, if no fence opens there. -/
theorem ofText_alike (halike : Alike s t) (hu : u ≠ [])
    (hfence : startsLine = true → fence? (restOfLine (u ++ s)) = none →
      fence? (restOfLine (u ++ t)) = none)
    (h : ofText outside startsLine (u ++ s) = .ok (.prose u.length)) :
    ofText outside startsLine (u ++ t) = .ok (.prose u.length) := by
  unfold ofText at h ⊢
  rw [(halike.ahead.append u).startsScript] at h
  split at h
  · cases h
  rename_i hscript
  rw [if_neg hscript]
  cases startsLine with
  | false => exact ofInline_alike halike hu h
  | true =>
      simp only [if_true] at h ⊢
      split at h
      · rename_i m hfenced
        cases h
        rw [fencedLength?_alike halike hfenced]
      · rename_i hfenced
        have hnone : fencedLength? (u ++ t) = none := by
          simp only [fencedLength?, Option.map_eq_none_iff] at hfenced ⊢
          exact hfence rfl hfenced
        rw [hnone]
        exact ofInline_alike halike hu h

end Piece

end Markup
end StoryDocs
