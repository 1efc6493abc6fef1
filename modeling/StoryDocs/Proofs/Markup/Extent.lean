import StoryDocs.Markup.Parser

/-!
# Extents of pieces

A scanner says how many characters of a text belong to what starts there.  `Closes last n s` says that
these `n` characters are there and that `last` is the last of them.  Groups in braces end with a brace,
tags end with an angle bracket, a script block ends before a line feed or with the text, and no piece of
a text is empty.
-/

namespace StoryDocs
namespace Markup

open Text

/-- The first `n` characters of a text end with `last`. -/
def Closes (last : Char) (n : Nat) (s : List Char) : Prop :=
  ∃ body rest, s = body ++ last :: rest ∧ n = body.length + 1

namespace Closes

variable {last : Char} {n : Nat} {s : List Char}

theorem head (c : Char) (s : List Char) : Closes c 1 (c :: s) :=
  ⟨[], s, rfl, rfl⟩

theorem pos (h : Closes last n s) : 0 < n := by
  obtain ⟨body, rest, _, rfl⟩ := h
  omega

theorem take_eq (h : Closes last n s) :
    ∃ body, s.take n = body ++ [last] ∧ n = body.length + 1 := by
  obtain ⟨body, rest, rfl, rfl⟩ := h
  refine ⟨body, ?_, rfl⟩
  rw [List.take_length_add_append]
  rfl

theorem cons (c : Char) (h : Closes last n s) : Closes last (n + 1) (c :: s) := by
  obtain ⟨body, rest, rfl, rfl⟩ := h
  exact ⟨c :: body, rest, rfl, by simp⟩

/-- What closes a later part of a text closes the text. -/
theorem of_drop {k : Nat} (h : Closes last n (s.drop k)) : Closes last (k + n) s := by
  obtain ⟨body, rest, hdrop, rfl⟩ := h
  have hk : k < s.length := by
    have hlength := congrArg List.length hdrop
    simp only [List.length_drop, List.length_append, List.length_cons] at hlength
    omega
  refine ⟨s.take k ++ body, rest, ?_, ?_⟩
  · rw [List.append_assoc, ← hdrop, List.take_append_drop]
  · rw [List.length_append, List.length_take]
    omega

end Closes

/-! ## Groups in braces -/

/-- A brace is no string, template or comment. -/
theorem literalLength?_open_brace (template : List Char → Option Nat) (before : Char)
    (s : List Char) : literalLength? template before ('\x7b' :: s) = none := by
  simp [literalLength?]

/-- What is measured from inside a group ends with a closing brace. -/
theorem braceLength?_closes {bound depth n : Nat} {before : Char} {s : List Char}
    (h : braceLength? bound depth before s = some n) : Closes '\x7d' n s := by
  induction bound generalizing depth before s n with
  | zero => simp [braceLength?] at h
  | succ bound ih =>
      cases s with
      | nil => simp [braceLength?] at h
      | cons c s =>
          -- The text goes on with a literal, an opening brace, a closing one or any other character; only
          -- a closing brace at depth one ends it.
          simp only [braceLength?] at h
          split at h
          · obtain ⟨m, hm, rfl⟩ := Option.map_eq_some_iff.mp h
            rw [Nat.add_comm]
            exact (ih hm).of_drop
          · split at h
            · obtain ⟨m, hm, rfl⟩ := Option.map_eq_some_iff.mp h
              exact (ih hm).cons c
            · split at h
              · rename_i hclose
                rw [beq_iff_eq] at hclose
                subst hclose
                split at h
                · cases h
                  exact .head _ s
                · obtain ⟨m, hm, rfl⟩ := Option.map_eq_some_iff.mp h
                  exact (ih hm).cons _
              · obtain ⟨m, hm, rfl⟩ := Option.map_eq_some_iff.mp h
                exact (ih hm).cons c

/-- A group is its braces around the text between them. -/
theorem groupLength?_take {n : Nat} {s : List Char}
    (h : groupLength? ('\x7b' :: s) = some n) :
    ('\x7b' :: s).take n = '\x7b' :: s.take (n - 2) ++ ['\x7d'] := by
  unfold groupLength? at h
  rw [braceLength?, literalLength?_open_brace] at h
  simp only [beq_self_eq_true, if_true] at h
  obtain ⟨m, hm, rfl⟩ := Option.map_eq_some_iff.mp h
  obtain ⟨body, rest, rfl, rfl⟩ := braceLength?_closes hm
  have hinner : body.length + 1 + 1 - 2 = body.length := by omega
  rw [hinner, List.take_left, List.take_succ_cons, List.take_length_add_append]
  rfl

theorem groupLength?_closes {n : Nat} {s : List Char} (h : groupLength? s = some n) :
    Closes '\x7d' n s :=
  braceLength?_closes h

/-! ## Tags -/

/-- The attributes of a tag are read through its closing bracket. -/
theorem readAttributes_closes {bound : Nat} {s : List Char} {e : Read TagEnd}
    (h : readAttributes bound s = .ok e) : Closes '>' e.size s := by
  induction bound generalizing s e with
  | zero => simp [readAttributes] at h
  | succ bound ih =>
      -- An attribute and what is read behind it.
      have hnext : ∀ {a : Read Attribute} {tail : Read TagEnd},
          readAttributes bound ((s.drop (blankLength s)).drop a.size) = .ok tail →
            Closes '>' (blankLength s + a.size + tail.size) s := by
        intro a tail htail
        rw [Nat.add_assoc]
        exact (ih htail).of_drop.of_drop
      -- Behind the blanks the tag ends, or an attribute follows: a spread one or one with a name.
      simp only [readAttributes] at h
      split at h
      · rename_i rest hrest
        cases h
        refine Closes.of_drop ?_
        rw [hrest]
        exact (Closes.head '>' rest).cons '/'
      · rename_i hrest
        cases h
        refine Closes.of_drop ?_
        rw [hrest]
        exact .head '>' _
      · split at h
        · split at h
          · cases h
          · split at h
            · cases h
            · rename_i hrest
              cases h
              exact hnext hrest
        · split at h
          · split at h
            · cases h
            · split at h
              · cases h
              · rename_i hrest
                cases h
                exact hnext hrest
          · cases h
      · cases h

theorem readOpeningTag_closes {s : List Char} {t : Read OpeningTag}
    (h : readOpeningTag s = .ok t) : Closes '>' t.size s := by
  simp only [readOpeningTag] at h
  split at h
  · cases h
  · rename_i e he
    cases h
    exact (readAttributes_closes he).of_drop

theorem readClosingTag_closes {s : List Char} {t : Read (List Char)}
    (h : readClosingTag s = .ok t) : Closes '>' t.size s := by
  simp only [readClosingTag] at h
  split at h
  · rename_i rest hrest
    cases h
    have hbracket := Closes.head '>' rest
    rw [← hrest] at hbracket
    rw [Nat.add_assoc, Nat.add_assoc]
    exact hbracket.of_drop.of_drop.of_drop
  · cases h

/-! ## Script blocks -/

/-- Where a script block can end: at the end of the text, or before a line feed with a blank line behind
it. -/
def Gap (s : List Char) : Prop :=
  s = [] ∨ ∃ rest, s = '\n' :: rest ∧ lineIsBlank rest = true

theorem scriptLengthFrom_gap (bound depth : Nat) (before : Char) (s : List Char) :
    Gap (s.drop (scriptLengthFrom bound depth before s)) := by
  induction bound generalizing depth before s with
  | zero => exact .inl (by simp [scriptLengthFrom])
  | succ bound ih =>
      cases s with
      | nil => exact .inl rfl
      | cons c s =>
          simp only [scriptLengthFrom]
          split
          · rw [Nat.add_comm, ← List.drop_drop]
            exact ih _ _ _
          · split
            · exact ih _ _ _
            · split
              · exact ih _ _ _
              · split
                · rename_i hstop
                  simp only [Bool.and_eq_true, beq_iff_eq] at hstop
                  exact .inr ⟨s, by rw [List.drop_zero, hstop.1.1], hstop.2⟩
                · exact ih _ _ _

theorem scriptLength_gap (s : List Char) : Gap (s.drop (scriptLength s)) :=
  scriptLengthFrom_gap _ _ _ s

/-- Behind a script block comes a line feed, or nothing. -/
theorem scriptLength_stops (s : List Char) :
    s.drop (scriptLength s) = [] ∨ ∃ rest, s.drop (scriptLength s) = '\n' :: rest := by
  rcases scriptLength_gap s with hend | ⟨rest, hfeed, _⟩
  · exact .inl hend
  · exact .inr ⟨rest, hfeed⟩

/-- A text that starts with a word of the script language starts with its first letter. -/
theorem startsScript_head {s : List Char} (h : startsScript s = true) :
    ∃ c rest, s = c :: rest ∧ (c = 'i' ∨ c = 'e') := by
  cases s with
  | nil => simp [startsScript, dropLead?] at h
  | cons c rest =>
      refine ⟨c, rest, rfl, ?_⟩
      by_cases himport : c = 'i'
      · exact .inl himport
      by_cases hexport : c = 'e'
      · exact .inr hexport
      simp [startsScript, dropLead?, Ne.symm himport, Ne.symm hexport] at h

theorem scriptLength_pos {s : List Char} (h : startsScript s = true) : 0 < scriptLength s := by
  obtain ⟨c, rest, rfl, rfl | rfl⟩ := startsScript_head h
  all_goals
    simp [scriptLength, scriptLengthFrom, literalLength?]

/-! ## No piece is empty -/

theorem fencedLength?_pos {s : List Char} {n : Nat} (h : fencedLength? s = some n) : 0 < n := by
  simp only [fencedLength?] at h
  obtain ⟨⟨mark, count⟩, hfence, rfl⟩ := Option.map_eq_some_iff.mp h
  have hline : restOfLine s ≠ [] := by
    intro hnil
    simp [hnil, fence?] at hfence
  have hlength := List.length_pos_iff.mpr hline
  omega

theorem codeSpanLength_pos (s : List Char) : 0 < codeSpanLength ('\x60' :: s) := by
  have hrun : 0 < (('\x60' :: s).takeWhile (· == '\x60')).length := by
    rw [List.takeWhile_cons_of_pos (by simp)]
    exact Nat.succ_pos _
  simp only [codeSpanLength]
  omega

theorem commentLength_pos (c : Char) (s : List Char) : 0 < commentLength (c :: s) := by
  simp only [commentLength, lengthThrough]
  split
  · simp
  · simp

theorem autolinkLength?_pos {s : List Char} {n : Nat} (h : autolinkLength? s = some n) : 0 < n := by
  unfold autolinkLength? at h
  split at h
  · obtain ⟨m, _, rfl⟩ := Option.map_eq_some_iff.mp h
    omega
  · cases h

/-- What can start at a place of a text.  Prose is never empty, and all else is what its scanner says. -/
inductive Piece.Starts (outside startsLine : Bool) : List Char → Piece → Prop
  | prose {s : List Char} {n : Nat} (hpos : 0 < n) : Starts outside startsLine s (.prose n)
  | script {s : List Char} (houtside : outside = true) (hline : startsLine = true)
      (hstart : startsScript s = true) : Starts outside startsLine s (.script (scriptLength s))
  | expression {s : List Char} {n : Nat} (hgroup : groupLength? ('\x7b' :: s) = some n) :
      Starts outside startsLine ('\x7b' :: s) (.expression n)
  | opening {s : List Char} {t : OpeningTag} {n : Nat}
      (hread : readOpeningTag ('<' :: s) = .ok ⟨t, n⟩) :
      Starts outside startsLine ('<' :: s) (.opening t n)
  | closing {s name : List Char} {n : Nat} (hread : readClosingTag ('<' :: s) = .ok ⟨name, n⟩) :
      Starts outside startsLine ('<' :: s) (.closing name n)

namespace Piece

variable {outside startsLine : Bool} {c : Char} {s : List Char} {p : Piece}

theorem ofBracket_starts (h : ofBracket ('<' :: s) = .ok p) :
    Starts outside startsLine ('<' :: s) p := by
  unfold ofBracket at h
  split at h
  · cases h
    exact .prose (commentLength_pos '<' s)
  split at h
  · cases hread : readClosingTag ('<' :: s) with
    | error f =>
        rw [hread] at h
        cases h
    | ok t =>
        rw [hread] at h
        cases h
        exact .closing hread
  split at h
  · rename_i n hlink
    cases h
    exact .prose (autolinkLength?_pos hlink)
  cases s with
  | nil =>
      cases h
      exact .prose Nat.one_pos
  | cons d s =>
      dsimp only at h
      split at h
      · cases hread : readOpeningTag ('<' :: d :: s) with
        | error f =>
            rw [hread] at h
            cases h
        | ok t =>
            rw [hread] at h
            cases h
            exact .opening hread
      · cases h
        exact .prose Nat.one_pos

theorem ofInline_starts (h : ofInline (c :: s) = .ok p) :
    Starts outside startsLine (c :: s) p := by
  simp only [ofInline] at h
  split at h
  · cases h
    refine .prose ?_
    split <;> omega
  split at h
  · rename_i hmark
    rw [beq_iff_eq] at hmark
    subst hmark
    cases h
    exact .prose (codeSpanLength_pos s)
  split at h
  · rename_i hbracket
    rw [beq_iff_eq] at hbracket
    subst hbracket
    exact ofBracket_starts h
  split at h
  · rename_i hbrace
    rw [beq_iff_eq] at hbrace
    subst hbrace
    split at h
    · rename_i n hgroup
      cases h
      exact .expression hgroup
    · cases h
  · cases h
    exact .prose Nat.one_pos

/-- What the reader finds at a place does start there. -/
theorem ofText_starts (h : ofText outside startsLine (c :: s) = .ok p) :
    Starts outside startsLine (c :: s) p := by
  unfold ofText at h
  split at h
  · rename_i hscript
    simp only [Bool.and_eq_true] at hscript
    obtain ⟨⟨hline, houtside⟩, hstart⟩ := hscript
    cases h
    exact .script houtside hline hstart
  split at h
  · rename_i n hfence
    cases h
    split at hfence
    · exact .prose (fencedLength?_pos hfence)
    · cases hfence
  · exact ofInline_starts h

end Piece

end Markup
end StoryDocs
