import StoryDocs.Proofs.Markup.Bytes.Cursor

/-!
# Positions from byte indexes

A position is found by looking its line up in the list of line starts and counting the characters before it
on the line.  At the start of every suffix of a text this is the position that comes from the text before it.
-/

namespace StoryDocs
namespace Markup
namespace Bytes

open Text

/-! ## Looking lines up -/

/-- The indexes behind the line feeds among bytes of which the first has the index `i`. -/
def feedEnds : Nat → List Char → List Nat
  | _, [] => []
  | i, b :: bytes =>
    if b == '\n' then (i + 1) :: feedEnds (i + 1) bytes else feedEnds (i + 1) bytes

/-- The indexes at which lines start. -/
def lineStarts (bytes : List Char) : List Nat :=
  0 :: feedEnds 0 bytes

/-- Where a number stands in an ascending list, or else where it would have to be put. -/
def search (starts : List Nat) (i : Nat) : Except Nat Nat :=
  let k := (starts.takeWhile (· < i)).length
  if starts[k]? == some i then .ok k else .error k

section Definitions

variable (bytes : List Char)

/-- The number of the line of a byte, counted from zero. -/
def lineIndex (i : Nat) : Checked Nat :=
  match search (lineStarts bytes) i with
  | .ok k => .ok k
  | .error k => pred k

/-- Where the line of a byte starts. -/
def lineStart (i : Nat) : Checked Nat := do
  let line ← lineIndex bytes i
  entry (lineStarts bytes) line

/-- Whether a line starts at a byte. -/
def atLineStart (i : Nat) : Checked Bool :=
  if i == 0 then .ok true
  else do
    let b ← byte bytes (← pred i)
    return b == '\n'

/-- Whether only spaces and tabs stand before a byte on its line. -/
def startsLine (i : Nat) : Checked Bool := do
  let start ← lineStart bytes i
  let lead ← part bytes start i
  return lead.all isIndent

end Definitions

/-- The position of a byte. -/
def position (src : List Char) (i : Nat) : Checked Position := do
  let line ← lineIndex (octets src) i
  let start ← entry (lineStarts (octets src)) line
  let lead ← slice src start i
  return ⟨line + 1, lead.length + 1, i⟩

/-! ## Line starts -/

section Lines

variable {src u v head line s t : List Char} {front rest : List Nat} {c : Char} {i k n start : Nat}

theorem feedEnds_append (i : Nat) (s t : List Char) :
    feedEnds i (s ++ t) = feedEnds i s ++ feedEnds (i + s.length) t := by
  induction s generalizing i with
  | nil => rfl
  | cons c s ih =>
      have hindex : i + 1 + s.length = i + (c :: s).length := by
        rw [List.length_cons]
        omega
      rw [List.cons_append, feedEnds, feedEnds, ih, hindex]
      split
      · rfl
      · rfl

theorem lt_of_mem_feedEnds (h : k ∈ feedEnds i s) : i < k := by
  induction s generalizing i with
  | nil => cases h
  | cons c s ih =>
      rw [feedEnds] at h
      split at h
      · rcases List.mem_cons.mp h with rfl | h
        · exact Nat.lt_succ_self i
        · exact Nat.lt_of_succ_lt (ih h)
      · exact Nat.lt_of_succ_lt (ih h)

theorem feedEnds_of_not_mem (h : '\n' ∉ s) : feedEnds i s = [] := by
  induction s generalizing i with
  | nil => rfl
  | cons c s ih =>
      rw [List.mem_cons, not_or] at h
      rw [feedEnds, beq_false_of_ne (Ne.symm h.1), if_neg Bool.false_ne_true, ih h.2]

theorem lineStarts_append (u v : List Char) :
    lineStarts (octets (u ++ v)) = lineStarts (octets u) ++ feedEnds (byteSize u) (octets v) := by
  rw [lineStarts, lineStarts, octets_append, feedEnds_append, Nat.zero_add, length_octets]
  rfl

/-- The last line of a text, with the starts of the lines before it. -/
structure LastLine (u : List Char) (front : List Nat) (head line : List Char) : Prop where
  split : u = head ++ line
  feed : head = [] ∨ head.getLast? = some '\n'
  plain : '\n' ∉ line
  starts : lineStarts (octets u) = front ++ [byteSize head]
  ascending : ∀ k ∈ front, k < byteSize head
  place : Place.start.after u =
    ⟨⟨front.length + 1, line.length + 1, byteSize u⟩, line.all isIndent⟩

theorem LastLine.concat (h : LastLine u front head line) (c : Char) :
    ∃ front head line, LastLine (u ++ [c]) front head line := by
  have hsize : byteSize (u ++ [c]) = byteSize u + c.utf8Size := by
    rw [byteSize_append]
    rfl
  have hplace : Place.start.after (u ++ [c]) = (Place.start.after u).advance c := by
    rw [Place.after, List.foldl_append]
    rfl
  have hstarts := lineStarts_append u [c]
  rw [h.starts] at hstarts
  -- A line feed ends the line; every other character is added to it, and its bytes hold no line feed.
  by_cases hc : c = '\n'
  · subst hc
    refine ⟨front ++ [byteSize head], u ++ ['\n'], [], by simp, .inr (by simp), by simp, ?_, ?_, ?_⟩
    · rw [hstarts, hsize]
      rfl
    · intro k hk
      have hle : byteSize head ≤ byteSize u := by
        rw [h.split, byteSize_append]
        omega
      have hfeed : '\n'.utf8Size = 1 := rfl
      rw [hsize]
      rcases List.mem_append.mp hk with hk | hk
      · have hlt := h.ascending k hk
        omega
      · rw [List.mem_singleton.mp hk]
        omega
    · rw [hplace, h.place, hsize, List.length_append]
      rfl
  · have hbytes : '\n' ∉ octets [c] := by
      rw [mem_octets_iff rfl]
      simpa using Ne.symm hc
    refine ⟨front, head, line ++ [c], by rw [h.split, List.append_assoc], h.feed, ?_, ?_, h.ascending, ?_⟩
    · simpa [h.plain] using Ne.symm hc
    · rw [hstarts, feedEnds_of_not_mem hbytes, List.append_nil]
    · rw [hplace, h.place, Place.advance, Position.advance, beq_false_of_ne hc, hsize, List.length_append,
        List.all_append]
      simp

theorem exists_lastLine (u : List Char) : ∃ front head line, LastLine u front head line := by
  have hgrows : ∀ v u, (∃ front head line, LastLine u front head line) →
      ∃ front head line, LastLine (u ++ v) front head line := by
    intro v
    induction v with
    | nil =>
        intro u h
        rw [List.append_nil]
        exact h
    | cons c v ih =>
        rintro u ⟨front, head, line, h⟩
        have hnext := ih (u ++ [c]) (h.concat c)
        rw [List.append_assoc] at hnext
        exact hnext
  exact hgrows u [] ⟨[], [], [], rfl, .inl rfl, by simp, rfl, by simp, rfl⟩

/-! ## Positions of suffixes -/

/-- The last line start up to an index is found, or the place behind it. -/
theorem search_eq (hfront : ∀ k ∈ front, k < start) (hstart : start ≤ i) (hrest : ∀ k ∈ rest, i < k) :
    search (front ++ start :: rest) i =
      if start = i then .ok front.length else .error (front.length + 1) := by
  have hbefore : ∀ k ∈ front, decide (k < i) = true := by
    intro k hk
    have hlt := hfront k hk
    exact decide_eq_true (by omega)
  have hbehind : rest.takeWhile (fun k => decide (k < i)) = [] := by
    cases rest with
    | nil => rfl
    | cons k rest =>
        have hlt := hrest k (by simp)
        rw [List.takeWhile_cons_of_neg (by simp; omega)]
  rw [search, List.takeWhile_append_of_pos hbefore]
  by_cases hsame : start = i
  · rw [List.takeWhile_cons_of_neg (by simp [hsame]), List.append_nil,
      List.getElem?_append_right (Nat.le_refl _), Nat.sub_self, if_pos hsame, hsame]
    simp
  · have hlt : decide (start < i) = true := decide_eq_true (by omega)
    have hnone : rest.head? ≠ some i := by
      intro hhead
      exact Nat.lt_irrefl i (hrest i (List.mem_of_mem_head? hhead))
    have htake : (start :: rest).takeWhile (fun k => decide (k < i)) = [start] := by
      rw [List.takeWhile_cons, if_pos hlt, hbehind]
    have hindex : (front ++ start :: rest)[front.length + 1]? = rest.head? := by
      have hone : front.length + 1 - front.length = 1 := by omega
      rw [List.getElem?_append_right (by omega), hone, List.getElem?_cons_succ, List.head?_eq_getElem?]
    rw [htake, if_neg hsame, List.length_append, List.length_singleton, hindex, beq_false_of_ne hnone]
    rfl

theorem lineIndex_eq {bytes : List Char} (hstarts : lineStarts bytes = front ++ start :: rest)
    (hfront : ∀ k ∈ front, k < start) (hstart : start ≤ i) (hrest : ∀ k ∈ rest, i < k) :
    lineIndex bytes i = .ok front.length := by
  rw [lineIndex, hstarts, search_eq hfront hstart hrest]
  by_cases hsame : start = i
  · rw [if_pos hsame]
  · rw [if_neg hsame]
    rfl

/-- The place of a suffix, from the text before it. -/
def placeAt (src v : List Char) : Place :=
  Place.start.after (before src v)

/-- The line of a suffix is found among the line starts. -/
theorem exists_lineIndex (h : v <:+ src) : ∃ front head line, LastLine (before src v) front head line ∧
    lineIndex (octets src) (offset src v) = .ok front.length ∧
    entry (lineStarts (octets src)) front.length = .ok (byteSize head) := by
  obtain ⟨front, head, line, hlast⟩ := exists_lastLine (before src v)
  have hstarts := lineStarts_append (before src v) v
  rw [before_append h, hlast.starts, List.append_assoc, List.singleton_append, byteSize_before h] at hstarts
  have hle : byteSize head ≤ offset src v := by
    rw [← byteSize_before h, hlast.split, byteSize_append]
    omega
  refine ⟨front, head, line, hlast, ?_, ?_⟩
  · exact lineIndex_eq hstarts hlast.ascending hle fun k hk => lt_of_mem_feedEnds hk
  · apply entry_eq
    rw [hstarts, List.getElem?_append_right (Nat.le_refl _), Nat.sub_self]
    rfl

/-- Between a line start and a suffix stands the text of the line. -/
theorem LastLine.suffix (h : v <:+ src) (hlast : LastLine (before src v) front head line) :
    (line ++ v) <:+ src ∧ offset src (line ++ v) = byteSize head := by
  have hsrc : head ++ (line ++ v) = src := by
    rw [← List.append_assoc, ← hlast.split, before_append h]
  have hsuffix : (line ++ v) <:+ src := ⟨head, hsrc⟩
  have hmove := offset_append hsuffix
  have hsize := byteSize_before h
  rw [hlast.split, byteSize_append] at hsize
  exact ⟨hsuffix, by omega⟩

/-- The position of a suffix is that behind the text before it. -/
theorem position_eq (h : v <:+ src) :
    position src (offset src v) = .ok (placeAt src v).position := by
  obtain ⟨front, head, line, hlast, hindex, hentry⟩ := exists_lineIndex h
  obtain ⟨hsuffix, hstart⟩ := hlast.suffix h
  have hslice := slice_offset hsuffix line.length
  rw [List.drop_left, List.take_left, hstart] at hslice
  rw [position, hindex, ok_bind, hentry, ok_bind, hslice, ok_bind, placeAt, hlast.place, byteSize_before h]
  rfl

/-- Only spaces and tabs stand before a suffix if that holds of the text before it. -/
theorem startsLine_eq (h : v <:+ src) :
    startsLine (octets src) (offset src v) = .ok (placeAt src v).indented := by
  obtain ⟨front, head, line, hlast, hindex, hentry⟩ := exists_lineIndex h
  obtain ⟨hsuffix, hstart⟩ := hlast.suffix h
  have hpart := part_offset hsuffix line.length
  rw [List.drop_left, List.take_left, hstart] at hpart
  rw [startsLine, lineStart, hindex, ok_bind, hentry, ok_bind, hpart, ok_bind, placeAt, hlast.place,
    Narrow.isIndent.uniform.all]
  rfl

/-- A suffix stands at the start of a line if its column is the first one. -/
theorem atLineStart_eq (h : v <:+ src) :
    atLineStart (octets src) (offset src v) = .ok (placeAt src v).startsLine := by
  obtain ⟨front, head, line, hlast⟩ := exists_lastLine (before src v)
  have hcolumn : (placeAt src v).startsLine = line.isEmpty := by
    rw [placeAt, hlast.place, Place.startsLine]
    cases line with
    | nil => rfl
    | cons c line => rfl
  rw [hcolumn]
  -- The text starts here, or the character in front is a line feed exactly if nothing stands on the line.
  rcases List.eq_nil_or_concat (before src v) with hnil | ⟨u, c, hu⟩
  · have hzero : offset src v = 0 := by
      rw [← byteSize_before h, hnil]
      rfl
    have hline : line = [] := by
      have hsplit := hlast.split
      rw [hnil] at hsplit
      exact (List.append_eq_nil_iff.mp hsplit.symm).2
    rw [hzero, hline]
    rfl
  · rw [List.concat_eq_append] at hu
    obtain ⟨b, hbyte, hb⟩ := byte_before h hu
    have hpos : 0 < offset src v := by
      rw [← byteSize_before h]
      exact byteSize_pos (by simp [hu])
    have hzero : (offset src v == 0) = false := beq_false_of_ne (by omega)
    have hfeed : (c == '\n') = line.isEmpty := by
      have hsplit := hlast.split
      rw [hu] at hsplit
      rcases List.eq_nil_or_concat line with hline | ⟨front, d, hline⟩
      · rw [hline, List.append_nil] at hsplit
        rcases hlast.feed with hhead | hhead
        · rw [hhead] at hsplit
          simp at hsplit
        · rw [← hsplit, List.getLast?_concat] at hhead
          rw [hline, Option.some.inj hhead]
          rfl
      · rw [List.concat_eq_append] at hline
        rw [hline, ← List.append_assoc] at hsplit
        obtain ⟨_, hc⟩ := List.append_inj' hsplit rfl
        have hd : d ≠ '\n' := by
          rintro rfl
          exact hlast.plain (by simp [hline])
        rw [List.singleton_inj.mp hc, beq_false_of_ne hd, hline]
        simp
    rw [atLineStart, hzero, pred_of_pos hpos]
    show (byte (octets src) (offset src v - 1) >>= _) = _
    rw [byte_eq hbyte, ok_bind, hb.test (Narrow.beq rfl).uniform, hfeed]
    rfl

/-- No line starts inside a wide character. -/
theorem atLineStart_inside {b : Char} (hi : 0 < i) (hb : isWide b = true)
    (hbyte : (octets src)[i - 1]? = some b) : atLineStart (octets src) i = .ok false := by
  have hzero : (i == 0) = false := beq_false_of_ne (by omega)
  rw [atLineStart, hzero, pred_of_pos hi]
  show (byte (octets src) (i - 1) >>= _) = _
  rw [byte_eq hbyte, ok_bind, beq_of_isWide hb rfl]
  rfl

end Lines

end Bytes
end Markup
end StoryDocs
