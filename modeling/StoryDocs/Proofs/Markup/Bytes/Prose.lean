import StoryDocs.Proofs.Markup.Bytes.Scan
import StoryDocs.Proofs.Markup.Prose

/-!
# Scanning prose byte by byte

Fenced blocks and code spans are samples of code inside prose.  Their scanners on byte indexes find the ends
that the scanners of characters find.
-/

namespace StoryDocs
namespace Markup
namespace Bytes

open Text

/-! ## Scanners -/

section Definitions

variable (bytes : List Char)

/-- The fence that a line opens. -/
def fenceOfLine (text : List Char) : Checked (Option (Char × Nat)) := do
  let indent := (text.takeWhile isIndent).length
  match text[indent]? with
  | none => .ok none
  | some mark =>
    if mark != '\x60' && mark != '~' then .ok none
    else do
      let body ← part text indent text.length
      let count := (body.takeWhile (· == mark)).length
      let info ← part text (indent + count) text.length
      let plain := mark == '~' || !info.contains '\x60'
      return if 3 ≤ count && plain then some (mark, count) else none

/-- The fence that the line at a byte opens. -/
def fenceAt (i : Nat) : Checked (Option (Char × Nat)) := do
  let next ← lineEnd bytes i
  let line ← part bytes i next
  fenceOfLine line

/-- The end of a fenced block of which the line that ends at `i` is read. -/
def fencedFrom (mark : Char) (count : Nat) : Nat → Nat → Checked Nat
  | 0, _ => .error (.panic .endless)
  | bound + 1, i =>
    if bytes.length ≤ i then .ok bytes.length
    else do
      let next ← lineEnd bytes (i + 1)
      match ← fenceAt bytes (i + 1) with
      | none => fencedFrom mark count bound next
      | some (m, n) =>
        let line ← part bytes (i + 1) next
        if m == mark && count ≤ n && ((line.dropWhile isIndent).drop n).all isAsciiBlank then .ok next
        else fencedFrom mark count bound next

/-- The end of a fenced block at a byte. -/
def fencedEnd (i : Nat) : Checked (Option Nat) := do
  match ← fenceAt bytes i with
  | none => .ok none
  | some (mark, count) =>
    let line ← lineEnd bytes i
    let next ← fencedFrom bytes mark count (bytes.length + 1) line
    return some next

/-- The end of the next run of exactly `run` backticks from byte `i` on. -/
def closingRunEnd (run : Nat) : Nat → Nat → Checked (Option Nat)
  | 0, _ => .error (.panic .endless)
  | bound + 1, i =>
    if bytes.length ≤ i then .ok none
    else do
      let b ← byte bytes i
      if b == '\x60' then do
        let tail ← part bytes i bytes.length
        let count := (tail.takeWhile (· == '\x60')).length
        if count == run then .ok (some (i + count)) else closingRunEnd run bound (i + count)
      else closingRunEnd run bound (i + 1)

/-- The end of a code span at a byte. -/
def codeSpanEnd (i : Nat) : Checked Nat := do
  let tail ← part bytes i bytes.length
  let run := (tail.takeWhile (· == '\x60')).length
  match ← closingRunEnd bytes run (bytes.length + 1) (i + run) with
  | some next => .ok next
  | none => .ok (i + run)

end Definitions

/-! ## Fenced blocks -/

section Fences

variable {src v w line : List Char} {mark : Char} {count i n bound : Nat}

theorem part_to_end {bytes : List Char} (h : i ≤ bytes.length) :
    part bytes i bytes.length = .ok (bytes.drop i) := by
  rw [part, if_pos ⟨h, Nat.le_refl _⟩, List.take_length]

/-- All accesses to a line are inside it. -/
theorem fenceOfLine_eq (text : List Char) : fenceOfLine text = .ok (fence? text) := by
  have hindent : (text.takeWhile isIndent).length ≤ text.length := (List.takeWhile_prefix _).length_le
  have hbody := drop_takeWhile isIndent text
  have hmark : text[(text.takeWhile isIndent).length]? = (text.dropWhile isIndent).head? := by
    rw [← hbody, List.head?_drop]
  rw [fenceOfLine, fence?, hmark]
  dsimp only
  generalize hrest : text.dropWhile isIndent = body at hbody
  cases body with
  | nil => rfl
  | cons mark body =>
      have hcount : ((mark :: body).takeWhile (· == mark)).length ≤ (mark :: body).length :=
        (List.takeWhile_prefix _).length_le
      have hlength := congrArg List.length hbody
      rw [List.length_drop] at hlength
      rw [List.head?_cons]
      dsimp only
      split
      · rfl
      · rw [part_to_end hindent, ok_bind, hbody, part_to_end (by omega), ok_bind, ← List.drop_drop, hbody]
        rfl

/-- The bytes of a line open the fence that the line opens. -/
theorem fence?_octets (line : List Char) : fence? (octets line) = fence? line := by
  rw [fence?, fence?, Narrow.isIndent.uniform.dropWhile]
  dsimp only
  generalize line.dropWhile isIndent = body
  cases body with
  | nil => rfl
  | cons mark body =>
      cases hmark : isWide mark with
      | true =>
          obtain ⟨b, bs, hbs⟩ := List.exists_cons_of_ne_nil (octetsOf_ne_nil mark)
          have hb := isWide_of_mem_octetsOf hmark (by rw [hbs]; exact List.mem_cons_self)
          rw [octets_cons, hbs, List.cons_append]
          dsimp only
          rw [bne, bne, bne, bne, beq_of_isWide hb rfl, beq_of_isWide hb rfl, beq_of_isWide hmark rfl,
            beq_of_isWide hmark rfl]
          rfl
      | false =>
          have hrun : (octets (mark :: body)).takeWhile (· == mark) = (mark :: body).takeWhile (· == mark) := by
            rw [(Narrow.beq hmark).uniform.takeWhile]
            exact (Narrow.beq hmark).octets_of_all (List.all_takeWhile ..)
          have hinfo : ((octets (mark :: body)).drop ((mark :: body).takeWhile (· == mark)).length).contains
              '\x60' = ((mark :: body).drop ((mark :: body).takeWhile (· == mark)).length).contains '\x60' := by
            rw [drop_takeWhile, ← hrun, drop_takeWhile, (Narrow.beq hmark).uniform.dropWhile]
            exact Bool.eq_iff_iff.mpr (by simp [mem_octets_iff (rfl : isWide '\x60' = false)])
          have hcons : octets (mark :: body) = mark :: octets body := by
            rw [octets_cons, octetsOf_narrow hmark]
            rfl
          rw [hcons] at hrun hinfo ⊢
          dsimp only
          rw [hrun, hinfo]

theorem fenceAt_eq (h : v <:+ src) :
    fenceAt (octets src) (offset src v) = .ok (fence? (restOfLine v)) := by
  have hline : v.take (restOfLine v).length = restOfLine v := take_takeWhile _ v
  rw [fenceAt, lineEnd_eq h, ok_bind, part_offset h, ok_bind, hline, fenceOfLine_eq, fence?_octets]

/-- What stands behind the marks of a fence is blank if its bytes are. -/
theorem all_isAsciiBlank_fence (h : fence? line = some (mark, count)) :
    (((octets line).dropWhile isIndent).drop count).all isAsciiBlank =
      ((line.dropWhile isIndent).drop count).all isAsciiBlank := by
  obtain ⟨hmark, hcount⟩ := fence?_eq_some h
  have hmark : isWide mark = false := by
    rcases hmark with rfl | rfl
    · rfl
    · rfl
  have hnarrow := Narrow.beq hmark
  have hrun : (octets (line.dropWhile isIndent)).takeWhile (· == mark) =
      (line.dropWhile isIndent).takeWhile (· == mark) := by
    rw [hnarrow.uniform.takeWhile]
    exact hnarrow.octets_of_all (List.all_takeWhile ..)
  rw [Narrow.isIndent.uniform.dropWhile, hcount, drop_takeWhile, ← hrun, drop_takeWhile,
    hnarrow.uniform.dropWhile, Narrow.isAsciiBlank.uniform.all]

/-- The lines of a text: the first one, and those behind its line feed. -/
theorem pieces_cases (s : List Char) :
    (s.drop (restOfLine s).length = [] ∧ pieces s = [restOfLine s]) ∨
      ∃ t, s.drop (restOfLine s).length = '\n' :: t ∧ pieces s = restOfLine s :: pieces t := by
  induction s with
  | nil => exact .inl ⟨rfl, rfl⟩
  | cons c s ih =>
      by_cases hc : c = '\n'
      · rw [hc]
        exact .inr ⟨s, rfl, rfl⟩
      · have hline : restOfLine (c :: s) = c :: restOfLine s := by
          rw [restOfLine, List.takeWhile_cons_of_pos (by simpa using hc)]
          rfl
        rw [hline, List.length_cons, List.drop_succ_cons, pieces, if_neg (by simpa using hc)]
        rcases ih with ⟨hend, hpieces⟩ | ⟨t, hfeed, hpieces⟩
        · rw [hpieces]
          exact .inl ⟨hend, rfl⟩
        · rw [hpieces]
          exact .inr ⟨t, hfeed, rfl⟩

/-- The lines of a fenced block end where those of the text end. -/
theorem fencedFrom_eq (h : ('\n' :: v) <:+ src) (hbound : byteSize src - offset src ('\n' :: v) < bound) :
    fencedFrom (octets src) mark count bound (offset src ('\n' :: v)) =
      .ok (offset src (('\n' :: v).drop (fenceBodyLength mark count (pieces v)))) := by
  induction bound generalizing v with
  | zero => omega
  | succ bound ih =>
      have hv := suffix_of_cons h
      have hlt := offset_lt h (List.cons_ne_nil _ v)
      have hnext := offset_narrow h (rfl : isWide '\n' = false)
      have hin : ¬ (octets src).length ≤ offset src ('\n' :: v) := by
        rw [length_octets]
        omega
      have hline := part_offset hv (restOfLine v).length
      have htake : v.take (restOfLine v).length = restOfLine v := take_takeWhile _ v
      rw [htake] at hline
      -- The next line closes the block, or the block goes on behind it.
      have hgoes : closesFence mark count (restOfLine v) = false →
          fencedFrom (octets src) mark count bound (offset src (v.drop (restOfLine v).length)) =
            .ok (offset src (('\n' :: v).drop (fenceBodyLength mark count (pieces v)))) := by
        intro hopen
        rcases pieces_cases v with ⟨hend, hpieces⟩ | ⟨t, hfeed, hpieces⟩
        · obtain ⟨bound, rfl⟩ := Nat.exists_eq_add_one_of_ne_zero (by omega : bound ≠ 0)
          have hdone : (octets src).length ≤ offset src [] := by
            rw [length_octets]
            exact Nat.le_refl _
          rw [hend, fencedFrom, if_pos hdone, hpieces, fenceBodyLength, hopen, if_neg Bool.false_ne_true,
            fenceBodyLength, Nat.add_zero, List.drop_succ_cons, hend, length_octets]
          rfl
        · have hsuffix := suffix_drop (restOfLine v).length hv
          have hle := offset_drop hv (restOfLine v).length
          rw [hfeed] at hsuffix hle
          rw [hfeed, ih hsuffix (by omega), hpieces, fenceBodyLength, hopen, if_neg Bool.false_ne_true,
            Nat.add_right_comm, List.drop_succ_cons, ← List.drop_drop, hfeed]
      have hcloses : closesFence mark count (restOfLine v) = true →
          offset src (v.drop (restOfLine v).length) =
            offset src (('\n' :: v).drop (fenceBodyLength mark count (pieces v))) := by
        intro hclose
        obtain ⟨ls, hpieces, _⟩ := pieces_eq_cons v
        rw [hpieces, fenceBodyLength, hclose, if_pos rfl, Nat.add_zero, List.drop_succ_cons]
      rw [fencedFrom, if_neg hin, ← hnext, lineEnd_eq hv, ok_bind, fenceAt_eq hv, ok_bind]
      cases hfence : fence? (restOfLine v) with
      | none =>
          apply hgoes
          rw [closesFence, hfence]
      | some found =>
          obtain ⟨m, n⟩ := found
          show (part (octets src) (offset src v) (offset src (v.drop (restOfLine v).length)) >>= _) = _
          rw [hline, ok_bind, all_isAsciiBlank_fence hfence]
          have hsame : closesFence mark count (restOfLine v) = (m == mark && count ≤ n &&
              (((restOfLine v).dropWhile isIndent).drop n).all isAsciiBlank) := by
            rw [closesFence, hfence]
          rw [← hsame]
          cases hclose : closesFence mark count (restOfLine v) with
          | true => exact congrArg _ (hcloses hclose)
          | false => exact hgoes hclose

/-- A fenced block ends where that of characters ends. -/
theorem fencedEnd_eq (h : v <:+ src) :
    fencedEnd (octets src) (offset src v) = .ok (endAt src v (fencedLength? v)) := by
  rw [fencedEnd, fenceAt_eq h, ok_bind, fencedLength?]
  dsimp only
  cases hfence : fence? (restOfLine v) with
  | none => rfl
  | some found =>
      obtain ⟨mark, count⟩ := found
      show (lineEnd (octets src) (offset src v) >>= _) = _
      rw [lineEnd_eq h, ok_bind]
      have hbody : fencedFrom (octets src) mark count ((octets src).length + 1)
          (offset src (v.drop (restOfLine v).length)) =
            .ok (offset src (v.drop ((restOfLine v).length +
              fenceBodyLength mark count ((pieces v).drop 1)))) := by
        rcases pieces_cases v with ⟨hend, hpieces⟩ | ⟨t, hfeed, hpieces⟩
        · have hdone : (octets src).length ≤ offset src [] := by
            rw [length_octets]
            exact Nat.le_refl _
          rw [hend, fencedFrom, if_pos hdone, hpieces, ← List.drop_drop, hend, length_octets]
          rfl
        · have hsuffix := suffix_drop (restOfLine v).length h
          rw [hfeed] at hsuffix
          rw [hfeed, fencedFrom_eq hsuffix (by rw [length_octets]; omega), hpieces, ← List.drop_drop, hfeed]
          rfl
      rw [hbody]
      rfl

end Fences

/-! ## Code spans -/

section Spans

variable {src v : List Char} {run i bound : Nat}

/-- A whole run of backticks closes a span or is passed over. -/
theorem closingRun?_ticks (seen count : Nat) {rest : List Char} (hrest : rest.head? ≠ some '\x60')
    (hrun : 0 ≠ run) :
    closingRun? run seen (List.replicate count '\x60' ++ rest) =
      if seen + count = run then some count else (closingRun? run 0 rest).map (· + count) := by
  induction count generalizing seen with
  | zero =>
      rw [List.replicate_zero, List.nil_append, Nat.add_zero]
      cases rest with
      | nil =>
          rw [closingRun?, closingRun?]
          simp [hrun]
      | cons c rest =>
          have hc : c ≠ '\x60' := by simpa using hrest
          have hzero : ∀ found : Option Nat, found.map (· + 0) = found := fun found => by
            cases found with
            | none => rfl
            | some n => rfl
          rw [closingRun?_of_ne hc, closingRun?_of_ne hc, if_neg hrun, hzero]
  | succ count ih =>
      rw [List.replicate_succ, List.cons_append, closingRun?_tick, ih, Nat.add_assoc, Nat.add_comm 1]
      split
      · rfl
      · cases closingRun? run 0 rest with
        | none => rfl
        | some n => rfl

/-- The run of backticks at a place, as the bytes show it. -/
theorem takeWhile_ticks (count : Nat) {rest : List Char} (hrest : rest.head? ≠ some '\x60') :
    ((octets (List.replicate count '\x60' ++ rest)).takeWhile (· == '\x60')).length = count := by
  have htick : Narrow (· == '\x60') := Narrow.beq rfl
  rw [htick.uniform.takeWhile, takeWhile_replicate_append count hrest, htick.octets_of_all (by simp),
    List.length_replicate]

/-- The run of backticks at a place, and the text behind it. -/
theorem exists_tickRun (h : ('\x60' :: v) <:+ src) : ∃ count rest,
    '\x60' :: v = List.replicate (count + 1) '\x60' ++ rest ∧ rest.head? ≠ some '\x60' ∧
      ((octets ('\x60' :: v)).takeWhile (· == '\x60')).length = count + 1 ∧
      ('\x60' :: v).drop (count + 1) = rest ∧ offset src rest = offset src ('\x60' :: v) + (count + 1) ∧
      rest <:+ src := by
  obtain ⟨count, rest, hsplit, hrest⟩ := exists_ticks v
  have hdrop : ('\x60' :: v).drop (count + 1) = rest := by
    rw [hsplit, List.drop_left' (List.length_replicate ..)]
  have htake : ('\x60' :: v).take (count + 1) = List.replicate (count + 1) '\x60' := by
    rw [hsplit, List.take_left' (List.length_replicate ..)]
  have hsize : byteSize (List.replicate (count + 1) '\x60') = count + 1 := by
    rw [byteSize_of_narrow (by simp [isWide]), List.length_replicate]
  have hmove := offset_drop h (count + 1)
  have hsuffix := suffix_drop (count + 1) h
  rw [hdrop, htake, hsize] at hmove
  rw [hdrop] at hsuffix
  have hticks := takeWhile_ticks (count + 1) hrest
  rw [← hsplit] at hticks
  exact ⟨count, rest, hsplit, hrest, hticks, hdrop, hmove, hsuffix⟩

theorem closingRunEnd_eq (hrun : 0 ≠ run) (h : Left src i v) (hbound : byteSize src - i < bound) :
    closingRunEnd (octets src) run bound i = .ok (endAt src v (closingRun? run 0 v)) := by
  induction bound generalizing i v with
  | zero => omega
  | succ bound ih =>
      have hwide : ∀ {b w}, isWide b = true → (octets src)[i]? = some b → Left src (i + 1) w →
          closingRunEnd (octets src) run (bound + 1) i = .ok (endAt src w (closingRun? run 0 w)) := by
        intro b w hb hbyte hleft
        have hin := lt_of_byte hbyte
        rw [closingRunEnd, if_neg hin, byte_eq hbyte, ok_bind, beq_of_isWide hb rfl]
        rw [length_octets] at hin
        exact ih hleft (by omega)
      have hnext := h.next
      cases hnext with
      | done hend =>
          rw [closingRunEnd, if_pos hend, closingRun?]
          simp [hrun, endAt]
      | @narrow c v hplace hc hbyte hnext hleft =>
          have hin := h.lt (List.cons_ne_nil c v)
          rw [closingRunEnd, if_neg (lt_of_byte hbyte), byte_eq hbyte, ok_bind]
          -- A run of ticks is read whole: it closes the span or is left behind.
          by_cases htick : c = '\x60'
          · subst htick
            obtain ⟨count, rest, hsplit, hhead, hticks, hdrop, hmove, hrest⟩ := exists_tickRun h.suffix
            rw [hplace, if_pos (beq_self_eq_true _), part_rest h.suffix, ok_bind, hticks, hsplit,
              closingRun?_ticks 0 (count + 1) hhead hrun, Nat.zero_add, ← hsplit]
            dsimp only
            by_cases hsame : count + 1 = run
            · rw [if_pos (beq_iff_eq.mpr hsame), if_pos hsame, ← hmove, ← hdrop]
              rfl
            · rw [if_neg (by simpa using hsame), if_neg hsame, endAt_drop, hdrop, ← hmove]
              exact ih (.of_suffix hrest) (by omega)
          · rw [beq_false_of_ne htick, closingRun?_of_ne htick, if_neg hrun]
            exact (ih hleft (by omega)).trans (congrArg _ (endAt_cons src c v _).symm)
      | @wide b c v hplace hc hb hbyte hleft =>
          rw [hwide hb hbyte hleft, closingRun?_of_ne (ne_of_isWide hc rfl), if_neg hrun, endAt_cons]
      | inside _ hb hbyte hleft => exact hwide hb hbyte hleft

/-- A code span ends where that of characters ends. -/
theorem codeSpanEnd_eq (h : ('\x60' :: v) <:+ src) :
    codeSpanEnd (octets src) (offset src ('\x60' :: v)) =
      .ok (offset src (('\x60' :: v).drop (codeSpanLength ('\x60' :: v)))) := by
  obtain ⟨count, rest, hsplit, hhead, hticks, hdrop, hmove, hrest⟩ := exists_tickRun h
  have hspan := codeSpanLength_eq (count + 1) hhead
  rw [← hsplit] at hspan
  have hsearch := @closingRunEnd_eq src rest (count + 1) (offset src rest) ((octets src).length + 1)
    (Nat.succ_ne_zero count).symm (.of_suffix hrest) (by rw [length_octets]; omega)
  rw [codeSpanEnd, part_rest h, ok_bind, hticks]
  dsimp only
  rw [← hmove, hsearch, ok_bind, hspan, ← List.drop_drop, hdrop]
  cases closingRun? (count + 1) 0 rest with
  | none => rfl
  | some n => rfl

end Spans

end Bytes
end Markup
end StoryDocs
