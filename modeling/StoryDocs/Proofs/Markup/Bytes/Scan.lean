import StoryDocs.Proofs.Markup.Bytes.Cursor
import StoryDocs.Proofs.Markup.Extent
import StoryDocs.Proofs.Text.Slice

/-!
# Scanning embedded code byte by byte

The scanners of strings, templates, comments, groups in braces and script blocks on byte indexes.  Each of
them is bounded by the number of bytes it can still pass, checks every access, and finds the end that the
scanner of characters finds, from every index up to the end of the text.
-/

namespace StoryDocs
namespace Markup
namespace Bytes

open Text

/-! ## Scanners -/

section Definitions

variable (bytes : List Char)

/-- The end of a string of which the bytes from `j` on are left. -/
def stringEnd (quote : Char) : Nat → Nat → Checked (Option Nat)
  | 0, _ => .error (.panic .endless)
  | bound + 1, j =>
    if bytes.length ≤ j then .ok none
    else do
      let b ← byte bytes j
      if b == '\\' then stringEnd quote bound (j + 2)
      else if b == '\n' then .ok none
      else if b == quote then .ok (some (j + 1))
      else stringEnd quote bound (j + 1)

/-- The end of the line at a byte. -/
def lineEnd (i : Nat) : Checked Nat := do
  let tail ← part bytes i bytes.length
  match find? ['\n'] tail with
  | some n => .ok (i + n)
  | none => .ok bytes.length

/-- The index behind the first `mark` from a byte on, or the end. -/
def endOfMark (mark : List Char) (i : Nat) : Checked Nat := do
  let tail ← part bytes i bytes.length
  match find? mark tail with
  | some n => .ok (i + n + mark.length)
  | none => .ok bytes.length

/-- The index behind a string, template or comment at a byte, if one starts there. -/
def skipLiteral (template : Nat → Checked (Option Nat)) (prev : Char) (i : Nat) :
    Checked (Option Nat) := do
  let b ← byte bytes i
  if (b == '\x22' || b == '\x27') && !isAsciiAlphanumeric prev then
    stringEnd bytes b (bytes.length + 1) (i + 1)
  else if b == '\x60' then template (i + 1)
  else if b == '/' && bytes[i + 1]? == some '/' && prev != ':' then do
    let next ← lineEnd bytes i
    return some next
  else if b == '/' && bytes[i + 1]? == some '*' then do
    let next ← endOfMark bytes ['*', '/'] (i + 2)
    return some next
  else .ok none

mutual

/-- The end of a template of which the bytes from `j` on are left. -/
def templateEnd : Nat → Nat → Checked (Option Nat)
  | 0, _ => .error (.panic .endless)
  | bound + 1, j =>
    if bytes.length ≤ j then .ok (some bytes.length)
    else do
      let b ← byte bytes j
      if b == '\\' then templateEnd bound (j + 2)
      else if b == '\x60' then .ok (some (j + 1))
      else if b == '$' && bytes[j + 1]? == some '\x7b' then do
        require (bytes[j + 1]? == some '\x7b')
        match ← braceEnd bound 0 ' ' (j + 1) with
        | none => .ok none
        | some next => templateEnd bound next
      else templateEnd bound (j + 1)

/-- The end of a group in braces of which `depth` are open, from byte `i` on. -/
def braceEnd : Nat → Nat → Char → Nat → Checked (Option Nat)
  | 0, _, _, _ => .error (.panic .endless)
  | bound + 1, depth, prev, i =>
    if bytes.length ≤ i then .ok none
    else do
      match ← skipLiteral bytes (templateEnd bound) prev i with
      | some next =>
        let last ← byte bytes (← pred next)
        braceEnd bound depth last next
      | none =>
        let b ← byte bytes i
        if b == '\x7b' then braceEnd bound (depth + 1) b (i + 1)
        else if b == '\x7d' then do
          let left ← pred depth
          if left == 0 then .ok (some (i + 1)) else braceEnd bound left b (i + 1)
        else braceEnd bound depth b (i + 1)

end

/-- The end of a group in braces at a byte. -/
def groupEnd (i : Nat) : Checked (Option Nat) := do
  require (bytes[i]? == some '\x7b')
  braceEnd bytes (bytes.length + 1) 0 ' ' i

/-- Whether the line at a byte is blank. -/
def lineIsBlankAt (i : Nat) : Checked Bool := do
  let tail ← part bytes (min i bytes.length) bytes.length
  return lineIsBlank tail

/-- The end of a script block with `depth` brackets open, from byte `i` on. -/
def scriptEndFrom : Nat → Nat → Char → Nat → Checked Nat
  | 0, _, _, _ => .error (.panic .endless)
  | bound + 1, depth, prev, i =>
    if bytes.length ≤ i then .ok bytes.length
    else do
      match ← skipLiteral bytes (templateEnd bytes bound) prev i with
      | some next =>
        let last ← byte bytes (← pred next)
        scriptEndFrom bound depth last next
      | none =>
        let b ← byte bytes i
        if b == '\x7b' || b == '[' || b == '(' then scriptEndFrom bound (depth + 1) b (i + 1)
        else if b == '\x7d' || b == ']' || b == ')' then scriptEndFrom bound (depth - 1) b (i + 1)
        else if b == '\n' && depth == 0 then do
          if ← lineIsBlankAt bytes (i + 1) then .ok i else scriptEndFrom bound depth b (i + 1)
        else scriptEndFrom bound depth b (i + 1)

/-- The end of a script block at a byte. -/
def scriptEnd (i : Nat) : Checked Nat :=
  scriptEndFrom bytes (bytes.length + 1) 0 ' ' i

end Definitions

/-! ## Strings -/

section Scans

variable {src v w : List Char} {c quote : Char} {i j n bound : Nat}

/-- Where the text behind an extent starts. -/
def endAt (src v : List Char) (extent : Option Nat) : Option Nat :=
  extent.map fun n => offset src (v.drop n)

theorem endAt_cons (src : List Char) (c : Char) (v : List Char) (extent : Option Nat) :
    endAt src (c :: v) (extent.map (· + 1)) = endAt src v extent := by
  cases extent with
  | none => rfl
  | some n => rfl

theorem stringLength?_escape (quote : Char) (v : List Char) :
    stringLength? quote ('\\' :: v) = (stringLength? quote v.tail).map (· + 2) := by
  cases v with
  | nil => rfl
  | cons c v => rw [stringLength?]; rfl

theorem stringLength?_of_ne (hc : c ≠ '\\') (quote : Char) (v : List Char) :
    stringLength? quote (c :: v) =
      if c == '\n' then none else if c == quote then some 1
      else (stringLength? quote v).map (· + 1) := by
  rw [stringLength?]
  · exact fun heq _ => hc heq
  · exact fun _ _ heq _ => hc heq

theorem lt_of_byte {bytes : List Char} {b : Char} (h : bytes[i]? = some b) : ¬ bytes.length ≤ i := by
  have hlt := (List.getElem?_eq_some_iff.mp h).choose
  omega

/-- No string changes at a wide character. -/
theorem stringLength?_wide (hquote : isWide quote = false) (hc : isWide c = true) (v : List Char) :
    stringLength? quote (c :: v) = (stringLength? quote v).map (· + 1) := by
  rw [stringLength?_of_ne (ne_of_isWide hc rfl), beq_of_isWide hc rfl, beq_of_isWide hc hquote]
  rfl

theorem stringEnd_eq (hquote : isWide quote = false) (h : Left src j v)
    (hbound : byteSize src - j < bound) :
    stringEnd (octets src) quote bound j = .ok (endAt src v (stringLength? quote v)) := by
  induction bound generalizing j v with
  | zero => omega
  | succ bound ih =>
      -- A byte of a wide character is passed over.
      have hwide : ∀ {b w}, isWide b = true → (octets src)[j]? = some b → Left src (j + 1) w →
          stringEnd (octets src) quote (bound + 1) j = .ok (endAt src w (stringLength? quote w)) := by
        intro b w hb hbyte hleft
        have hin := lt_of_byte hbyte
        rw [stringEnd, if_neg hin, byte_eq hbyte, ok_bind, beq_of_isWide hb rfl, beq_of_isWide hb rfl,
          beq_of_isWide hb hquote]
        rw [length_octets] at hin
        exact ih hleft (by omega)
      have hnext := h.next
      cases hnext with
      | done hend => rw [stringEnd, if_pos hend]; rfl
      | @narrow c v hplace hc hbyte hnext hleft =>
          have hin := lt_of_byte hbyte
          rw [stringEnd, if_neg hin, byte_eq hbyte, ok_bind]
          rw [length_octets] at hin
          by_cases hslash : c = '\\'
          · -- The backslash may stand before a wide character or at the end of the text.
            have hskip := Left.behind hleft.suffix
            rw [← hnext] at hskip
            rw [if_pos (beq_iff_eq.mpr hslash), ih hskip (by omega), hslash, stringLength?_escape]
            cases stringLength? quote v.tail with
            | none => rfl
            | some n =>
                cases v with
                | nil => simp [endAt]
                | cons d v => rfl
          rw [beq_false_of_ne hslash, stringLength?_of_ne hslash]
          by_cases hfeed : c = '\n'
          · rw [hfeed]
            rfl
          rw [beq_false_of_ne hfeed]
          by_cases hend : c = quote
          · rw [hend, beq_self_eq_true, hnext]
            rfl
          rw [beq_false_of_ne hend]
          exact (ih hleft (by omega)).trans (congrArg _ (endAt_cons src c v _).symm)
      | @wide b c v hplace hc hb hbyte hleft =>
          rw [hwide hb hbyte hleft, stringLength?_wide hquote hc, endAt_cons]
      | inside _ hb hbyte hleft => exact hwide hb hbyte hleft

/-! ## Literals -/

/-- A character is found behind all those that are other ones. -/
theorem find?_singleton (c : Char) (s : List Char) :
    find? [c] s = if c ∈ s then some (s.takeWhile (· != c)).length else none := by
  induction s with
  | nil => rfl
  | cons d s ih =>
      by_cases hd : d = c
      · have htake : (d :: s).takeWhile (· != c) = [] := List.takeWhile_cons_of_neg (by simp [hd])
        have hstart : startsWith [c] (d :: s) = true := by
          simp [startsWith, dropLead?, hd]
        rw [find?, hstart, htake, if_pos rfl, if_pos (by simp [hd]), List.length_nil]
      have hstart : startsWith [c] (d :: s) = false := by
        rw [startsWith, dropLead?, if_neg (by simpa using Ne.symm hd)]
        rfl
      rw [find?, hstart, ih, List.takeWhile_cons_of_pos (by simpa using hd)]
      by_cases hs : c ∈ s
      · rw [if_pos hs, if_pos (List.mem_cons_of_mem d hs)]
        rfl
      · have hcons : c ∉ d :: s := by
          simp [hs, Ne.symm hd]
        rw [if_neg hs, if_neg hcons]
        rfl

theorem restOfLine_of_not_mem {s : List Char} (h : '\n' ∉ s) : restOfLine s = s := by
  have hline : ∀ c ∈ s, (c != '\n') = true := by
    intro c hc
    rw [bne_iff_ne]
    rintro rfl
    exact h hc
  have htake := @List.takeWhile_append_of_pos Char (· != '\n') s [] hline
  rw [List.append_nil, List.takeWhile_nil, List.append_nil] at htake
  exact htake

theorem lineEnd_eq (h : v <:+ src) :
    lineEnd (octets src) (offset src v) = .ok (offset src (v.drop (restOfLine v).length)) := by
  rw [lineEnd, part_rest h, ok_bind, find?_octets (by simp [isWide]) (by simp), find?_singleton]
  by_cases hfeed : '\n' ∈ v
  · rw [if_pos hfeed, offset_drop h]
    rfl
  · rw [if_neg hfeed, restOfLine_of_not_mem hfeed, List.drop_length, length_octets]
    rfl

theorem endOfMark_eq {mark : List Char} (hmark : ∀ c ∈ mark, isWide c = false) (hne : mark ≠ [])
    (h : v <:+ src) :
    endOfMark (octets src) mark (offset src v) = .ok (offset src (v.drop (lengthThrough mark v))) := by
  rw [endOfMark, part_rest h, ok_bind, find?_octets hmark hne, lengthThrough]
  cases hfind : find? mark v with
  | none => rw [Option.map_none, List.drop_length, length_octets]; rfl
  | some n =>
      obtain ⟨front, rest, rfl, rfl⟩ := exists_of_find?_eq_some hfind
      have hthrough : (front ++ mark ++ rest).take (front.length + mark.length) = front ++ mark := by
        rw [← List.length_append, List.take_left]
      have hfront : (front ++ mark ++ rest).take front.length = front := by
        rw [List.append_assoc, List.take_left]
      rw [offset_drop h, hthrough, byteSize_append, byteSize_of_narrow hmark, Option.map_some, hfront,
        ← Nat.add_assoc]

/-- Strings and templates are all literals that do not start with a slash. -/
theorem literalLength?_of_ne_slash (hc : c ≠ '/') (template : List Char → Option Nat) (prior : Char)
    (v : List Char) : literalLength? template prior (c :: v) =
      if c == '\x22' || c == '\x27' then
        if isAsciiAlphanumeric prior then none else (stringLength? c v).map (· + 1)
      else if c == '\x60' then (template v).map (· + 1)
      else none := by
  rw [literalLength?]
  · exact fun _ heq _ => hc heq
  · exact fun _ heq _ => hc heq

theorem literalLength?_wide (hc : isWide c = true) (template : List Char → Option Nat) (prior : Char)
    (v : List Char) : literalLength? template prior (c :: v) = none := by
  rw [literalLength?_of_ne_slash (ne_of_isWide hc rfl), beq_of_isWide hc rfl, beq_of_isWide hc rfl,
    beq_of_isWide hc rfl]
  rfl

/-- A comment starts at a slash before another slash or a star. -/
theorem literalLength?_slash (template : List Char → Option Nat) (prior : Char) (v : List Char) :
    literalLength? template prior ('/' :: v) =
      if v.head? == some '/' then
        if prior == ':' then none else some (restOfLine ('/' :: v)).length
      else if v.head? == some '*' then some (lengthThrough ['*', '/'] v.tail + 2)
      else none := by
  cases v with
  | nil => rfl
  | cons d v =>
      by_cases hslash : d = '/'
      · rw [hslash]
        rfl
      by_cases hstar : d = '*'
      · rw [hstar]
        rfl
      have hfirst : (some d == some '/') = false := by simpa using hslash
      have hsecond : (some d == some '*') = false := by simpa using hstar
      rw [literalLength?, List.head?_cons, hfirst, hsecond]
      · rfl
      · exact fun _ _ heq => hslash (List.cons.inj heq).1
      · exact fun _ _ heq => hstar (List.cons.inj heq).1

/-- No literal starts at a byte of a wide character. -/
theorem skipLiteral_wide {b prev : Char} {template : Nat → Checked (Option Nat)} (hb : isWide b = true)
    (hbyte : (octets src)[i]? = some b) :
    skipLiteral (octets src) template prev i = .ok none := by
  rw [skipLiteral, byte_eq hbyte, ok_bind, beq_of_isWide hb rfl, beq_of_isWide hb rfl,
    beq_of_isWide hb rfl, beq_of_isWide hb rfl]
  rfl

/-- At a narrow character the scanners of literals agree, given that those of templates do. -/
theorem skipLiteral_eq {prev prior : Char} {template : Nat → Checked (Option Nat)}
    {templateLength : List Char → Option Nat} (h : (c :: v) <:+ src) (hc : isWide c = false)
    (hprev : ByteOf prev prior)
    (htemplate : template (offset src v) = .ok (endAt src v (templateLength v))) :
    skipLiteral (octets src) template prev (offset src (c :: v)) =
      .ok (endAt src (c :: v) (literalLength? templateLength prior (c :: v))) := by
  have hnext := offset_narrow h hc
  have hbyte : (octets src)[offset src (c :: v)]? = some c := by
    rw [getElem?_offset_zero h, octets_cons, octetsOf_narrow hc]
    rfl
  have hsecond : (octets src)[offset src (c :: v) + 1]? = (octets v).head? := by
    rw [← hnext, getElem?_offset_zero (suffix_of_cons h)]
  have halnum := hprev.test Narrow.isAsciiAlphanumeric.uniform
  rw [skipLiteral, byte_eq hbyte, ok_bind, halnum, ← hnext]
  -- A slash may start a comment: of a line if no colon is in front of it, or of a block.
  by_cases hslash : c = '/'
  · subst hslash
    have hcolon := hprev.test (Narrow.beq (rfl : isWide ':' = false)).uniform
    have hfirst := head?_octets (rfl : isWide '/' = false) v
    have hstar := head?_octets (rfl : isWide '*' = false) v
    rw [← getElem?_offset_zero (suffix_of_cons h)] at hfirst hstar
    rw [literalLength?_slash, hfirst, hstar]
    cases hsame : v.head? == some '/' with
    | true =>
        rw [bne, hcolon]
        cases prior == ':' with
        | true =>
            rw [beq_iff_eq.mp hsame]
            rfl
        | false =>
            show (lineEnd (octets src) (offset src ('/' :: v)) >>= fun next => pure (some next)) = _
            rw [lineEnd_eq h]
            rfl
    | false =>
        cases hblock : v.head? == some '*' with
        | true =>
            obtain ⟨w, rfl⟩ := List.head?_eq_some_iff.mp (beq_iff_eq.mp hblock)
            have hbody := offset_narrow (suffix_of_cons h) (rfl : isWide '*' = false)
            have hend := endOfMark_eq (by simp [isWide] : ∀ c ∈ ['*', '/'], isWide c = false) (by simp)
              (suffix_of_cons (suffix_of_cons h))
            rw [hbody, hnext] at hend
            show (endOfMark (octets src) ['*', '/'] (offset src ('/' :: '*' :: w) + 2) >>=
              fun next => pure (some next)) = _
            rw [hend]
            rfl
        | false => rfl
  rw [literalLength?_of_ne_slash hslash, beq_false_of_ne hslash]
  -- A quote behind a letter or a digit starts no string.
  by_cases hquote : (c == '\x22' || c == '\x27') = true
  · have hstring := @stringEnd_eq src v c (offset src v) ((octets src).length + 1) hc
      (.of_suffix (suffix_of_cons h)) (by rw [length_octets]; omega)
    rw [hquote, Bool.true_and]
    cases isAsciiAlphanumeric prior with
    | true =>
        rcases Bool.or_eq_true_iff.mp hquote with hdouble | hsingle
        · rw [beq_iff_eq.mp hdouble]
          rfl
        · rw [beq_iff_eq.mp hsingle]
          rfl
    | false =>
        show stringEnd (octets src) c ((octets src).length + 1) (offset src v) =
          .ok (endAt src (c :: v) ((stringLength? c v).map (· + 1)))
        rw [endAt_cons]
        exact hstring
  rw [Bool.not_eq_true] at hquote
  rw [hquote]
  by_cases htick : c = '\x60'
  · rw [htick]
    show template (offset src v) = .ok (endAt src ('\x60' :: v) ((templateLength v).map (· + 1)))
    rw [endAt_cons]
    exact htemplate
  · rw [beq_false_of_ne htick]
    rfl

theorem literalLength?_pos {template : List Char → Option Nat} {prior : Char}
    (h : literalLength? template prior v = some n) : 0 < n := by
  cases v with
  | nil => cases h
  | cons c v =>
      by_cases hslash : c = '/'
      · rw [hslash, literalLength?_slash] at h
        split at h
        · split at h
          · cases h
          · cases h
            exact Nat.succ_pos _
        · split at h
          · cases h
            exact Nat.succ_pos _
          · cases h
      · rw [literalLength?_of_ne_slash hslash] at h
        split at h
        · split at h
          · cases h
          · obtain ⟨m, _, rfl⟩ := Option.map_eq_some_iff.mp h
            exact Nat.succ_pos m
        · split at h
          · obtain ⟨m, _, rfl⟩ := Option.map_eq_some_iff.mp h
            exact Nat.succ_pos m
          · cases h

/-- The byte before the end of a literal belongs to its last character. -/
theorem byte_lastOf (h : v <:+ src) (hv : v ≠ []) (hn : 0 < n) :
    ∃ b, pred (offset src (v.drop n)) = .ok (offset src (v.drop n) - 1) ∧
      byte (octets src) (offset src (v.drop n) - 1) = .ok b ∧ ByteOf b (lastOf n v) := by
  have htake : v.take n ≠ [] := by
    rw [Ne, List.take_eq_nil_iff]
    rintro (hzero | hnil)
    · omega
    · exact hv hnil
  have hlast : v.take n = (v.take n).dropLast ++ [lastOf n v] := by
    rw [lastOf, List.getLast?_eq_some_getLast htake, Option.getD_some, List.dropLast_concat_getLast htake]
  have hpos := offset_lt_drop h hv hn
  have hbefore : before src (v.drop n) = (before src v ++ (v.take n).dropLast) ++ [lastOf n v] := by
    rw [before_drop h, List.append_assoc, ← hlast]
  obtain ⟨b, hbyte, hb⟩ := byte_before (suffix_drop n h) hbefore
  exact ⟨b, pred_of_pos (by omega), byte_eq hbyte, hb⟩

/-! ## Templates and groups in braces -/

theorem endAt_drop (src v : List Char) (n : Nat) (extent : Option Nat) :
    endAt src v (extent.map (· + n)) = endAt src (v.drop n) extent := by
  cases extent with
  | none => rfl
  | some m =>
      show some (offset src (v.drop (m + n))) = some (offset src ((v.drop n).drop m))
      rw [List.drop_drop, Nat.add_comm]

/-- An escape takes the next character off, if there is one. -/
theorem endAt_template_escape {most : Nat} (hmost : v.length < most) :
    endAt src ('\\' :: v) (templateLength? (most + 1) ('\\' :: v)) =
      endAt src v.tail (templateLength? most v.tail) := by
  obtain ⟨most, rfl⟩ := Nat.exists_eq_succ_of_ne_zero (by omega : most ≠ 0)
  cases v with
  | nil => rfl
  | cons c v =>
      rw [templateLength?]
      exact endAt_drop src ('\\' :: c :: v) 2 _

theorem templateLength?_group (most : Nat) (v : List Char) :
    templateLength? (most + 1) ('$' :: '\x7b' :: v) =
      (braceLength? most 0 ' ' ('\x7b' :: v)).bind fun n =>
        (templateLength? most (('\x7b' :: v).drop n)).map (· + (n + 1)) := by
  rw [templateLength?]
  cases braceLength? most 0 ' ' ('\x7b' :: v) with
  | none => rfl
  | some n => rfl

/-- All other characters of a template stand for themselves. -/
theorem templateLength?_of_ne {most : Nat} (hslash : c ≠ '\\')
    (hgroup : ¬ (c = '$' ∧ v.head? = some '\x7b')) :
    templateLength? (most + 1) (c :: v) =
      if c == '\x60' then some 1 else (templateLength? most v).map (· + 1) := by
  rw [templateLength?]
  · exact fun heq _ => hslash heq
  · exact fun _ _ heq _ => hslash heq
  · rintro s heq rfl
    exact hgroup ⟨heq, rfl⟩

/-- With a bound above the number of bytes that are left, the scanners of templates and groups find the ends
that those of characters find. -/
structure Ends (src : List Char) (bound : Nat) : Prop where
  template : ∀ {j : Nat} {v : List Char} {most : Nat}, Left src j v → byteSize src - j < bound →
    v.length < most → templateEnd (octets src) bound j = .ok (endAt src v (templateLength? most v))
  braces : ∀ {depth : Nat} {prev prior : Char} {i : Nat} {v : List Char} {most : Nat},
    ByteOf prev prior → Left src i v → i = offset src v ∨ isWide prior = true →
    byteSize src - i < bound → v.length < most →
    braceEnd (octets src) bound (depth + 1) prev i = .ok (endAt src v (braceLength? most (depth + 1) prior v))
  group : ∀ {prev prior : Char} {v : List Char} {most : Nat}, ('\x7b' :: v) <:+ src →
    byteSize src - offset src ('\x7b' :: v) < bound → v.length + 1 < most →
    braceEnd (octets src) bound 0 prev (offset src ('\x7b' :: v)) =
      .ok (endAt src ('\x7b' :: v) (braceLength? most 0 prior ('\x7b' :: v)))

theorem Ends.literal (ends : Ends src bound) {most : Nat} {prev prior : Char} (h : (c :: v) <:+ src)
    (hc : isWide c = false) (hprev : ByteOf prev prior)
    (hbound : byteSize src - offset src (c :: v) < bound + 1) (hmost : v.length < most) :
    skipLiteral (octets src) (templateEnd (octets src) bound) prev (offset src (c :: v)) =
      .ok (endAt src (c :: v) (literalLength? (templateLength? most) prior (c :: v))) := by
  have hnext := offset_narrow h hc
  have hlt := offset_lt h (List.cons_ne_nil c v)
  exact skipLiteral_eq h hc hprev
    (ends.template (.of_suffix (suffix_of_cons h)) (by omega) hmost)

theorem Ends.template_succ (ends : Ends src bound) {most : Nat} (h : Left src j v)
    (hbound : byteSize src - j < bound + 1) (hmost : v.length < most) :
    templateEnd (octets src) (bound + 1) j = .ok (endAt src v (templateLength? most v)) := by
  -- A byte of a wide character is passed over.
  have hwide : ∀ {b w most}, isWide b = true → (octets src)[j]? = some b → Left src (j + 1) w →
      w.length < most →
      templateEnd (octets src) (bound + 1) j = .ok (endAt src w (templateLength? most w)) := by
    intro b w most hb hbyte hleft hw
    have hin := lt_of_byte hbyte
    rw [templateEnd, if_neg hin, byte_eq hbyte, ok_bind, beq_of_isWide hb rfl, beq_of_isWide hb rfl,
      beq_of_isWide hb rfl]
    rw [length_octets] at hin
    exact ends.template hleft (by omega) hw
  obtain ⟨most, rfl⟩ := Nat.exists_eq_add_one_of_ne_zero (by omega : most ≠ 0)
  have hnext := h.next
  cases hnext with
  | done hend =>
      rw [templateEnd, if_pos hend, length_octets]
      rfl
  | @narrow c v hplace hc hbyte hnext hleft =>
      rw [List.length_cons] at hmost
      have hin := lt_of_byte hbyte
      rw [templateEnd, if_neg hin, byte_eq hbyte, ok_bind]
      rw [length_octets] at hin
      by_cases hslash : c = '\\'
      · have hskip := Left.behind hleft.suffix
        rw [← hnext] at hskip
        have htail : v.tail.length < most := by
          rw [List.length_tail]
          omega
        rw [hslash, endAt_template_escape (by omega)]
        exact ends.template hskip (by omega) htail
      rw [beq_false_of_ne hslash]
      have hsecond := head?_octets (rfl : isWide '\x7b' = false) v
      rw [← getElem?_offset_zero hleft.suffix, ← hnext] at hsecond
      rw [hsecond]
      by_cases hgroup : c = '$' ∧ v.head? = some '\x7b'
      · obtain ⟨rfl, hhead⟩ := hgroup
        obtain ⟨w, rfl⟩ := List.head?_eq_some_iff.mp hhead
        have hbraces := @ends.group ' ' ' ' w most hleft.suffix (by omega) (by simpa using hmost)
        rw [← hnext] at hbraces
        show (braceEnd (octets src) bound 0 ' ' (j + 1) >>= _) = _
        rw [hbraces, templateLength?_group, ok_bind]
        cases hgroup : braceLength? most 0 ' ' ('\x7b' :: w) with
        | none => rfl
        | some n =>
            have hdrop := suffix_drop n hleft.suffix
            have hle := offset_drop hleft.suffix n
            have hlength := List.length_drop (i := n) (l := '\x7b' :: w)
            show templateEnd (octets src) bound (offset src (('\x7b' :: w).drop n)) =
              .ok (endAt src ('$' :: '\x7b' :: w)
                ((templateLength? most (('\x7b' :: w).drop n)).map (· + (n + 1))))
            have hrest : (('\x7b' :: w).drop n).length < most := by omega
            rw [endAt_drop]
            exact ends.template (.of_suffix hdrop) (by omega) hrest
      rw [templateLength?_of_ne hslash hgroup]
      by_cases htick : c = '\x60'
      · rw [htick, hnext]
        rfl
      have hno : (c == '$' && v.head? == some '\x7b') = false := by
        simpa using hgroup
      rw [beq_false_of_ne htick, hno]
      exact (ends.template hleft (by omega) (by omega)).trans (congrArg _ (endAt_cons src c v _).symm)
  | @wide b c v hplace hc hb hbyte hleft =>
      have hne : ∀ {d}, isWide d = false → c ≠ d := ne_of_isWide hc
      rw [hwide hb hbyte hleft (Nat.lt_of_succ_lt_succ hmost), templateLength?_of_ne (hne rfl)
        (fun hgroup => hne rfl hgroup.1), beq_of_isWide hc rfl]
      exact congrArg _ (endAt_cons src c v _).symm
  | inside _ hb hbyte hleft => exact hwide hb hbyte hleft hmost

theorem braceLength?_cons (most depth : Nat) (prior c : Char) (v : List Char) :
    braceLength? (most + 1) depth prior (c :: v) =
      ((literalLength? (templateLength? most) prior (c :: v)).elim
        (if c == '\x7b' then (braceLength? most (depth + 1) c v).map (· + 1)
          else if c == '\x7d' then
            if depth ≤ 1 then some 1 else (braceLength? most (depth - 1) c v).map (· + 1)
          else (braceLength? most depth c v).map (· + 1))
        fun n => (braceLength? most depth (lastOf n (c :: v)) ((c :: v).drop n)).map (· + n)) := by
  rw [braceLength?]
  cases literalLength? (templateLength? most) prior (c :: v) with
  | none => rfl
  | some n => rfl

theorem Ends.braces_succ (ends : Ends src bound) {depth most : Nat} {prev prior : Char}
    (hprev : ByteOf prev prior) (h : Left src i v) (hprior : i = offset src v ∨ isWide prior = true)
    (hbound : byteSize src - i < bound + 1) (hmost : v.length < most) :
    braceEnd (octets src) (bound + 1) (depth + 1) prev i =
      .ok (endAt src v (braceLength? most (depth + 1) prior v)) := by
  -- No group changes at a byte of a wide character.
  have hwide : ∀ {b c w most}, isWide b = true → isWide c = true → (octets src)[i]? = some b →
      Left src (i + 1) w → w.length < most →
      braceEnd (octets src) (bound + 1) (depth + 1) prev i =
        .ok (endAt src w (braceLength? most (depth + 1) c w)) := by
    intro b c w most hb hc hbyte hleft hw
    have hin := lt_of_byte hbyte
    rw [braceEnd, if_neg hin, skipLiteral_wide hb hbyte, ok_bind]
    dsimp only
    rw [byte_eq hbyte, ok_bind, beq_of_isWide hb rfl, beq_of_isWide hb rfl]
    rw [length_octets] at hin
    exact ends.braces (.inr ⟨hb, hc⟩) hleft (.inr hc) (by omega) hw
  obtain ⟨most, rfl⟩ := Nat.exists_eq_add_one_of_ne_zero (by omega : most ≠ 0)
  have hnext := h.next
  cases hnext with
  | done hend =>
      rw [braceEnd, if_pos hend]
      rfl
  | @narrow c v hplace hc hbyte hnext hleft =>
      rw [List.length_cons] at hmost
      have hin := h.lt (List.cons_ne_nil c v)
      have hliteral := ends.literal h.suffix hc hprev (by omega) (Nat.lt_of_succ_lt_succ hmost)
      rw [← hplace] at hliteral
      rw [braceEnd, if_neg (lt_of_byte hbyte), hliteral, ok_bind, braceLength?_cons]
      cases hskip : literalLength? (templateLength? most) prior (c :: v) with
      | some n =>
          have hpos := literalLength?_pos hskip
          obtain ⟨b, hpred, hlast, hb⟩ := byte_lastOf h.suffix (List.cons_ne_nil c v) hpos
          have hlt := offset_lt_drop h.suffix (List.cons_ne_nil c v) hpos
          have hmore : byteSize src - offset src ((c :: v).drop n) < bound := by omega
          have hrest : ((c :: v).drop n).length < most := by
            rw [List.length_drop, List.length_cons]
            omega
          show (pred (offset src ((c :: v).drop n)) >>= _) = _
          rw [hpred, ok_bind, hlast, ok_bind, Option.elim_some, endAt_drop]
          exact ends.braces hb (.of_suffix (suffix_drop n h.suffix)) (.inl rfl) hmore hrest
      | none =>
          have hbehind : ∀ {depth}, braceEnd (octets src) bound (depth + 1) c (i + 1) =
              .ok (endAt src v (braceLength? most (depth + 1) c v)) := by
            intro depth
            exact ends.braces (.inl rfl) hleft (.inl hnext) (by omega) (by omega)
          show (byte (octets src) i >>= _) = _
          rw [byte_eq hbyte, ok_bind, Option.elim_none]
          by_cases hopen : c = '\x7b'
          · rw [hopen] at hbehind ⊢
            exact hbehind.trans (congrArg _ (endAt_cons src _ v _).symm)
          rw [beq_false_of_ne hopen]
          by_cases hclose : c = '\x7d'
          · rw [hclose] at hbehind ⊢
            cases depth with
            | zero =>
                rw [hnext]
                rfl
            | succ depth => exact hbehind.trans (congrArg _ (endAt_cons src _ v _).symm)
          · rw [beq_false_of_ne hclose]
            exact hbehind.trans (congrArg _ (endAt_cons src _ v _).symm)
  | @wide b c v hplace hc hb hbyte hleft =>
      rw [braceLength?_cons, literalLength?_wide hc, Option.elim_none, beq_of_isWide hc rfl,
        beq_of_isWide hc rfl]
      exact (hwide hb hc hbyte hleft (Nat.lt_of_succ_lt_succ hmost)).trans (congrArg _ (endAt_cons src c v _).symm)
  | inside hplace hb hbyte hleft =>
      have hpriorWide : isWide prior = true := by
        rcases hprior with hat | hpriorWide
        · omega
        · exact hpriorWide
      exact hwide hb hpriorWide hbyte hleft hmost

theorem Ends.group_succ (ends : Ends src bound) {most : Nat} {prev prior : Char}
    (h : ('\x7b' :: v) <:+ src) (hbound : byteSize src - offset src ('\x7b' :: v) < bound + 1)
    (hmost : v.length + 1 < most) :
    braceEnd (octets src) (bound + 1) 0 prev (offset src ('\x7b' :: v)) =
      .ok (endAt src ('\x7b' :: v) (braceLength? most 0 prior ('\x7b' :: v))) := by
  obtain ⟨most, rfl⟩ := Nat.exists_eq_add_one_of_ne_zero (by omega : most ≠ 0)
  have hnext := offset_narrow h (rfl : isWide '\x7b' = false)
  have hlt := offset_lt h (List.cons_ne_nil _ v)
  have hbyte : (octets src)[offset src ('\x7b' :: v)]? = some '\x7b' := by
    rw [getElem?_offset_zero h]
    rfl
  have hnone : skipLiteral (octets src) (templateEnd (octets src) bound) prev
      (offset src ('\x7b' :: v)) = .ok none := by
    rw [skipLiteral, byte_eq hbyte]
    rfl
  have hbraces := @ends.braces 0 '\x7b' '\x7b' (offset src v) v most (.inl rfl)
    (.of_suffix (suffix_of_cons h)) (.inl rfl) (by omega) (by omega)
  rw [hnext] at hbraces
  rw [braceEnd, if_neg (lt_of_byte hbyte), hnone, ok_bind, braceLength?_cons, literalLength?_open_brace]
  show (byte (octets src) (offset src ('\x7b' :: v)) >>= _) = _
  rw [byte_eq hbyte, ok_bind]
  exact hbraces.trans (congrArg _ (endAt_cons src _ v _).symm)

/-- The scanners of templates and groups in braces find the ends that those of characters find. -/
theorem ends (src : List Char) (bound : Nat) : Ends src bound := by
  induction bound with
  | zero =>
      exact ⟨fun _ hbound => absurd hbound (Nat.not_lt_zero _),
        fun _ _ _ hbound => absurd hbound (Nat.not_lt_zero _),
        fun _ hbound => absurd hbound (Nat.not_lt_zero _)⟩
  | succ bound ih =>
      exact ⟨fun h hbound hmost => ih.template_succ h hbound hmost,
        fun hprev h hprior hbound hmost => ih.braces_succ hprev h hprior hbound hmost,
        fun h hbound hmost => ih.group_succ h hbound hmost⟩

/-- A group in braces ends where that of characters ends. -/
theorem groupEnd_eq (h : ('\x7b' :: v) <:+ src) :
    groupEnd (octets src) (offset src ('\x7b' :: v)) =
      .ok (endAt src ('\x7b' :: v) (groupLength? ('\x7b' :: v))) := by
  have hbyte : (octets src)[offset src ('\x7b' :: v)]? = some '\x7b' := by
    rw [getElem?_offset_zero h]
    rfl
  rw [groupEnd, hbyte]
  show braceEnd (octets src) ((octets src).length + 1) 0 ' ' (offset src ('\x7b' :: v)) = _
  rw [groupLength?, length_octets]
  exact (ends src _).group h (by omega) (Nat.lt_succ_self _)

/-! ## Script blocks -/

theorem lineIsBlankAt_eq (h : v <:+ src) :
    lineIsBlankAt (octets src) (offset src v) = .ok (lineIsBlank v) := by
  have hmin : min (offset src v) (octets src).length = offset src v := by
    rw [length_octets]
    exact Nat.min_eq_left (offset_le src v)
  have hfeed : Uniform (· != '\n') := (Narrow.beq rfl).uniform.not
  rw [lineIsBlankAt, hmin, part_rest h, ok_bind, lineIsBlank, restOfLine, hfeed.takeWhile,
    Narrow.isAsciiBlank.uniform.all]
  rfl

theorem scriptLengthFrom_cons (most depth : Nat) (prior c : Char) (v : List Char) :
    scriptLengthFrom (most + 1) depth prior (c :: v) =
      (literalLength? (templateLength? most) prior (c :: v)).elim
        (if c == '\x7b' || c == '[' || c == '(' then scriptLengthFrom most (depth + 1) c v + 1
          else if c == '\x7d' || c == ']' || c == ')' then scriptLengthFrom most (depth - 1) c v + 1
          else if c == '\n' && depth == 0 && lineIsBlank v then 0
          else scriptLengthFrom most depth c v + 1)
        fun n => scriptLengthFrom most depth (lastOf n (c :: v)) ((c :: v).drop n) + n := by
  rw [scriptLengthFrom]
  cases literalLength? (templateLength? most) prior (c :: v) with
  | none => rfl
  | some n => rfl

/-- A script block ends where that of characters ends. -/
theorem scriptEndFrom_eq {depth most : Nat} {prev prior : Char} (hprev : ByteOf prev prior)
    (h : Left src i v) (hprior : i = offset src v ∨ isWide prior = true)
    (hbound : byteSize src - i < bound) (hmost : v.length < most) :
    scriptEndFrom (octets src) bound depth prev i =
      .ok (offset src (v.drop (scriptLengthFrom most depth prior v))) := by
  induction bound generalizing depth prev prior i v most with
  | zero => omega
  | succ bound ih =>
      -- No byte of a wide character is looked for, be it the first one or one that is left of it.
      have hwide : ∀ {b c w most}, isWide b = true → isWide c = true → (octets src)[i]? = some b →
          Left src (i + 1) w → w.length < most →
          scriptEndFrom (octets src) (bound + 1) depth prev i =
            .ok (offset src (w.drop (scriptLengthFrom most depth c w))) := by
        intro b c w most hb hc hbyte hleft hw
        have hin := lt_of_byte hbyte
        rw [scriptEndFrom, if_neg hin, skipLiteral_wide hb hbyte, ok_bind]
        dsimp only
        rw [byte_eq hbyte, ok_bind, beq_of_isWide hb rfl, beq_of_isWide hb rfl, beq_of_isWide hb rfl,
          beq_of_isWide hb rfl, beq_of_isWide hb rfl, beq_of_isWide hb rfl, beq_of_isWide hb rfl]
        rw [length_octets] at hin
        exact ih (.inr ⟨hb, hc⟩) hleft (.inr hc) (by omega) hw
      obtain ⟨most, rfl⟩ := Nat.exists_eq_add_one_of_ne_zero (by omega : most ≠ 0)
      have hnext := h.next
      cases hnext with
      | done hend =>
          rw [scriptEndFrom, if_pos hend, length_octets]
          rfl
      | @narrow c v hplace hc hbyte hnext hleft =>
          rw [List.length_cons] at hmost
          have hin := h.lt (List.cons_ne_nil c v)
          have hliteral := (ends src bound).literal h.suffix hc hprev (by omega)
            (Nat.lt_of_succ_lt_succ hmost)
          rw [← hplace] at hliteral
          rw [scriptEndFrom, if_neg (lt_of_byte hbyte), hliteral, ok_bind, scriptLengthFrom_cons]
          cases hskip : literalLength? (templateLength? most) prior (c :: v) with
          | some n =>
              have hpos := literalLength?_pos hskip
              obtain ⟨b, hpred, hlast, hb⟩ := byte_lastOf h.suffix (List.cons_ne_nil c v) hpos
              have hlt := offset_lt_drop h.suffix (List.cons_ne_nil c v) hpos
              have hmore : byteSize src - offset src ((c :: v).drop n) < bound := by omega
              have hrest : ((c :: v).drop n).length < most := by
                rw [List.length_drop, List.length_cons]
                omega
              show (pred (offset src ((c :: v).drop n)) >>= _) = _
              rw [hpred, ok_bind, hlast, ok_bind, Option.elim_some, Nat.add_comm, ← List.drop_drop]
              exact ih hb (.of_suffix (suffix_drop n h.suffix)) (.inl rfl) hmore hrest
          | none =>
              -- Brackets only change the depth, and the induction holds for every depth.
              have hbehind : ∀ {depth}, scriptEndFrom (octets src) bound depth c (i + 1) =
                  .ok (offset src (v.drop (scriptLengthFrom most depth c v))) := by
                intro depth
                exact ih (.inl rfl) hleft (.inl hnext) (by omega) (by omega)
              show (byte (octets src) i >>= _) = _
              rw [byte_eq hbyte, ok_bind, Option.elim_none]
              cases c == '\x7b' || c == '[' || c == '(' with
              | true => exact hbehind
              | false =>
                  cases c == '\x7d' || c == ']' || c == ')' with
                  | true => exact hbehind
                  | false =>
                      cases c == '\n' && depth == 0 with
                      | false => exact hbehind
                      | true =>
                          have hblank := lineIsBlankAt_eq (suffix_of_cons h.suffix)
                          rw [← hnext] at hblank
                          show (lineIsBlankAt (octets src) (i + 1) >>= _) = _
                          rw [hblank, ok_bind]
                          cases lineIsBlank v with
                          | true => rw [hplace]; rfl
                          | false => exact hbehind
      | @wide b c v hplace hc hb hbyte hleft =>
          rw [scriptLengthFrom_cons, literalLength?_wide hc, Option.elim_none, beq_of_isWide hc rfl,
            beq_of_isWide hc rfl, beq_of_isWide hc rfl, beq_of_isWide hc rfl, beq_of_isWide hc rfl,
            beq_of_isWide hc rfl, beq_of_isWide hc rfl]
          exact hwide hb hc hbyte hleft (Nat.lt_of_succ_lt_succ hmost)
      | inside hplace hb hbyte hleft =>
          have hpriorWide : isWide prior = true := by
            rcases hprior with hat | hpriorWide
            · omega
            · exact hpriorWide
          exact hwide hb hpriorWide hbyte hleft hmost

theorem scriptEnd_eq (h : v <:+ src) :
    scriptEnd (octets src) (offset src v) = .ok (offset src (v.drop (scriptLength v))) := by
  refine scriptEndFrom_eq (.inl rfl) (.of_suffix h) (.inl rfl) ?_ (Nat.lt_succ_self _)
  rw [length_octets]
  omega

end Scans

end Bytes
end Markup
end StoryDocs
