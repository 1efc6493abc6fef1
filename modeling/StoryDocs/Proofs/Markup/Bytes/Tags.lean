import StoryDocs.Proofs.Markup.Bytes.Places
import StoryDocs.Proofs.Markup.Bytes.Scan
import StoryDocs.Proofs.Markup.Generated

/-!
# Reading tags byte by byte

Opening and closing tags, read from a byte index.  `told` says what a reader of characters finds in terms of
indexes: a value with the index behind it, or an error at a position of the source.
-/

namespace StoryDocs
namespace Markup
namespace Bytes

open Text

/-! ## Readers -/

section Definitions

variable (src : List Char)

/-- The index behind the bytes from `i` on that pass a test. -/
def skipWhile (p : Char → Bool) : Nat → Nat → Checked Nat
  | 0, _ => .error (.panic .endless)
  | bound + 1, i =>
    match (octets src)[i]? with
    | some b => if p b then skipWhile p bound (i + 1) else .ok i
    | none => .ok i

/-- Pass over blanks. -/
def skipBlanks (i : Nat) : Checked Nat :=
  skipWhile src isAsciiBlank (byteSize src + 1) i

/-- Read a name. -/
def readName (i : Nat) : Checked (List Char × Nat) := do
  let next ← skipWhile src isNameChar (byteSize src + 1) i
  let name ← slice src i next
  return (name, next)

/-- Report a text that does not go on as expected. -/
def unexpected {α : Type} (expected : String) (i : Nat) : Checked α := do
  let place ← position src i
  let rest ← slice src i (byteSize src)
  match rest with
  | c :: _ => .error (.error ⟨.unexpected c expected, place⟩)
  | [] => .error (.error ⟨.unexpectedEnd expected, place⟩)

/-- Read a group in braces and give the text between them. -/
def readGroup (i : Nat) : Checked (List Char × Nat) := do
  match ← groupEnd (octets src) i with
  | none =>
    let place ← position src i
    .error (.error ⟨.unterminatedExpression, place⟩)
  | some next =>
    let last ← pred next
    let text ← slice src (i + 1) last
    return (text, next)

/-- Read spread attributes in braces. -/
def readSpread (i : Nat) : Checked (Attribute × Nat) := do
  let place ← position src i
  let (inner, next) ← readGroup src i
  match dropLead? "...".toList (trim inner) with
  | some source => return (.spread (trim source), next)
  | none => .error (.error ⟨.invalidSpread, place⟩)

/-- Read the value of the attribute `name`, which starts at `place`. -/
def readValue (name : List Char) (place : Position) (i : Nat) : Checked (AttributeValue × Nat) := do
  match (octets src)[i]? with
  | none => unexpected src "a quoted string or \x60\x7b\x60 after \x60=\x60" i
  | some b =>
    if b == '\x22' || b == '\x27' then do
      let tail ← part (octets src) (i + 1) (octets src).length
      match find? [b] tail with
      | none => .error (.error ⟨.unterminatedAttribute (String.ofList name), place⟩)
      | some n =>
        let text ← slice src (i + 1) (i + 1 + n)
        return (.literal text, i + 1 + n + 1)
    else if b == '\x7b' then do
      let (source, next) ← readGroup src i
      return (.expression source, next)
    else unexpected src "a quoted string or \x60\x7b\x60 after \x60=\x60" i

/-- Read an attribute with a name. -/
def readProperty (i : Nat) : Checked (Attribute × Nat) := do
  let place ← position src i
  let (name, next) ← readName src i
  let next ← skipBlanks src next
  if (octets src)[next]? == some '=' then do
    let start ← skipBlanks src (next + 1)
    let (value, next) ← readValue src name place start
    return (.property name (some value), next)
  else return (.property name none, next)

/-- Read attributes up to the end of an opening tag. -/
def readAttributes : Nat → Nat → Checked (TagEnd × Nat)
  | 0, _ => .error (.panic .endless)
  | bound + 1, i => do
    let i ← skipBlanks src i
    match (octets src)[i]? with
    | none => unexpected src "an attribute, \x60/>\x60 or \x60>\x60" i
    | some b =>
      if b == '/' && (octets src)[i + 1]? == some '>' then return (⟨[], true⟩, i + 2)
      else if b == '>' then return (⟨[], false⟩, i + 1)
      else if b == '\x7b' then do
        let (a, next) ← readSpread src i
        let (e, next) ← readAttributes bound next
        return (⟨a :: e.attributes, e.selfClosing⟩, next)
      else if startsName b then do
        let (a, next) ← readProperty src i
        let (e, next) ← readAttributes bound next
        return (⟨a :: e.attributes, e.selfClosing⟩, next)
      else unexpected src "an attribute, \x60/>\x60 or \x60>\x60" i

/-- Read an opening tag from its bracket on. -/
def readOpeningTag (i : Nat) : Checked (OpeningTag × Nat) := do
  let (name, next) ← readName src (i + 1)
  let (tagEnd, next) ← readAttributes src (byteSize src + 1) next
  return (⟨name, tagEnd⟩, next)

/-- Read a closing tag from its bracket on and give its name. -/
def readClosingTag (i : Nat) : Checked (List Char × Nat) := do
  let start ← skipBlanks src (i + 2)
  let (name, next) ← readName src start
  let next ← skipBlanks src next
  if (octets src)[next]? == some '>' then return (name, next + 1)
  else unexpected src "\x60>\x60 to end the closing tag" next

end Definitions

/-! ## Names, blanks and groups -/

section Tags

variable {src v w : List Char} {p : Char → Bool} {c : Char} {i n bound : Nat}

/-- What a reader of characters finds, with indexes and positions in the source. -/
def told {α : Type} (src v : List Char) : Except Fault (Read α) → Checked (α × Nat)
  | .ok a => .ok (a.value, offset src (v.drop a.size))
  | .error f => .error (.error ⟨f.cause, (placeAt src (v.drop f.after)).position⟩)

theorem told_shift {α : Type} (src v : List Char) (n : Nat) (f : Fault) :
    told (α := α) src v (.error (f.shift n)) = told src (v.drop n) (.error f) := by
  rw [told, told, List.drop_drop]
  rfl

theorem skipWhile_eq (hp : Narrow p) (h : v <:+ src) (hbound : byteSize v < bound) :
    skipWhile src p bound (offset src v) = .ok (offset src (v.dropWhile p)) := by
  induction bound generalizing v with
  | zero => omega
  | succ bound ih =>
      rw [skipWhile, getElem?_offset_zero h]
      cases v with
      | nil => rfl
      | cons c v =>
          have hpos := c.utf8Size_pos
          cases hc : isWide c with
          | false =>
              rw [octets_cons, octetsOf_narrow hc]
              show (if p c then skipWhile src p bound (offset src (c :: v) + 1) else _) = _
              cases hpc : p c with
              | true =>
                  rw [byteSize] at hbound
                  rw [List.dropWhile_cons_of_pos hpc, if_pos rfl, ← offset_narrow h hc]
                  exact ih (suffix_of_cons h) (by omega)
              | false => rw [List.dropWhile_cons_of_neg (by simp [hpc])]; rfl
          | true =>
              obtain ⟨b, bs, hbs⟩ := List.exists_cons_of_ne_nil (octetsOf_ne_nil c)
              have hb : isWide b = true := isWide_of_mem_octetsOf hc (by rw [hbs]; exact List.mem_cons_self)
              rw [octets_cons, hbs]
              show (if p b then skipWhile src p bound (offset src (c :: v) + 1) else _) = _
              rw [hp b hb, List.dropWhile_cons_of_neg (by simp [hp c hc])]
              rfl

theorem skipBlanks_eq (h : v <:+ src) :
    skipBlanks src (offset src v) = .ok (offset src (v.drop (blankLength v))) := by
  have hsize := byteSize_le h
  rw [skipBlanks, skipWhile_eq Narrow.isAsciiBlank h (by omega), blankLength, drop_takeWhile]

theorem isNameChar_narrow : Narrow isNameChar :=
  ((((Narrow.isAsciiAlphanumeric.or (Narrow.beq rfl)).or (Narrow.beq rfl)).or (Narrow.beq rfl)).or
    (Narrow.beq rfl)).or (Narrow.beq rfl)

theorem startsName_narrow : Narrow startsName :=
  (Narrow.isAlpha.or (Narrow.beq rfl)).or (Narrow.beq rfl)

theorem readName_eq (h : v <:+ src) :
    readName src (offset src v) = .ok (v.takeWhile isNameChar,
      offset src (v.drop (v.takeWhile isNameChar).length)) := by
  have hsize := byteSize_le h
  have hslice := slice_offset h (v.takeWhile isNameChar).length
  rw [take_takeWhile, drop_takeWhile] at hslice
  rw [readName, skipWhile_eq isNameChar_narrow h (by omega), ok_bind, hslice, ok_bind, drop_takeWhile]
  rfl

theorem unexpected_eq {α : Type} (h : v <:+ src) (n : Nat) (expected : String) :
    unexpected (α := α × Nat) src expected (offset src (v.drop n)) =
      told (α := α) src v (.error (.unexpected n (v.drop n) expected)) := by
  have hdrop := suffix_drop n h
  rw [unexpected, position_eq hdrop, ok_bind, slice_rest hdrop, ok_bind]
  cases hrest : v.drop n with
  | nil =>
      show _ = Except.error (Stop.error ⟨.unexpectedEnd expected, (placeAt src (v.drop n)).position⟩)
      rw [hrest]
  | cons c rest =>
      show _ = Except.error (Stop.error ⟨.unexpected c expected, (placeAt src (v.drop n)).position⟩)
      rw [hrest]

theorem readGroup_eq (h : ('\x7b' :: v) <:+ src) :
    readGroup src (offset src ('\x7b' :: v)) = told src ('\x7b' :: v) (Markup.readGroup ('\x7b' :: v)) := by
  rw [readGroup, groupEnd_eq h, ok_bind, Markup.readGroup]
  cases hgroup : groupLength? ('\x7b' :: v) with
  | none =>
      show (position src (offset src ('\x7b' :: v)) >>= _) = _
      rw [position_eq h]
      rfl
  | some n =>
      have hv := suffix_of_cons h
      have htake := groupLength?_take hgroup
      have hnext := offset_narrow h (rfl : isWide '\x7b' = false)
      have hslice := slice_offset hv (n - 2)
      have hinner := offset_drop hv (n - 2)
      have hclose : '\x7d'.utf8Size = 1 := rfl
      have hopen : '\x7b'.utf8Size = 1 := rfl
      have hend := offset_drop h n
      rw [htake, List.cons_append, byteSize, byteSize_append, byteSize, byteSize] at hend
      have hlast : offset src (('\x7b' :: v).drop n) = offset src (v.drop (n - 2)) + 1 := by omega
      show (pred (offset src (('\x7b' :: v).drop n)) >>= _) = _
      rw [hlast, told]
      show (slice src (offset src ('\x7b' :: v) + 1) (offset src (v.drop (n - 2))) >>= _) = _
      rw [← hnext, hslice]
      rfl

/-! ## Attributes -/

theorem readSpread_eq (h : ('\x7b' :: v) <:+ src) :
    readSpread src (offset src ('\x7b' :: v)) = told src ('\x7b' :: v) (Markup.readSpread ('\x7b' :: v)) := by
  rw [readSpread, position_eq h, ok_bind, readGroup_eq h, Markup.readSpread]
  cases Markup.readGroup ('\x7b' :: v) with
  | error f => rfl
  | ok group =>
      rw [told, ok_bind]
      dsimp only
      cases dropLead? "...".toList (trim group.value) with
      | none => rfl
      | some source => rfl

/-- The character of the first byte, or another one that is wide too. -/
theorem exists_first (h : (c :: v) <:+ src) :
    ∃ b, (octets src)[offset src (c :: v)]? = some b ∧ ByteOf b c := by
  obtain ⟨b, bs, hbs⟩ := List.exists_cons_of_ne_nil (octetsOf_ne_nil c)
  refine ⟨b, ?_, .of_mem (by rw [hbs]; exact List.mem_cons_self)⟩
  rw [getElem?_offset_zero h, octets_cons, hbs]
  rfl

/-- A quote ends what is before it. -/
theorem takeWhile_length_lt_iff (c : Char) (s : List Char) :
    (s.takeWhile (· != c)).length < s.length ↔ c ∈ s := by
  induction s with
  | nil => simp
  | cons d s ih =>
      by_cases hd : d = c
      · rw [List.takeWhile_cons_of_neg (by simp [hd])]
        simp [hd]
      · rw [List.takeWhile_cons_of_pos (by simpa using hd), List.length_cons, List.length_cons,
          Nat.succ_lt_succ_iff, ih, List.mem_cons]
        simp [Ne.symm hd]

theorem exists_drop_takeWhile {s : List Char} (h : c ∈ s) :
    ∃ rest, s.drop (s.takeWhile (· != c)).length = c :: rest := by
  induction s with
  | nil => cases h
  | cons d s ih =>
      by_cases hd : d = c
      · rw [List.takeWhile_cons_of_neg (by simp [hd]), hd]
        exact ⟨s, rfl⟩
      · rw [List.takeWhile_cons_of_pos (by simpa using hd)]
        exact ih ((List.mem_cons.mp h).resolve_left (Ne.symm hd))

/-- Values of attributes, read at the place behind the equals sign of an attribute. -/
theorem readValue_eq (h : v <:+ src) (name : List Char) (n : Nat) :
    readValue src name (placeAt src v).position (offset src (v.drop n)) =
      told src v ((Markup.readValue name n (v.drop n)).map fun a => ⟨a.value, n + a.size⟩) := by
  have hdrop := suffix_drop n h
  have hwrong := fun expected => @unexpected_eq src v AttributeValue h n expected
  have hbehind : ∀ k, v.drop (n + k) = (v.drop n).drop k := fun k => (List.drop_drop ..).symm
  rw [readValue]
  generalize hw : v.drop n = w at hdrop hwrong hbehind ⊢
  cases w with
  | nil =>
      rw [getElem?_offset_zero hdrop]
      exact hwrong _
  | cons c t =>
      obtain ⟨b, hbyte, hb⟩ := exists_first hdrop
      have ht := suffix_of_cons hdrop
      have hdouble := hb.test (Narrow.beq (rfl : isWide '\x22' = false)).uniform
      have hsingle := hb.test (Narrow.beq (rfl : isWide '\x27' = false)).uniform
      have hopen := hb.test (Narrow.beq (rfl : isWide '\x7b' = false)).uniform
      rw [hbyte, Markup.readValue]
      dsimp only
      rw [hdouble, hsingle, hopen]
      by_cases hquote : (c == '\x22' || c == '\x27') = true
      · have hc : isWide c = false := by
          rcases Bool.or_eq_true_iff.mp hquote with hc | hc
          · rw [beq_iff_eq.mp hc]
            rfl
          · rw [beq_iff_eq.mp hc]
            rfl
        have hsame : b = c := by
          rcases hb with hb | ⟨_, hwide⟩
          · exact hb
          · rw [hc] at hwide
            cases hwide
        subst hsame
        have hnext := offset_narrow hdrop hc
        rw [if_pos hquote, if_pos hquote, ← hnext, part_rest ht, ok_bind,
          find?_octets (by simpa using hc) (by simp), find?_singleton]
        by_cases hmem : b ∈ t
        · -- The value is the text up to the quote, and the quote is one more byte.
          have hlength := (takeWhile_length_lt_iff b t).mpr hmem
          have hslice := slice_offset ht (t.takeWhile (· != b)).length
          have hmove := offset_drop ht (t.takeWhile (· != b)).length
          have hend := suffix_drop (t.takeWhile (· != b)).length ht
          obtain ⟨rest, hrest⟩ := exists_drop_takeWhile hmem
          rw [hrest] at hend hmove hslice
          have hquoteEnd := offset_narrow hend hc
          have hlast : (b :: t).drop ((t.takeWhile (· != b)).length + 2) = rest := by
            rw [List.drop_succ_cons, ← List.drop_drop, hrest]
            rfl
          rw [if_pos hmem, if_pos hlength, Option.map_some]
          dsimp only
          rw [← hmove, hslice, ok_bind, take_takeWhile, ← hquoteEnd, ← hlast, ← hbehind]
          rfl
        · have hlength := mt (takeWhile_length_lt_iff b t).mp hmem
          rw [if_neg hmem, if_neg hlength]
          rfl
      rw [if_neg hquote, if_neg hquote]
      by_cases hbrace : c = '\x7b'
      · subst hbrace
        rw [if_pos (beq_self_eq_true _), if_pos (beq_self_eq_true _), readGroup_eq hdrop]
        cases Markup.readGroup ('\x7b' :: t) with
        | error f =>
            show _ = told src v (.error (f.shift n))
            rw [told_shift, hw]
            rfl
        | ok group =>
            show Except.ok (_, offset src (('\x7b' :: t).drop group.size)) =
              Except.ok (_, offset src (v.drop (n + group.size)))
            rw [hbehind]
      · rw [if_neg (by simpa using hbrace), if_neg (by simpa using hbrace)]
        exact hwrong _

/-- An attribute with a value. -/
theorem readProperty_of_equals {t : List Char}
    (hgap : (v.drop (v.takeWhile isNameChar).length).drop
      (blankLength (v.drop (v.takeWhile isNameChar).length)) = '=' :: t) :
    Markup.readProperty v =
      (Markup.readValue (v.takeWhile isNameChar) ((v.takeWhile isNameChar).length +
        blankLength (v.drop (v.takeWhile isNameChar).length) + 1 + blankLength t)
        (t.drop (blankLength t))).map fun value =>
          ⟨.property (v.takeWhile isNameChar) (some value.value), (v.takeWhile isNameChar).length +
            blankLength (v.drop (v.takeWhile isNameChar).length) + 1 + blankLength t + value.size⟩ := by
  rw [Markup.readProperty]
  dsimp only
  rw [hgap]
  split
  · rename_i heq
    obtain ⟨_, rfl⟩ := List.cons.inj heq
    cases Markup.readValue (v.takeWhile isNameChar) ((v.takeWhile isNameChar).length +
        blankLength (v.drop (v.takeWhile isNameChar).length) + 1 + blankLength t)
        (t.drop (blankLength t)) with
    | error f => rfl
    | ok value => rfl
  · rename_i hne
    exact absurd rfl (hne t)

theorem readProperty_eq (h : v <:+ src) :
    readProperty src (offset src v) = told src v (Markup.readProperty v) := by
  have hname := suffix_drop (v.takeWhile isNameChar).length h
  rw [readProperty, position_eq h, ok_bind, readName_eq h, ok_bind]
  dsimp only
  rw [skipBlanks_eq hname, ok_bind]
  generalize hgap : (v.drop (v.takeWhile isNameChar).length).drop
    (blankLength (v.drop (v.takeWhile isNameChar).length)) = w
  have hw : w <:+ src := by
    rw [← hgap]
    exact suffix_drop _ hname
  have hsign := head?_octets (rfl : isWide '=' = false) w
  rw [← getElem?_offset_zero hw] at hsign
  rw [hsign]
  by_cases hequals : w.head? = some '='
  · obtain ⟨t, rfl⟩ := List.head?_eq_some_iff.mp hequals
    have ht := suffix_of_cons hw
    have hvalue := readValue_eq h (v.takeWhile isNameChar) ((v.takeWhile isNameChar).length +
      blankLength (v.drop (v.takeWhile isNameChar).length) + 1 + blankLength t)
    rw [← List.drop_drop, ← List.drop_drop, ← List.drop_drop, hgap, List.drop_one, List.tail_cons] at hvalue
    show (skipBlanks src (offset src ('=' :: t) + 1) >>= _) = _
    rw [← offset_narrow hw rfl, skipBlanks_eq ht, ok_bind, hvalue, readProperty_of_equals hgap]
    cases Markup.readValue (v.takeWhile isNameChar) ((v.takeWhile isNameChar).length +
        blankLength (v.drop (v.takeWhile isNameChar).length) + 1 + blankLength t)
        (t.drop (blankLength t)) with
    | error f => rfl
    | ok value => rfl
  · rw [beq_false_of_ne hequals, if_neg Bool.false_ne_true, Markup.readProperty]
    dsimp only
    rw [hgap]
    split
    · exact absurd rfl hequals
    · rw [told, ← List.drop_drop, hgap]
      rfl

/-! ## Tags -/

theorem readSpread_pos {a : Read Attribute} (h : Markup.readSpread ('\x7b' :: v) = .ok a) : 0 < a.size := by
  rw [Markup.readSpread, Markup.readGroup] at h
  cases hgroup : groupLength? ('\x7b' :: v) with
  | none =>
      rw [hgroup] at h
      cases h
  | some n =>
      rw [hgroup] at h
      dsimp only at h
      split at h
      · cases h
        exact (groupLength?_closes hgroup).pos
      · cases h

theorem readProperty_pos {a : Read Attribute} (hc : startsName c = true)
    (h : Markup.readProperty (c :: v) = .ok a) : 0 < a.size := by
  have hname : 0 < ((c :: v).takeWhile isNameChar).length := by
    rw [List.takeWhile_cons_of_pos (isNameChar_of_startsName hc)]
    exact Nat.succ_pos _
  rw [Markup.readProperty] at h
  dsimp only at h
  split at h
  · split at h
    · cases h
      dsimp only
      omega
    · cases h
  · cases h
    dsimp only
    omega

/-- The attribute found behind `gap` blanks and what is read behind it. -/
def attributeThen (most gap : Nat) (v : List Char) (found : Except Fault (Read Attribute)) :
    Except Fault (Read TagEnd) :=
  match found with
  | .error f => .error (f.shift gap)
  | .ok a =>
    match Markup.readAttributes most (v.drop a.size) with
    | .error f => .error (f.shift (gap + a.size))
    | .ok e => .ok ⟨⟨a.value :: e.value.attributes, e.value.selfClosing⟩, gap + a.size + e.size⟩

/-- Where a tag does not end, an attribute has to start. -/
theorem readAttributes_of_ne {most : Nat} (hrest : v.drop (blankLength v) = c :: w)
    (hself : ¬ (c = '/' ∧ w.head? = some '>')) (hend : c ≠ '>') :
    Markup.readAttributes (most + 1) v =
      if c == '\x7b' then attributeThen most (blankLength v) (c :: w) (Markup.readSpread (c :: w))
      else if startsName c then
        attributeThen most (blankLength v) (c :: w) (Markup.readProperty (c :: w))
      else .error (.unexpected (blankLength v) (c :: w) "an attribute, \x60/>\x60 or \x60>\x60") := by
  rw [Markup.readAttributes]
  dsimp only
  rw [hrest]
  split
  · rename_i heq
    obtain ⟨hc, hw⟩ := List.cons.inj heq
    exact absurd ⟨hc, by rw [hw]; rfl⟩ hself
  · rename_i heq
    exact absurd (List.cons.inj heq).1 hend
  · rename_i heq
    obtain ⟨rfl, rfl⟩ := List.cons.inj heq
    rfl
  · rename_i heq
    cases heq

/-- An attribute and what is behind it, given that both readers find the same attribute. -/
theorem attributeThen_eq {most : Nat} {found : Except Fault (Read Attribute)}
    (hrest : v.drop n = w)
    (hread : ∀ a, found = .ok a → readAttributes src bound (offset src (w.drop a.size)) =
      told src (w.drop a.size) (Markup.readAttributes most (w.drop a.size))) :
    (do
      let (a, next) ← told src w found
      let (e, next) ← readAttributes src bound next
      return (⟨a :: e.attributes, e.selfClosing⟩, next)) = told src v (attributeThen most n w found) := by
  cases found with
  | error f =>
      show _ = told src v (.error (f.shift n))
      rw [told_shift, hrest]
      rfl
  | ok a =>
      have htail := hread a rfl
      rw [attributeThen]
      dsimp only
      show (readAttributes src bound (offset src (w.drop a.size)) >>= _) = _
      rw [htail]
      cases Markup.readAttributes most (w.drop a.size) with
      | error f =>
          show _ = told src v (.error (f.shift (n + a.size)))
          rw [told_shift, ← List.drop_drop, hrest]
          rfl
      | ok e =>
          rw [told, told, ← List.drop_drop, ← List.drop_drop, hrest]
          rfl

/-- What is left behind some characters of a text that is left behind blanks is shorter than the whole. -/
theorem drop_shorter (h : v <:+ src) {k : Nat} (hw : v.drop k = c :: w) (hn : 0 < n) :
    byteSize ((c :: w).drop n) < byteSize v ∧ ((c :: w).drop n).length < v.length := by
  have hrest : (c :: w) <:+ src := hw ▸ (List.drop_suffix k v).trans h
  have hlt := offset_lt_drop hrest (List.cons_ne_nil c w) hn
  have hsize := byteSize_le (suffix_drop n hrest)
  have hall : byteSize (c :: w) ≤ byteSize v := hw ▸ byteSize_le (List.drop_suffix k v)
  have hlength : (c :: w).length ≤ v.length := hw ▸ (List.drop_suffix k v).length_le
  rw [offset, offset] at hlt
  rw [List.length_drop]
  rw [List.length_cons] at hlength ⊢
  omega

/-- The bytes tell as the characters do that a tag does not end in a slash. -/
theorem not_selfClosing (h : (c :: w) <:+ src) (hself : ¬(c = '/' ∧ w.head? = some '>')) :
    (c == '/' && (octets src)[offset src (c :: w) + 1]? == some '>') = false := by
  by_cases hc : c = '/'
  · subst hc
    have hw : w.head? ≠ some '>' := fun hhead => hself ⟨rfl, hhead⟩
    rw [← offset_narrow h rfl, getElem?_offset_zero (suffix_of_cons h), head?_octets rfl, beq_false_of_ne hw]
    rfl
  · rw [beq_false_of_ne hc]
    rfl

theorem readAttributes_eq {most : Nat} (h : v <:+ src) (hbound : byteSize v < bound)
    (hmost : v.length < most) :
    readAttributes src bound (offset src v) = told src v (Markup.readAttributes most v) := by
  induction bound generalizing v most with
  | zero => omega
  | succ bound ih =>
      obtain ⟨most, rfl⟩ := Nat.exists_eq_add_one_of_ne_zero (by omega : most ≠ 0)
      have hrest := suffix_drop (blankLength v) h
      have hwrong := fun expected => @unexpected_eq src v TagEnd h (blankLength v) expected
      rw [readAttributes, skipBlanks_eq h, ok_bind]
      generalize hw : v.drop (blankLength v) = w at hrest hwrong
      cases w with
      | nil =>
          rw [getElem?_offset_zero hrest, Markup.readAttributes]
          dsimp only
          rw [hw]
          exact hwrong _
      | cons c w =>
          obtain ⟨b, hbyte, hb⟩ := exists_first hrest
          have hslash := hb.test (Narrow.beq (rfl : isWide '/' = false)).uniform
          have hend := hb.test (Narrow.beq (rfl : isWide '>' = false)).uniform
          have hopen := hb.test (Narrow.beq (rfl : isWide '\x7b' = false)).uniform
          have hname := hb.test startsName_narrow.uniform
          rw [hbyte]
          dsimp only
          rw [hslash, hend, hopen, hname]
          -- The attributes behind one are read from a later place.
          have hmore : ∀ {a : Read Attribute}, 0 < a.size →
              readAttributes src bound (offset src ((c :: w).drop a.size)) =
                told src ((c :: w).drop a.size) (Markup.readAttributes most ((c :: w).drop a.size)) := by
            intro a ha
            obtain ⟨hsize, hlength⟩ := drop_shorter h hw ha
            exact ih (suffix_drop a.size hrest) (by omega) (by omega)
          by_cases hself : c = '/' ∧ w.head? = some '>'
          · obtain ⟨rfl, hhead⟩ := hself
            obtain ⟨t, rfl⟩ := List.head?_eq_some_iff.mp hhead
            have hsecond := offset_narrow hrest rfl
            have hthird := offset_narrow (suffix_of_cons hrest) rfl
            have hbracket := getElem?_offset_zero (suffix_of_cons hrest)
            rw [hsecond] at hbracket
            rw [hbracket, Markup.readAttributes]
            dsimp only
            rw [hw]
            show Except.ok (_, _) = Except.ok (_, offset src (v.drop (blankLength v + 2)))
            rw [← List.drop_drop, hw]
            show Except.ok (_, _) = Except.ok (_, offset src t)
            rw [hthird, hsecond]
          rw [not_selfClosing hrest hself, if_neg Bool.false_ne_true]
          by_cases hclose : c = '>'
          · subst hclose
            have hsecond := offset_narrow hrest rfl
            rw [if_pos (beq_self_eq_true _), Markup.readAttributes]
            dsimp only
            rw [hw]
            show Except.ok (_, _) = Except.ok (_, offset src (v.drop (blankLength v + 1)))
            rw [← List.drop_drop, hw]
            show Except.ok (_, _) = Except.ok (_, offset src w)
            rw [hsecond]
          rw [if_neg (by simpa using hclose), readAttributes_of_ne hw hself hclose]
          by_cases hbrace : c = '\x7b'
          · subst hbrace
            rw [if_pos (beq_self_eq_true _), if_pos (beq_self_eq_true _), readSpread_eq hrest]
            exact attributeThen_eq hw fun a ha => hmore (readSpread_pos ha)
          rw [beq_false_of_ne hbrace, if_neg Bool.false_ne_true, if_neg Bool.false_ne_true]
          cases hstart : startsName c with
          | true =>
              rw [if_pos rfl, if_pos rfl, readProperty_eq hrest]
              exact attributeThen_eq hw fun a ha => hmore (readProperty_pos hstart ha)
          | false => exact hwrong _

theorem readOpeningTag_eq (h : (c :: v) <:+ src) (hc : isWide c = false) :
    readOpeningTag src (offset src (c :: v)) = told src (c :: v) (Markup.readOpeningTag (c :: v)) := by
  have hv := suffix_of_cons h
  have hrest := suffix_drop (v.takeWhile isNameChar).length hv
  have hsize := byteSize_le hrest
  rw [readOpeningTag, ← offset_narrow h hc, readName_eq hv, ok_bind, Markup.readOpeningTag]
  dsimp only
  rw [List.drop_one, List.tail_cons, List.drop_succ_cons]
  rw [readAttributes_eq hrest (by omega) (Nat.lt_succ_self _)]
  cases Markup.readAttributes ((v.drop (v.takeWhile isNameChar).length).length + 1)
      (v.drop (v.takeWhile isNameChar).length) with
  | error f =>
      show _ = told src (c :: v) (.error (f.shift ((v.takeWhile isNameChar).length + 1)))
      rw [told_shift]
      rfl
  | ok e =>
      rw [told, told, ← List.drop_drop]
      rfl

theorem readClosingTag_eq (h : (c :: '/' :: v) <:+ src) (hc : isWide c = false) :
    readClosingTag src (offset src (c :: '/' :: v)) =
      told src (c :: '/' :: v) (Markup.readClosingTag (c :: '/' :: v)) := by
  have hslash := suffix_of_cons h
  have hv := suffix_of_cons hslash
  have hstart : offset src (c :: '/' :: v) + 2 = offset src v := by
    rw [offset_narrow hslash rfl, offset_narrow h hc]
  have hrest := suffix_drop (blankLength v) hv
  have htail := suffix_drop ((v.drop (blankLength v)).takeWhile isNameChar).length hrest
  have hwrong := fun size expected => @unexpected_eq src (c :: '/' :: v) (List Char) h size expected
  rw [readClosingTag, hstart, skipBlanks_eq hv, ok_bind, readName_eq hrest, ok_bind]
  dsimp only
  rw [skipBlanks_eq htail, ok_bind, Markup.readClosingTag]
  have htwo : (c :: '/' :: v).drop 2 = v := rfl
  have hgap : (c :: '/' :: v).drop (blankLength v + 2) = v.drop (blankLength v) := rfl
  rw [htwo, hgap]
  -- What is left behind the name and the blanks around it.
  generalize htaken : ((v.drop (blankLength v)).drop
    ((v.drop (blankLength v)).takeWhile isNameChar).length).drop
      (blankLength ((v.drop (blankLength v)).drop
        ((v.drop (blankLength v)).takeWhile isNameChar).length)) = w
  have hdrop : (c :: '/' :: v).drop (blankLength v + 2 +
      ((v.drop (blankLength v)).takeWhile isNameChar).length + blankLength ((v.drop (blankLength v)).drop
        ((v.drop (blankLength v)).takeWhile isNameChar).length)) = w := by
    rw [← List.drop_drop, ← List.drop_drop, hgap, htaken]
  have hw : w <:+ src := by
    rw [← hdrop]
    exact suffix_drop _ h
  rw [getElem?_offset_zero hw, head?_octets rfl]
  by_cases hbracket : w.head? = some '>'
  · obtain ⟨t, rfl⟩ := List.head?_eq_some_iff.mp hbracket
    rw [if_pos (by rw [hbracket]; rfl)]
    split
    · rw [told, ← List.drop_drop, hdrop, List.drop_one, List.tail_cons, offset_narrow hw rfl]
      rfl
    · rename_i hne
      exact absurd rfl (hne t)
  · rw [beq_false_of_ne hbracket, if_neg Bool.false_ne_true]
    split
    · exact absurd rfl hbracket
    · have hsaid := hwrong (blankLength v + 2 + ((v.drop (blankLength v)).takeWhile isNameChar).length +
        blankLength ((v.drop (blankLength v)).drop
          ((v.drop (blankLength v)).takeWhile isNameChar).length)) "\x60>\x60 to end the closing tag"
      rw [hdrop] at hsaid
      exact hsaid

end Tags

end Bytes
end Markup
end StoryDocs
