import StoryDocs.Proofs.Markup.Bytes.Prose
import StoryDocs.Proofs.Markup.Bytes.Tags

/-!
# What starts at a byte

`sight` tells from a byte index what the reader does there: pass over prose, or take a script block, an
expression or a tag.  At the start of every suffix it sees the piece that starts the suffix.
-/

namespace StoryDocs
namespace Markup
namespace Bytes

open Text

/-- What starts at a byte: prose with the index behind it, or a piece that has still to be read. -/
inductive Sight where
  | prose (next : Nat)
  | script
  | expression
  | opening
  | closing

section Definitions

variable (src : List Char)

/-- What starts at an opening angle bracket. -/
def bracketSight (i : Nat) : Checked Sight := do
  let rest ← slice src i (byteSize src)
  if startsWith "<!--".toList rest then do
    let next ← endOfMark (octets src) "-->".toList i
    return .prose next
  else if startsWith "</".toList rest then return .closing
  else
    match autolinkLength? rest with
    | some n => return .prose (i + byteSize (rest.take n))
    | none =>
      match (octets src)[i + 1]? with
      | some c => return if c.isAlpha || c == '>' then .opening else .prose (i + 1)
      | none => return .prose (i + 1)

/-- What starts at a byte where neither a script block nor a fenced block does. -/
def inlineSight (i : Nat) : Checked Sight := do
  let b ← byte (octets src) i
  if b == '\\' then return .prose (min (i + 2) (byteSize src))
  else if b == '\x60' then do
    let next ← codeSpanEnd (octets src) i
    return .prose next
  else if b == '<' then bracketSight src i
  else if b == '\x7b' then return .expression
  else return .prose (i + 1)

/-- Whether a script block starts at a byte. -/
def seesScript (i : Nat) : Checked Bool := do
  let rest ← slice src i (byteSize src)
  return startsScript rest

/-- What starts at a line that no script block starts at. -/
def lineSight (i : Nat) : Checked Sight := do
  match ← fencedEnd (octets src) i with
  | some next => return .prose next
  | none => inlineSight src i

/-- What starts at a byte; script blocks stand outside all elements. -/
def sight (outside : Bool) (i : Nat) : Checked Sight := do
  if ← atLineStart (octets src) i then
    if outside then
      if ← seesScript src i then return .script else lineSight src i
    else lineSight src i
  else inlineSight src i

end Definitions

section Sights

variable {src v w : List Char} {outside line : Bool} {seen : Sight} {c : Char} {i n : Nat}

/-- An index at the start of a suffix, or behind a byte of the wide character before it. -/
structure Near (src : List Char) (i : Nat) (v : List Char) : Prop where
  left : Left src i v
  inside : i = offset src v ∨ 0 < i ∧ ∃ b, (octets src)[i - 1]? = some b ∧ isWide b = true

theorem Near.of_suffix (h : v <:+ src) : Near src (offset src v) v where
  left := .of_suffix h
  inside := .inl rfl

theorem Near.le (h : Near src i v) : i ≤ byteSize src := by
  rcases h.inside with rfl | ⟨hpos, b, hbyte, _⟩
  · exact offset_le src v
  · have hlt := lt_of_byte hbyte
    rw [length_octets] at hlt
    omega

/-- Nothing is left at the end. -/
theorem Near.at_end (h : Near src i v) (hend : byteSize src ≤ i) : v = [] ∧ i = offset src v := by
  have hnil : v = [] := by
    by_contra hv
    have hlt := h.left.lt hv
    omega
  have hle := h.le
  rw [hnil, offset_nil]
  exact ⟨rfl, by omega⟩

/-- What is seen belongs to the piece that starts a text. -/
inductive Sees (src : List Char) (outside line : Bool) (v : List Char) : Sight → Prop
  | prose {n next : Nat} (hpiece : Piece.ofText outside line v = .ok (.prose n))
      (hlt : offset src v < next) (hnear : Near src next (v.drop n)) : Sees src outside line v (.prose next)
  | script (hstart : startsScript v = true)
      (hpiece : Piece.ofText outside line v = .ok (.script (scriptLength v))) :
      Sees src outside line v .script
  | expression (hhead : v.head? = some '\x7b')
      (hpiece : Piece.ofText outside line v =
        (Markup.readGroup v).map fun group => .expression group.size) :
      Sees src outside line v .expression
  | opening (hhead : v.head? = some '<')
      (hpiece : Piece.ofText outside line v =
        (Markup.readOpeningTag v).map fun t => .opening t.value t.size) :
      Sees src outside line v .opening
  | closing (hhead : ∃ w, v = '<' :: '/' :: w)
      (hpiece : Piece.ofText outside line v =
        (Markup.readClosingTag v).map fun t => .closing t.value t.size) :
      Sees src outside line v .closing

/-- Behind the first byte of a suffix. -/
theorem Near.behind (h : (c :: w) <:+ src) : Near src (offset src (c :: w) + 1) w where
  left := Left.behind h
  inside := by
    cases hc : isWide c with
    | false => exact .inl (offset_narrow h hc).symm
    | true =>
        obtain ⟨b, hbyte, hb⟩ := exists_first h
        have hwide : isWide b = true := by
          rcases hb with rfl | ⟨hb, _⟩
          · exact hc
          · exact hb
        exact .inr ⟨Nat.succ_pos _, b, hbyte, hwide⟩

/-- Prose up to the start of a later suffix. -/
theorem Sees.of_prose (h : v <:+ src) (hv : v ≠ []) (hpos : 0 < n)
    (hpiece : Piece.ofText outside line v = .ok (.prose n)) :
    Sees src outside line v (.prose (offset src (v.drop n))) :=
  .prose hpiece (offset_lt_drop h hv hpos) (.of_suffix (suffix_drop n h))

theorem bracketSight_sees (h : ('<' :: w) <:+ src)
    (hpiece : Piece.ofText outside line ('<' :: w) = Piece.ofBracket ('<' :: w)) :
    ∃ seen, bracketSight src (offset src ('<' :: w)) = .ok seen ∧
      Sees src outside line ('<' :: w) seen := by
  have hne := List.cons_ne_nil '<' w
  rw [bracketSight, slice_rest h, ok_bind]
  unfold Piece.ofBracket at hpiece
  by_cases hcomment : startsWith "<!--".toList ('<' :: w) = true
  · rw [if_pos hcomment] at hpiece ⊢
    have hend := endOfMark_eq (by simp [isWide] : ∀ c ∈ "-->".toList, isWide c = false) (by simp) h
    rw [hend]
    exact ⟨_, rfl, .of_prose h hne (commentLength_pos '<' w) hpiece⟩
  rw [if_neg hcomment] at hpiece ⊢
  by_cases hclosing : startsWith "</".toList ('<' :: w) = true
  · rw [if_pos hclosing] at hpiece ⊢
    obtain ⟨rest, hrest⟩ := Option.isSome_iff_exists.mp hclosing
    exact ⟨_, rfl, .closing ⟨rest, dropLead?_eq_some_iff.mp hrest⟩ hpiece⟩
  rw [if_neg hclosing] at hpiece ⊢
  cases hlink : autolinkLength? ('<' :: w) with
  | some n =>
      rw [hlink] at hpiece
      have hmove := offset_drop h n
      dsimp only
      rw [← hmove]
      exact ⟨_, rfl, .of_prose h hne (autolinkLength?_pos hlink) hpiece⟩
  | none =>
      rw [hlink] at hpiece
      have hw := suffix_of_cons h
      have hnext := offset_narrow h (rfl : isWide '<' = false)
      dsimp only at hpiece ⊢
      rw [← hnext]
      cases w with
      | nil =>
          rw [getElem?_offset_zero hw]
          exact ⟨_, rfl, .of_prose h hne Nat.one_pos hpiece⟩
      | cons c w =>
          obtain ⟨b, hbyte, hb⟩ := exists_first hw
          have hsame := hb.test (Narrow.isAlpha.or (Narrow.beq (rfl : isWide '>' = false))).uniform
          rw [hbyte]
          dsimp only at hpiece hsame ⊢
          rw [hsame]
          cases hopens : c.isAlpha || c == '>' with
          | true =>
              rw [hopens] at hpiece
              exact ⟨_, rfl, .opening rfl hpiece⟩
          | false =>
              rw [hopens] at hpiece
              exact ⟨_, rfl, .of_prose h hne Nat.one_pos hpiece⟩

theorem ofInline_group (w : List Char) :
    Piece.ofInline ('\x7b' :: w) =
      (Markup.readGroup ('\x7b' :: w)).map fun group => .expression group.size := by
  rw [Piece.ofInline, Markup.readGroup]
  cases groupLength? ('\x7b' :: w) with
  | none => rfl
  | some n => rfl

theorem inlineSight_sees (h : (c :: w) <:+ src)
    (hpiece : Piece.ofText outside line (c :: w) = Piece.ofInline (c :: w)) :
    ∃ seen, inlineSight src (offset src (c :: w)) = .ok seen ∧
      Sees src outside line (c :: w) seen := by
  have hne := List.cons_ne_nil c w
  obtain ⟨b, hbyte, hb⟩ := exists_first h
  have hslash := hb.test (Narrow.beq (rfl : isWide '\\' = false)).uniform
  have htick := hb.test (Narrow.beq (rfl : isWide '\x60' = false)).uniform
  have hbracket := hb.test (Narrow.beq (rfl : isWide '<' = false)).uniform
  have hbrace := hb.test (Narrow.beq (rfl : isWide '\x7b' = false)).uniform
  rw [inlineSight, byte_eq hbyte, ok_bind, hslash, htick, hbracket, hbrace]
  by_cases hescape : c = '\\'
  · subst hescape
    have hnext := offset_narrow h (rfl : isWide '\\' = false)
    cases w with
    | nil =>
        have hend : min (offset src ['\\'] + 2) (byteSize src) = offset src [] := by
          rw [offset_nil] at hnext ⊢
          omega
        rw [hend]
        exact ⟨_, rfl, .of_prose h hne Nat.one_pos hpiece⟩
    | cons d w =>
        have hw := suffix_of_cons h
        have hlt := offset_lt hw (List.cons_ne_nil d w)
        -- One byte is escaped, which may be only the first one of its character.
        have hend : min (offset src ('\\' :: d :: w) + 2) (byteSize src) = offset src (d :: w) + 1 := by
          omega
        rw [hend]
        exact ⟨_, rfl, .prose hpiece (by omega) (.behind hw)⟩
  rw [beq_false_of_ne hescape, if_neg Bool.false_ne_true]
  by_cases hgroup : c = '\x7b'
  · subst hgroup
    exact ⟨_, rfl, .expression rfl (hpiece.trans (ofInline_group w))⟩
  unfold Piece.ofInline at hpiece
  dsimp only at hpiece
  rw [beq_false_of_ne hescape, if_neg Bool.false_ne_true] at hpiece
  by_cases hrun : c = '\x60'
  · subst hrun
    rw [codeSpanEnd_eq h]
    exact ⟨_, rfl, .of_prose h hne (codeSpanLength_pos w) hpiece⟩
  rw [beq_false_of_ne hrun, if_neg Bool.false_ne_true] at hpiece ⊢
  by_cases hopen : c = '<'
  · subst hopen
    exact bracketSight_sees h hpiece
  rw [beq_false_of_ne hopen, if_neg Bool.false_ne_true] at hpiece ⊢
  rw [beq_false_of_ne hgroup, if_neg Bool.false_ne_true] at hpiece ⊢
  exact ⟨_, rfl, .prose hpiece (Nat.lt_succ_self _) (.behind h)⟩

/-- At the start of a line a fenced block may stand, unless a script block does. -/
theorem lineSight_sees (h : (c :: w) <:+ src)
    (hscript : (outside && startsScript (c :: w)) = false) :
    ∃ seen, lineSight src (offset src (c :: w)) = .ok seen ∧ Sees src outside true (c :: w) seen := by
  have hpiece := Piece.ofText.eq_def outside true (c :: w)
  rw [Bool.true_and, hscript, if_neg Bool.false_ne_true, if_pos rfl] at hpiece
  rw [lineSight, fencedEnd_eq h, ok_bind]
  cases hfence : fencedLength? (c :: w) with
  | some n =>
      rw [hfence] at hpiece
      exact ⟨_, rfl, .of_prose h (List.cons_ne_nil c w) (fencedLength?_pos hfence) hpiece⟩
  | none =>
      rw [hfence] at hpiece
      exact inlineSight_sees h hpiece

/-- What is seen at the start of a suffix is the piece that starts it. -/
theorem sight_sees (outside : Bool) (h : (c :: w) <:+ src) :
    ∃ seen, sight src outside (offset src (c :: w)) = .ok seen ∧
      Sees src outside (placeAt src (c :: w)).startsLine (c :: w) seen := by
  rw [sight, atLineStart_eq h, ok_bind]
  cases hline : (placeAt src (c :: w)).startsLine with
  | false => exact inlineSight_sees h rfl
  | true =>
      cases outside with
      | false => exact lineSight_sees h rfl
      | true =>
          show ∃ seen, (seesScript src (offset src (c :: w)) >>= _) = _ ∧ _
          rw [seesScript, slice_rest h, ok_bind]
          cases hscript : startsScript (c :: w) with
          | false => exact lineSight_sees h hscript
          | true =>
              have hpiece : Piece.ofText true true (c :: w) = .ok (.script (scriptLength (c :: w))) := by
                rw [Piece.ofText, hscript]
                rfl
              exact ⟨_, rfl, .script hscript hpiece⟩

/-- The later bytes of a wide character are prose. -/
theorem sight_inside {b d : Char} (outside : Bool) (hi : 0 < i) (hbefore : (octets src)[i - 1]? = some d)
    (hd : isWide d = true) (hbyte : (octets src)[i]? = some b) (hb : isWide b = true) :
    sight src outside i = .ok (.prose (i + 1)) := by
  rw [sight, atLineStart_inside hi hd hbefore, ok_bind]
  show inlineSight src i = _
  rw [inlineSight, byte_eq hbyte, ok_bind, beq_of_isWide hb rfl, beq_of_isWide hb rfl, beq_of_isWide hb rfl,
    beq_of_isWide hb rfl]
  rfl

/-- An index before the end is the start of a suffix, or prose that belongs to the character before. -/
theorem Near.cases (h : Near src i v) (hlt : i < byteSize src) :
    (i = offset src v ∧ v ≠ []) ∨
      (Near src (i + 1) v ∧ ∀ outside, sight src outside i = .ok (.prose (i + 1))) := by
  have hnext := h.left.next
  cases hnext with
  | done hend =>
      rw [length_octets] at hend
      omega
  | narrow hplace _ _ _ _ => exact .inl ⟨hplace, List.cons_ne_nil _ _⟩
  | wide hplace _ _ _ _ => exact .inl ⟨hplace, List.cons_ne_nil _ _⟩
  | inside hplace hb hbyte hleft =>
      rcases h.inside with hsame | ⟨hpos, d, hbefore, hd⟩
      · omega
      · exact .inr ⟨⟨hleft, .inr ⟨Nat.succ_pos i, _, hbyte, hb⟩⟩, fun outside =>
          sight_inside outside hpos hbefore hd hbyte hb⟩

/-- Every byte index is the start of a suffix or inside a wide character. -/
theorem exists_near (h : i ≤ byteSize src) : ∃ v, Near src i v := by
  induction i with
  | zero =>
      have hnear := Near.of_suffix (List.suffix_refl src)
      rw [offset_self] at hnear
      exact ⟨src, hnear⟩
  | succ i ih =>
      obtain ⟨v, hnear⟩ := ih (by omega)
      rcases hnear.cases (by omega) with ⟨hplace, hv⟩ | ⟨hnext, _⟩
      · obtain ⟨c, w, rfl⟩ := List.exists_cons_of_ne_nil hv
        have hbehind := Near.behind hnear.left.suffix
        rw [← hplace] at hbehind
        exact ⟨w, hbehind⟩
      · exact ⟨v, hnext⟩

end Sights

end Bytes
end Markup
end StoryDocs
