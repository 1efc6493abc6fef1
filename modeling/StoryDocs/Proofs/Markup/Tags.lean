import StoryDocs.Proofs.Markup.InPlace
import StoryDocs.Proofs.Markup.Scanning

/-!
# Tags before another text

A closing tag is read alike before every text, and so is an opening tag that is read to its end whatever
comes behind it.  Only expressions in braces can make an opening tag look further ahead; a tag that is written
with a name in braces does not.  Attributes are read one after the other behind blanks, each as it is written.
-/

namespace StoryDocs
namespace Markup

open Text

/-! ## What is found at a bracket -/

namespace Piece

variable {s name : List Char} {t : OpeningTag} {n : Nat}

theorem ofBracket_eq_opening_iff : ofBracket ('<' :: s) = .ok (.opening t n) ↔
    autolinkLength? ('<' :: s) = none ∧ (∃ c ∈ s.head?, (c.isAlpha || c == '>') = true) ∧
      readOpeningTag ('<' :: s) = .ok ⟨t, n⟩ := by
  constructor
  · intro h
    have hread : readOpeningTag ('<' :: s) = .ok ⟨t, n⟩ := by
      have hstarts : Starts false false ('<' :: s) (.opening t n) := ofBracket_starts h
      generalize '<' :: s = whole at hstarts ⊢
      cases hstarts with
      | opening hread => exact hread
    unfold ofBracket at h
    split at h
    · cases h
    split at h
    · cases hclosing : readClosingTag ('<' :: s) with
      | error f =>
          rw [hclosing] at h
          cases h
      | ok r =>
          rw [hclosing] at h
          cases h
    split at h
    · cases h
    · rename_i hlink
      cases s with
      | nil => cases h
      | cons c s =>
          dsimp only at h
          split at h
          · rename_i hc
            exact ⟨hlink, ⟨c, rfl, hc⟩, hread⟩
          · cases h
  · rintro ⟨hlink, ⟨c, hhead, hc⟩, hread⟩
    obtain ⟨s, rfl⟩ := List.head?_eq_some_iff.mp hhead
    have hcomment : c ≠ '!' := by
      rintro rfl
      cases hc
    have hclosing : c ≠ '/' := by
      rintro rfl
      cases hc
    simp [ofBracket, startsWith, dropLead?, hcomment.symm, hclosing.symm, hlink, hc, hread, Except.map]

theorem ofBracket_eq_closing_iff : ofBracket ('<' :: s) = .ok (.closing name n) ↔
    s.head? = some '/' ∧ readClosingTag ('<' :: s) = .ok ⟨name, n⟩ := by
  constructor
  · intro h
    have hread : readClosingTag ('<' :: s) = .ok ⟨name, n⟩ := by
      have hstarts : Starts false false ('<' :: s) (.closing name n) := ofBracket_starts h
      generalize '<' :: s = whole at hstarts ⊢
      cases hstarts with
      | closing hread => exact hread
    refine ⟨?_, hread⟩
    cases s with
    | nil => cases h
    | cons c s =>
        by_cases hc : c = '/'
        · rw [hc]
          rfl
        -- Without a slash behind it, the bracket opens a comment, a link or a tag, or is prose.
        · have hclosing : startsWith "</".toList ('<' :: c :: s) = false := by
            simp [startsWith, dropLead?, Ne.symm hc]
          unfold ofBracket at h
          split at h
          · cases h
          rw [hclosing, if_neg Bool.false_ne_true] at h
          split at h
          · cases h
          · dsimp only at h
            split at h
            · cases hopening : readOpeningTag ('<' :: c :: s) with
              | error f =>
                  rw [hopening] at h
                  cases h
              | ok r =>
                  rw [hopening] at h
                  cases h
            · cases h
  · rintro ⟨hhead, hread⟩
    obtain ⟨s, rfl⟩ := List.head?_eq_some_iff.mp hhead
    simp [ofBracket, startsWith, dropLead?, hread, Except.map]

end Piece

/-! ## Tags that were read -/

/-- Characters of a class are looked for up to the first other character at most. -/
theorem takeWhile_stop {p : Char → Bool} {c : Char} (hc : p c = false) (body rest : List Char) :
    (body ++ c :: rest).takeWhile p = body.takeWhile p ∧
      (body ++ c :: rest).drop (body.takeWhile p).length =
        body.drop (body.takeWhile p).length ++ c :: rest := by
  constructor
  · rw [List.takeWhile_append, List.takeWhile_cons_of_neg (by simp [hc]), List.append_nil]
    split
    · rename_i hall
      exact ((List.takeWhile_prefix p).eq_of_length hall).symm
    · rfl
  · exact List.drop_append_of_le_length (List.takeWhile_prefix p).length_le

/-- A closing tag is read alike before every text. -/
theorem readClosingTag_exchange {body rest : List Char} {r : Read (List Char)}
    (h : readClosingTag ('<' :: '/' :: body ++ '>' :: rest) = .ok r) (rest' : List Char) :
    readClosingTag ('<' :: '/' :: body ++ '>' :: rest') = .ok r := by
  have hblank : ∀ (x y : List Char), blankLength (x ++ '>' :: y) = blankLength x ∧
      (x ++ '>' :: y).drop (blankLength x) = x.drop (blankLength x) ++ '>' :: y := by
    intro x y
    obtain ⟨htake, hdrop⟩ := takeWhile_stop (by decide : isAsciiBlank '>' = false) x y
    exact ⟨congrArg List.length htake, hdrop⟩
  have hname : ∀ (x y : List Char), (x ++ '>' :: y).takeWhile isNameChar = x.takeWhile isNameChar ∧
      (x ++ '>' :: y).drop (x.takeWhile isNameChar).length =
        x.drop (x.takeWhile isNameChar).length ++ '>' :: y := by
    intro x y
    exact takeWhile_stop (by decide) x y
  simp only [readClosingTag, List.cons_append, List.drop_succ_cons, List.drop_zero, (hblank _ _).1,
    (hblank _ _).2, (hname _ _).1, (hname _ _).2] at h ⊢
  generalize body.drop (blankLength body) = middle at h ⊢
  generalize middle.drop (middle.takeWhile isNameChar).length = tail at h ⊢
  generalize tail.drop (blankLength tail) = last at h ⊢
  cases last with
  | nil => exact h
  | cons c last =>
      by_cases hc : c = '>'
      · subst hc
        exact h
      · split at h
        · rename_i heq
          exact absurd (List.cons.inj heq).1 hc
        · cases h

namespace Tagged

variable {text rest name : List Char} {t : OpeningTag}

/-- An opening tag that does not look ahead is read alike before every text. -/
theorem opening_firm (h : Tagged (.opening t) text rest)
    (hfirm : ∀ s, readOpeningTag (text ++ s) = readOpeningTag text) (rest' : List Char) :
    Tagged (.opening t) text rest' := by
  obtain ⟨body, rfl⟩ := List.head?_eq_some_iff.mp h.bracket
  obtain ⟨front, hfront⟩ := List.getLast?_eq_some_iff.mp h.opening_getLast?
  -- The bracket at the end of the tag also ends a link.
  cases front with
  | nil => simp at hfront
  | cons c front =>
      obtain ⟨rfl, rfl⟩ := List.cons.inj hfront
      obtain ⟨hlink, ⟨c, hhead, hc⟩, hread⟩ := Piece.ofBracket_eq_opening_iff.mp h.read
      refine ⟨h.bracket, Piece.ofBracket_eq_opening_iff.mpr ⟨?_, ⟨c, ?_, hc⟩, ?_⟩⟩
      · have hahead : Ahead (front ++ ['>'] ++ rest) (front ++ ['>'] ++ rest') := by
          rw [List.append_assoc, List.append_assoc]
          exact .of_last (.inr (.inl rfl)) front rest rest'
        exact hahead.autolinkLength?.symm.trans hlink
      · cases front with
        | nil => exact hhead
        | cons d front => exact hhead
      · have hsame := (hfirm rest').trans (hfirm rest).symm
        exact hsame.trans hread

theorem closing_exchange (h : Tagged (.closing name) text rest) (rest' : List Char) :
    Tagged (.closing name) text rest' := by
  obtain ⟨body, rfl⟩ := List.head?_eq_some_iff.mp h.bracket
  obtain ⟨hslash, hread⟩ := Piece.ofBracket_eq_closing_iff.mp h.read
  obtain ⟨front, hfront⟩ := List.getLast?_eq_some_iff.mp h.closing_getLast?
  cases front with
  | nil =>
      rw [List.nil_append] at hfront
      obtain ⟨hbracket, _⟩ := List.cons.inj hfront
      exact absurd hbracket (by decide)
  | cons c front =>
      obtain ⟨rfl, rfl⟩ := List.cons.inj hfront
      cases front with
      | nil => exact absurd (Option.some.inj hslash) (by decide)
      | cons d front =>
          obtain rfl : d = '/' := Option.some.inj hslash
          have hexchange := @readClosingTag_exchange front rest _ (by simpa using hread) rest'
          exact ⟨h.bracket, Piece.ofBracket_eq_closing_iff.mpr ⟨rfl, by simpa using hexchange⟩⟩

end Tagged

/-! ## Attributes as they are written -/

section Attributes

variable {name text rest gap : List Char} {bound : Nat}

theorem takeWhile_isNameChar (hname : name.all isNameChar = true)
    (hrest : ∀ c, rest.head? = some c → isNameChar c = false) :
    (name ++ rest).takeWhile isNameChar = name := by
  rw [List.takeWhile_append_of_pos (List.all_eq_true.mp hname)]
  cases rest with
  | nil => simp
  | cons c rest => simp [hrest c rfl]

theorem blankLength_eq_zero (hrest : ∀ c, rest.head? = some c → isAsciiBlank c = false) :
    blankLength rest = 0 := by
  cases rest with
  | nil => rfl
  | cons c rest => simp [blankLength, hrest c rfl]

theorem blankLength_append (hgap : gap.all isAsciiBlank = true)
    (hrest : ∀ c, rest.head? = some c → isAsciiBlank c = false) :
    blankLength (gap ++ rest) = gap.length := by
  have hzero := blankLength_eq_zero hrest
  rw [blankLength] at hzero ⊢
  rw [List.takeWhile_append_of_pos (List.all_eq_true.mp hgap), List.length_append, hzero, Nat.add_zero]

/-- Behind an equals sign the value of an attribute is read. -/
theorem readProperty_equals (hname : name.all isNameChar = true)
    (htext : ∀ c, text.head? = some c → isAsciiBlank c = false) :
    readProperty (name ++ '=' :: text) = (readValue name (name.length + 1) text).map fun value =>
      ⟨.property name (some value.value), name.length + 1 + value.size⟩ := by
  have htaken : (name ++ '=' :: text).takeWhile isNameChar = name :=
    takeWhile_isNameChar hname fun c hc => by
      rw [← Option.some.inj hc]
      decide
  have hgap : blankLength ('=' :: text) = 0 :=
    blankLength_eq_zero fun c hc => by
      rw [← Option.some.inj hc]
      decide
  have hblank := blankLength_eq_zero htext
  simp only [readProperty, htaken, List.drop_left, hgap, List.drop_zero, hblank, Nat.add_zero]
  cases readValue name (name.length + 1) text with
  | error f => rfl
  | ok value => rfl

/-- An attribute with a value that stands right behind the equals sign. -/
theorem readProperty_value {value : AttributeValue} {n : Nat} (hname : name.all isNameChar = true)
    (htext : ∀ c, text.head? = some c → isAsciiBlank c = false)
    (hvalue : readValue name (name.length + 1) text = .ok ⟨value, n⟩) :
    readProperty (name ++ '=' :: text) =
      .ok ⟨.property name (some value), name.length + 1 + n⟩ := by
  rw [readProperty_equals hname htext, hvalue]
  rfl

/-- An attribute without a value takes the blanks behind it. -/
theorem readProperty_alone (hname : name.all isNameChar = true)
    (hrest : ∀ c, rest.head? = some c → isNameChar c = false)
    (hequals : (rest.drop (blankLength rest)).head? ≠ some '=') :
    readProperty (name ++ rest) = .ok ⟨.property name none, name.length + blankLength rest⟩ := by
  have htaken := takeWhile_isNameChar hname hrest
  simp only [readProperty, htaken, List.drop_left]
  cases hdrop : rest.drop (blankLength rest) with
  | nil => rfl
  | cons c t =>
      rw [hdrop] at hequals
      split
      · rename_i heq
        rw [(List.cons.inj heq).1] at hequals
        exact absurd rfl hequals
      · rfl

/-- The text in braces is the value of an attribute. -/
theorem readValue_group {value : List Char}
    (hgroup : groupLength? ('\x7b' :: value ++ '\x7d' :: rest) = some (value.length + 2))
    (name : List Char) (before : Nat) :
    readValue name before ('\x7b' :: value ++ '\x7d' :: rest) =
      .ok ⟨.expression value, value.length + 2⟩ := by
  rw [List.cons_append] at hgroup ⊢
  simp [readValue, readGroup, hgroup]

/-- The attribute that is read at the start of a text. -/
def ReadsAttribute (text : List Char) (a : Read Attribute) : Prop :=
  (text.head? = some '\x7b' ∧ readSpread text = .ok a) ∨
    (∃ c, text.head? = some c ∧ startsName c = true) ∧ readProperty text = .ok a

/-- An attribute is read behind blanks, and then what comes behind it. -/
theorem readAttributes_next {a : Read Attribute} {e : Read TagEnd} (hgap : gap.all isAsciiBlank = true)
    (hread : ReadsAttribute text a) (htail : readAttributes bound (text.drop a.size) = .ok e) :
    readAttributes (bound + 1) (gap ++ text) =
      .ok ⟨⟨a.value :: e.value.attributes, e.value.selfClosing⟩, gap.length + a.size + e.size⟩ := by
  obtain ⟨c, t, rfl, hc⟩ : ∃ c t, text = c :: t ∧ (c = '\x7b' ∨ startsName c = true) := by
    rcases hread with ⟨hhead, _⟩ | ⟨⟨c, hhead, hc⟩, _⟩
    · obtain ⟨t, ht⟩ := List.head?_eq_some_iff.mp hhead
      exact ⟨_, t, ht, .inl rfl⟩
    · obtain ⟨t, ht⟩ := List.head?_eq_some_iff.mp hhead
      exact ⟨c, t, ht, .inr hc⟩
  have hnot : ∀ d, d ≠ '\x7b' → startsName d = false → c ≠ d := by
    rintro d hbrace hname rfl
    rcases hc with rfl | hc
    · exact hbrace rfl
    · rw [hname] at hc
      cases hc
  -- What starts an attribute is neither a blank nor the end of the tag.
  have hblank : blankLength (gap ++ c :: t) = gap.length := by
    refine blankLength_append hgap ?_
    rintro d ⟨⟩
    simp [isAsciiBlank, hnot ' ' (by decide) (by decide), hnot '\t' (by decide) (by decide),
      hnot '\n' (by decide) (by decide), hnot '\x0c' (by decide) (by decide),
      hnot '\r' (by decide) (by decide)]
  have hslash : c ≠ '/' := hnot '/' (by decide) (by decide)
  have hbracket : c ≠ '>' := hnot '>' (by decide) (by decide)
  simp only [readAttributes, hblank, List.drop_left]
  split
  · rename_i heq
    exact absurd (List.cons.inj heq).1 hslash
  · rename_i heq
    exact absurd (List.cons.inj heq).1 hbracket
  · rename_i heq
    obtain ⟨rfl, rfl⟩ := List.cons.inj heq
    rcases hread with ⟨hhead, hspread⟩ | ⟨⟨d, hhead, hname⟩, hproperty⟩
    · rw [if_pos (by rw [Option.some.inj hhead]; rfl)]
      simp only [hspread, htail]
    · have hstart : startsName c = true := by rwa [Option.some.inj hhead]
      have hbrace : c ≠ '\x7b' := by
        rintro rfl
        exact absurd hstart (by decide)
      rw [if_neg (by simpa using hbrace), if_pos hstart]
      simp only [hproperty, htail]
  · rename_i heq
    cases heq

/-- The end of an opening tag behind blanks. -/
theorem readAttributes_end (hgap : gap.all isAsciiBlank = true) (rest : List Char) :
    readAttributes (bound + 1) (gap ++ '>' :: rest) = .ok ⟨⟨[], false⟩, gap.length + 1⟩ := by
  have hblank : blankLength (gap ++ '>' :: rest) = gap.length :=
    blankLength_append hgap fun c hc => by
      rw [← Option.some.inj hc]
      decide
  simp only [readAttributes, hblank, List.drop_left]

/-- The end of a tag that closes itself, behind blanks. -/
theorem readAttributes_selfClosing (hgap : gap.all isAsciiBlank = true) (rest : List Char) :
    readAttributes (bound + 1) (gap ++ '/' :: '>' :: rest) = .ok ⟨⟨[], true⟩, gap.length + 2⟩ := by
  have hblank : blankLength (gap ++ '/' :: '>' :: rest) = gap.length :=
    blankLength_append hgap fun c hc => by
      rw [← Option.some.inj hc]
      decide
  simp only [readAttributes, hblank, List.drop_left]

/-- A tag is its name and what is read behind it. -/
theorem readOpeningTag_of_attributes {e : Read TagEnd} (hname : name.all isNameChar = true)
    (hrest : ∀ c, rest.head? = some c → isNameChar c = false)
    (hread : readAttributes (rest.length + 1) rest = .ok e) :
    readOpeningTag ('<' :: name ++ rest) = .ok ⟨⟨name, e.value⟩, name.length + 1 + e.size⟩ := by
  have htaken := takeWhile_isNameChar hname hrest
  have hdrop : ('<' :: (name ++ rest)).drop (name.length + 1) = rest := by
    rw [List.drop_succ_cons, List.drop_left]
  simp only [readOpeningTag, List.cons_append, List.drop_succ_cons, List.drop_zero, htaken] at hdrop ⊢
  rw [List.drop_left, hread]

end Attributes

/-- A tag with nothing but a name in braces. -/
theorem readOpeningTag_reference {target tail : List Char} {e : Read TagEnd} {name : List Char}
    (hname : name.all isNameChar = true) (htarget : target.all isPlain = true)
    (hend : ∀ bound, readAttributes (bound + 1) tail = .ok e) :
    readOpeningTag ('<' :: name ++ (" of=\x7b".toList ++ target ++ '\x7d' :: tail)) =
      .ok ⟨⟨name, ⟨.property "of".toList (some (.expression target)) :: e.value.attributes,
        e.value.selfClosing⟩⟩, name.length + 1 + (target.length + 6 + e.size)⟩ := by
  let text := "of".toList ++ '=' :: ('\x7b' :: target ++ '\x7d' :: tail)
  have hvalue : readValue "of".toList ("of".toList.length + 1) ('\x7b' :: target ++ '\x7d' :: tail) =
      .ok ⟨.expression target, target.length + 2⟩ :=
    readValue_group (groupLength?_plain htarget tail) _ _
  have hproperty := readProperty_value (by decide : "of".toList.all isNameChar = true)
    (fun c hc => by rw [← Option.some.inj hc]; decide) hvalue
  have hdrop : text.drop ("of".toList.length + 1 + (target.length + 2)) = tail := by
    have hsplit : text = ("of=\x7b".toList ++ target ++ ['\x7d']) ++ tail := by simp [text]
    have hlength : ("of=\x7b".toList ++ target ++ ['\x7d']).length =
        "of".toList.length + 1 + (target.length + 2) := by
      simp
      omega
    rw [hsplit, ← hlength, List.drop_left]
  obtain ⟨bound, hbound⟩ : ∃ bound, ([' '] ++ text).length + 1 = bound + 1 + 1 := ⟨text.length, by simp⟩
  have hread := readAttributes_next (by decide : [' '].all isAsciiBlank = true) (.inr ⟨⟨'o', rfl, rfl⟩, hproperty⟩)
    (by rw [hdrop]; exact hend bound)
  rw [← hbound] at hread
  have hwhole : " of=\x7b".toList ++ target ++ '\x7d' :: tail = [' '] ++ text := by simp [text]
  have hsize : 1 + ("of".toList.length + 1 + (target.length + 2)) + e.size = target.length + 6 + e.size := by
    simp
    omega
  rw [hwhole, readOpeningTag_of_attributes hname (fun c hc => by rw [← Option.some.inj hc]; decide) hread]
  simp only [List.length_singleton, hsize]

end Markup
end StoryDocs
