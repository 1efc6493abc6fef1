import StoryDocs.Proofs.Markup.Bytes.Reader

/-!
# No reader of bytes goes wrong

Reading a document byte by byte never leaves the text, never cuts a character and never counts below zero, and
it stops.  The bound of every loop is the number of bytes that are left, so a loop that never runs out of it
moves on; `Progress` says in addition, for each scan and for every index it may start at, that its end lies
behind its start and within the text.
-/

namespace StoryDocs
namespace Markup
namespace Bytes

open Text

/-- A scan from an index has a result, and an end that it finds is behind the index and in the text. -/
def Advances (src : List Char) (i : Nat) (scan : Checked (Option Nat)) : Prop :=
  ∃ found, scan = .ok found ∧ ∀ next ∈ found, i < next ∧ next ≤ byteSize src

/-- A reader stops with an error of the text, or behind the index and in the text. -/
def Stops {α : Type} (src : List Char) (i : Nat) (r : Checked (α × Nat)) : Prop :=
  (∃ e, r = .error (.error e)) ∨ ∃ a next, r = .ok (a, next) ∧ i < next ∧ next ≤ byteSize src

/-- An index at which a character starts, or the end of the text. -/
def Boundary (src : List Char) (i : Nat) : Prop :=
  ∃ v, v <:+ src ∧ i = offset src v

/-- Every scan moves on towards the end of the text. -/
structure Progress (src : List Char) : Prop where
  /-- Strings, templates and comments, from every byte and behind every other one. -/
  literal : ∀ {prev : Char} {i bound : Nat}, i < byteSize src → byteSize src - i ≤ bound →
    Advances src i (skipLiteral (octets src) (templateEnd (octets src) bound) prev i)
  /-- Groups in braces, also those in templates. -/
  braces : ∀ {prev : Char} {i bound : Nat}, (octets src)[i]? = some '\x7b' → byteSize src - i < bound →
    Advances src i (braceEnd (octets src) bound 0 prev i)
  group : ∀ {i : Nat}, (octets src)[i]? = some '\x7b' → Advances src i (groupEnd (octets src) i)
  script : ∀ {i : Nat}, i < byteSize src → atLineStart (octets src) i = .ok true →
    seesScript src i = .ok true → Advances src i ((scriptEnd (octets src) i).map some)
  fence : ∀ {i : Nat}, i < byteSize src → atLineStart (octets src) i = .ok true →
    Advances src i (fencedEnd (octets src) i)
  codeSpan : ∀ {i : Nat}, (octets src)[i]? = some '\x60' →
    Advances src i ((codeSpanEnd (octets src) i).map some)
  /-- What starts at a byte is seen from every byte, and prose ends behind it. -/
  prose : ∀ {outside : Bool} {i : Nat}, i < byteSize src → ∃ seen, sight src outside i = .ok seen ∧
    ∀ next, seen = .prose next → i < next ∧ next ≤ byteSize src
  openingTag : ∀ {i : Nat}, (octets src)[i]? = some '<' → Stops src i (readOpeningTag src i)
  closingTag : ∀ {i : Nat}, (octets src)[i]? = some '<' → (octets src)[i + 1]? = some '/' →
    Stops src i (readClosingTag src i)
  /-- Elements, with the nodes between their tags. -/
  element : ∀ {outside : Bool} {i bound : Nat}, i < byteSize src →
    sight src outside i = .ok .opening → byteSize src - i ≤ bound →
    Stops src i (readElement src (fun tag i => readNodes src bound (some tag) [] i i) i)
  /-- The nodes of an element end at its closing tag, which is before the end of the text. -/
  nodes : ∀ {tag : Parent} {i bound : Nat}, Boundary src i → byteSize src - i < bound →
    (∃ e, readNodes src bound (some tag) [] i i = .error (.error e)) ∨
      ∃ nodes next, readNodes src bound (some tag) [] i i = .ok (nodes, next) ∧ i ≤ next ∧ next < byteSize src

section Progress

variable {src v w : List Char} {outside : Bool} {b c : Char} {i n next bound : Nat}

theorem Advances.of_endAt {extent : Option Nat} (h : v <:+ src) (hv : v ≠ [])
    (hpos : ∀ n, extent = some n → 0 < n) : Advances src (offset src v) (.ok (endAt src v extent)) := by
  refine ⟨_, rfl, ?_⟩
  intro next hnext
  cases extent with
  | none => cases hnext
  | some n =>
      cases hnext
      exact ⟨offset_lt_drop h hv (hpos n rfl), offset_le _ _⟩

/-- A narrow byte is a character. -/
theorem suffix_of_byte (hbyte : (octets src)[i]? = some b) (hb : isWide b = false) :
    ∃ v, (b :: v) <:+ src ∧ i = offset src (b :: v) := by
  have hin := lt_of_byte hbyte
  rw [length_octets] at hin
  obtain ⟨v, hnear⟩ := exists_near (Nat.le_of_not_le hin)
  have hnext := hnear.left.next
  cases hnext with
  | done hend => exact absurd hend (lt_of_byte hbyte)
  | @narrow c v hplace _ hfirst _ _ =>
      rw [hbyte] at hfirst
      cases hfirst
      exact ⟨v, hnear.left.suffix, hplace⟩
  | wide _ _ hwide hfirst _ =>
      rw [hbyte] at hfirst
      cases hfirst
      rw [hb] at hwide
      cases hwide
  | inside _ hwide hfirst _ =>
      rw [hbyte] at hfirst
      cases hfirst
      rw [hb] at hwide
      cases hwide

/-- A line starts at a character. -/
theorem suffix_of_lineStart (hlt : i < byteSize src) (hline : atLineStart (octets src) i = .ok true) :
    ∃ c v, (c :: v) <:+ src ∧ i = offset src (c :: v) := by
  obtain ⟨v, hnear⟩ := exists_near (Nat.le_of_lt hlt)
  rcases hnear.inside with hplace | ⟨hpos, d, hbefore, hd⟩
  · have hv : v ≠ [] := by
      rintro rfl
      rw [offset_nil] at hplace
      omega
    obtain ⟨c, w, rfl⟩ := List.exists_cons_of_ne_nil hv
    exact ⟨c, w, hnear.left.suffix, hplace⟩
  · rw [atLineStart_inside hpos hd hbefore] at hline
    cases hline

theorem literal_advances {prev : Char} (hlt : i < byteSize src) (hbound : byteSize src - i ≤ bound) :
    Advances src i (skipLiteral (octets src) (templateEnd (octets src) bound) prev i) := by
  obtain ⟨v, hnear⟩ := exists_near (Nat.le_of_lt hlt)
  have hnext := hnear.left.next
  -- No literal starts at a byte of a wide character.
  have hwide : ∀ {b}, isWide b = true → (octets src)[i]? = some b →
      Advances src i (skipLiteral (octets src) (templateEnd (octets src) bound) prev i) := by
    intro b hb hbyte
    rw [skipLiteral_wide hb hbyte]
    exact ⟨none, rfl, fun _ hnone => by cases hnone⟩
  cases hnext with
  | done hend =>
      rw [length_octets] at hend
      omega
  | @narrow c v hplace hc _ _ _ =>
      subst hplace
      rw [(ends src bound).literal hnear.left.suffix hc (.inl rfl) (by omega) (Nat.lt_succ_self v.length)]
      exact .of_endAt hnear.left.suffix (List.cons_ne_nil c v) fun n hn => literalLength?_pos hn
  | wide _ _ hb hbyte _ => exact hwide hb hbyte
  | inside _ hb hbyte _ => exact hwide hb hbyte

theorem braces_advance {prev : Char} (hbyte : (octets src)[i]? = some '\x7b')
    (hbound : byteSize src - i < bound) : Advances src i (braceEnd (octets src) bound 0 prev i) := by
  obtain ⟨v, hv, rfl⟩ := suffix_of_byte hbyte rfl
  have hend := @Ends.group src bound (ends src bound) prev ' ' v _ hv hbound (Nat.lt_succ_self _)
  rw [hend]
  show Advances src _ (.ok (endAt src _ (groupLength? ('\x7b' :: v))))
  exact .of_endAt hv (List.cons_ne_nil _ v) fun n hn => (groupLength?_closes hn).pos

theorem group_advances (hbyte : (octets src)[i]? = some '\x7b') :
    Advances src i (groupEnd (octets src) i) := by
  obtain ⟨v, hv, rfl⟩ := suffix_of_byte hbyte rfl
  rw [groupEnd_eq hv]
  exact .of_endAt hv (List.cons_ne_nil _ v) fun n hn => (groupLength?_closes hn).pos

theorem script_advances (hlt : i < byteSize src) (hline : atLineStart (octets src) i = .ok true)
    (hscript : seesScript src i = .ok true) : Advances src i ((scriptEnd (octets src) i).map some) := by
  obtain ⟨c, v, hv, rfl⟩ := suffix_of_lineStart hlt hline
  rw [seesScript, slice_rest hv, ok_bind] at hscript
  have hstart : startsScript (c :: v) = true := Except.ok.inj hscript
  rw [scriptEnd_eq hv]
  exact @Advances.of_endAt src (c :: v) (some (scriptLength (c :: v))) hv (List.cons_ne_nil c v)
    fun n hn => Option.some.inj hn ▸ scriptLength_pos hstart

theorem fence_advances (hlt : i < byteSize src) (hline : atLineStart (octets src) i = .ok true) :
    Advances src i (fencedEnd (octets src) i) := by
  obtain ⟨c, v, hv, rfl⟩ := suffix_of_lineStart hlt hline
  rw [fencedEnd_eq hv]
  exact .of_endAt hv (List.cons_ne_nil c v) fun n hn => fencedLength?_pos hn

theorem codeSpan_advances (hbyte : (octets src)[i]? = some '\x60') :
    Advances src i ((codeSpanEnd (octets src) i).map some) := by
  obtain ⟨v, hv, rfl⟩ := suffix_of_byte hbyte rfl
  rw [codeSpanEnd_eq hv]
  exact @Advances.of_endAt src _ (some (codeSpanLength ('\x60' :: v))) hv (List.cons_ne_nil _ v)
    fun n hn => Option.some.inj hn ▸ codeSpanLength_pos v

theorem sight_advances (hlt : i < byteSize src) : ∃ seen, sight src outside i = .ok seen ∧
    ∀ next, seen = .prose next → i < next ∧ next ≤ byteSize src := by
  obtain ⟨v, hnear⟩ := exists_near (Nat.le_of_lt hlt)
  rcases hnear.cases hlt with ⟨rfl, hv⟩ | ⟨hnext, hsight⟩
  · obtain ⟨c, w, rfl⟩ := List.exists_cons_of_ne_nil hv
    obtain ⟨seen, hsight, hsees⟩ := sight_sees outside hnear.left.suffix
    refine ⟨seen, hsight, ?_⟩
    rintro next rfl
    cases hsees with
    | prose _ hbehind hnext => exact ⟨hbehind, hnext.le⟩
  · refine ⟨_, hsight outside, ?_⟩
    rintro next hprose
    cases hprose
    exact ⟨Nat.lt_succ_self i, hnext.le⟩

theorem Stops.of_told {α : Type} {r : Except Fault (Read α)} (h : v <:+ src) (hv : v ≠ [])
    (hpos : ∀ a, r = .ok a → 0 < a.size) : Stops src (offset src v) (told src v r) := by
  cases r with
  | error f => exact .inl ⟨_, rfl⟩
  | ok a => exact .inr ⟨_, _, rfl, offset_lt_drop h hv (hpos a rfl), offset_le _ _⟩

theorem openingTag_stops (hbyte : (octets src)[i]? = some '<') : Stops src i (readOpeningTag src i) := by
  obtain ⟨v, hv, rfl⟩ := suffix_of_byte hbyte rfl
  rw [readOpeningTag_eq hv rfl]
  exact .of_told hv (List.cons_ne_nil _ v) fun a ha => (readOpeningTag_closes ha).pos

theorem closingTag_stops (hbyte : (octets src)[i]? = some '<') (hslash : (octets src)[i + 1]? = some '/') :
    Stops src i (readClosingTag src i) := by
  obtain ⟨v, hv, rfl⟩ := suffix_of_byte hbyte rfl
  rw [← offset_narrow hv rfl, getElem?_offset_zero (suffix_of_cons hv)] at hslash
  have hhead := @head?_octets '/' rfl v
  rw [hslash, beq_self_eq_true] at hhead
  obtain ⟨w, rfl⟩ := List.head?_eq_some_iff.mp (beq_iff_eq.mp hhead.symm)
  rw [readClosingTag_eq hv rfl]
  exact .of_told hv (List.cons_ne_nil _ _) fun a ha => (readClosingTag_closes ha).pos

theorem element_stops (hlt : i < byteSize src) (hsight : sight src outside i = .ok .opening)
    (hbound : byteSize src - i ≤ bound) :
    Stops src i (readElement src (fun tag i => readNodes src bound (some tag) [] i i) i) := by
  obtain ⟨v, hnear⟩ := exists_near (Nat.le_of_lt hlt)
  have hsuffix := hnear.left.suffix
  rcases hnear.cases hlt with ⟨rfl, hv⟩ | ⟨_, hprose⟩
  · obtain ⟨c, w, rfl⟩ := List.exists_cons_of_ne_nil hv
    obtain ⟨seen, hseen, hsees⟩ := sight_sees outside hsuffix
    rw [hsight] at hseen
    cases hseen
    cases hsees with
    | opening hhead hpiece =>
        -- Only whether an element is open matters for what starts here.
        obtain ⟨frames, rfl⟩ : ∃ frames : List Frame, frames.isEmpty = outside := by
          cases outside with
          | true => exact ⟨[], rfl⟩
          | false => exact ⟨[⟨⟨[], [], false, .start, none⟩, [], []⟩], rfl⟩
        have hchildren : ∀ {t : State} {f : Frame}, t.frames = f :: frames → t.nodes = [] →
            Mirrors src t (offset src t.rest) (offset src t.rest) → offset src (c :: w) < offset src t.rest →
            Follows src t (offset src t.rest) (readNodes src bound (some (f.tag.name, f.tag.position)) []
              (offset src t.rest) (offset src t.rest)) := by
          intro t f hframes hnodes hinner hbehind
          have hread := readNodes_follows hinner (by omega : byteSize src - offset src t.rest < bound)
          rw [parentOf, hframes, hnodes] at hread
          exact hread
        have helement := @readElement_follows src
          { frames := frames, place := placeAt src (c :: w), rest := c :: w }
          (fun tag i => readNodes src bound (some tag) [] i i) hsuffix rfl hhead hpiece hchildren
        dsimp only at helement
        generalize readElement src _ _ = r at helement ⊢
        cases helement with
        | error _ => exact .inl ⟨_, rfl⟩
        | element _ _ _ hmirrors hbehind => exact .inr ⟨_, _, rfl, hbehind, hmirrors.near.le⟩
  · rw [hprose] at hsight
    cases hsight

theorem nodes_stop {tag : Parent} (h : Boundary src i) (hbound : byteSize src - i < bound) :
    (∃ e, readNodes src bound (some tag) [] i i = .error (.error e)) ∨
      ∃ nodes next, readNodes src bound (some tag) [] i i = .ok (nodes, next) ∧
        i ≤ next ∧ next < byteSize src := by
  obtain ⟨v, hv, rfl⟩ := h
  have hread := @readNodes_follows src
    { frames := [⟨⟨tag.1, [], false, tag.2, none⟩, [], []⟩], place := placeAt src v, rest := v }
    _ _ bound ⟨.of_suffix hv, rfl, hv, rfl⟩ hbound
  change Follows src _ (offset src v) (readNodes src bound (some tag) [] (offset src v) (offset src v))
    at hread
  generalize readNodes src bound (some tag) [] (offset src v) (offset src v) = r at hread ⊢
  cases hread with
  | error _ => exact .inl ⟨_, rfl⟩
  | nodes _ hframes hsuffix _ hle hend =>
      cases hend with
      | text hnone _ =>
          rw [hnone] at hframes
          cases hframes
      | closing _ hrest _ =>
          exact .inr ⟨_, _, rfl, hle, offset_lt hsuffix (by simp [hrest])⟩

theorem progress (src : List Char) : Progress src where
  literal := literal_advances
  braces := braces_advance
  group := group_advances
  script := script_advances
  fence := fence_advances
  codeSpan := codeSpan_advances
  prose := sight_advances
  openingTag := openingTag_stops
  closingTag := closingTag_stops
  element := element_stops
  nodes := nodes_stop

end Progress

/-- Reading a document byte by byte never panics: it gives the document or the error that reading it
character by character gives, and every scan and every element on the way moves on towards the end. -/
theorem parse_never_panics (source : List Char) :
    (∀ p, parse source ≠ .error (.panic p)) ∧
      parse source = (Markup.parse source).mapError Stop.error ∧ Progress source := by
  have hsame := parse_eq source
  refine ⟨?_, hsame, progress source⟩
  intro p hpanic
  rw [hsame] at hpanic
  cases hparse : Markup.parse source with
  | error e =>
      rw [hparse] at hpanic
      cases hpanic
  | ok d =>
      rw [hparse] at hpanic
      cases hpanic

end Bytes
end Markup
end StoryDocs
