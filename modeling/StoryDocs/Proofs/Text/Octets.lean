import StoryDocs.Proofs.Text.Dedent
import StoryDocs.Text.Blank

/-!
# The bytes of a text

`octets` are the bytes of a text in UTF-8, each as the character of its number, so that the tests for
characters below 128 read them.  Such a character is its own byte.  All bytes of any other character are
`isWide`, so none of them passes for a character that the tests know.
-/

namespace StoryDocs
namespace Text

/-- The bytes of a character in UTF-8, each as the character of its number. -/
def octetsOf (c : Char) : List Char :=
  (String.utf8EncodeChar c).map Char.ofUInt8

/-- The bytes of a text in UTF-8. -/
def octets (s : List Char) : List Char :=
  s.flatMap octetsOf

/-- Whether a character takes more than one byte, and whether a byte belongs to such a character. -/
def isWide (c : Char) : Bool :=
  128 ≤ c.toNat

theorem octets_nil : octets [] = [] := rfl

theorem octets_cons (c : Char) (s : List Char) : octets (c :: s) = octetsOf c ++ octets s := rfl

theorem octets_append (s t : List Char) : octets (s ++ t) = octets s ++ octets t :=
  List.flatMap_append

theorem length_octetsOf (c : Char) : (octetsOf c).length = c.utf8Size := by
  rw [octetsOf, List.length_map, String.length_utf8EncodeChar]

theorem length_octets (s : List Char) : (octets s).length = byteSize s := by
  induction s with
  | nil => rfl
  | cons c s ih => rw [octets_cons, List.length_append, length_octetsOf, ih, byteSize]

/-- The character of a byte has its number. -/
theorem toNat_ofUInt8_ofNat {n : Nat} (h : n < 256) : (Char.ofUInt8 (UInt8.ofNat n)).toNat = n := by
  show (UInt8.ofNat n).toUInt32.toNat = n
  rw [UInt8.toNat_toUInt32, UInt8.toNat_ofNat', Nat.mod_eq_of_lt h]

/-- A narrow character is its own byte. -/
theorem octetsOf_narrow {c : Char} (h : isWide c = false) : octetsOf c = [c] := by
  have hnat : c.toNat < 128 := by simpa [isWide] using h
  have hval : c.val.toNat ≤ 127 := Nat.le_of_lt_succ hnat
  have hsame : Char.ofUInt8 (UInt8.ofNat c.val.toNat) = c :=
    Char.toNat_inj.mp (toNat_ofUInt8_ofNat (show c.toNat < 256 by omega))
  rw [octetsOf, String.utf8EncodeChar, if_pos hval, List.map_cons, List.map_nil, hsame]

/-- Every byte of a wide character is wide. -/
theorem isWide_of_mem_octetsOf {c b : Char} (h : isWide c = true) (hb : b ∈ octetsOf c) :
    isWide b = true := by
  have hval : ¬ c.val.toNat ≤ 127 := by
    have hnat : 128 ≤ c.toNat := by simpa [isWide] using h
    exact Nat.not_le.mpr hnat
  -- Every byte is a remainder on top of 128 or more.
  have hwide : ∀ n, 128 ≤ n → n < 256 → isWide (Char.ofUInt8 (UInt8.ofNat n)) = true := by
    intro n hlow hhigh
    rw [isWide, toNat_ofUInt8_ofNat hhigh]
    exact decide_eq_true hlow
  rw [octetsOf, String.utf8EncodeChar, if_neg hval] at hb
  split at hb
  · simp only [List.map_cons, List.map_nil, List.mem_cons, List.not_mem_nil, or_false] at hb
    rcases hb with rfl | rfl
    · exact hwide _ (by omega) (by omega)
    · exact hwide _ (by omega) (by omega)
  · split at hb
    · simp only [List.map_cons, List.map_nil, List.mem_cons, List.not_mem_nil, or_false] at hb
      rcases hb with rfl | rfl | rfl
      · exact hwide _ (by omega) (by omega)
      · exact hwide _ (by omega) (by omega)
      · exact hwide _ (by omega) (by omega)
    · simp only [List.map_cons, List.map_nil, List.mem_cons, List.not_mem_nil, or_false] at hb
      rcases hb with rfl | rfl | rfl | rfl
      · exact hwide _ (by omega) (by omega)
      · exact hwide _ (by omega) (by omega)
      · exact hwide _ (by omega) (by omega)
      · exact hwide _ (by omega) (by omega)

/-- A character has a byte. -/
theorem octetsOf_ne_nil (c : Char) : octetsOf c ≠ [] := by
  intro hnil
  have hlength := length_octetsOf c
  have hpos := c.utf8Size_pos
  rw [hnil, List.length_nil] at hlength
  omega

/-- The narrow characters of a text stand as they are among its bytes. -/
theorem mem_octets_iff {c : Char} {s : List Char} (h : isWide c = false) : c ∈ octets s ↔ c ∈ s := by
  rw [octets, List.mem_flatMap]
  constructor
  · rintro ⟨d, hd, hc⟩
    cases hwide : isWide d with
    | true =>
        rw [isWide_of_mem_octetsOf hwide hc] at h
        cases h
    | false =>
        rw [octetsOf_narrow hwide, List.mem_singleton] at hc
        rw [hc]
        exact hd
  · intro hc
    exact ⟨c, hc, by rw [octetsOf_narrow h]; exact List.mem_singleton_self c⟩

/-! ## Tests on bytes -/

section Tests

variable {p : Char → Bool} {mark s : List Char} {b c : Char}

/-- The characters at the start that pass a test. -/
theorem take_takeWhile (p : Char → Bool) (s : List Char) :
    s.take (s.takeWhile p).length = s.takeWhile p :=
  (List.prefix_iff_eq_take.mp (List.takeWhile_prefix p)).symm

/-- What is behind the characters at the start that pass a test. -/
theorem drop_takeWhile (p : Char → Bool) (s : List Char) :
    s.drop (s.takeWhile p).length = s.dropWhile p := by
  have hsplit : s.take (s.takeWhile p).length ++ s.drop (s.takeWhile p).length =
      s.takeWhile p ++ s.dropWhile p := by
    rw [List.take_append_drop, List.takeWhile_append_dropWhile]
  rw [take_takeWhile] at hsplit
  exact List.append_cancel_left hsplit

theorem ne_of_isWide (hb : isWide b = true) (hc : isWide c = false) : b ≠ c := by
  rintro rfl
  rw [hb] at hc
  cases hc

theorem beq_of_isWide (hb : isWide b = true) (hc : isWide c = false) : (b == c) = false :=
  beq_eq_false_iff_ne.mpr (ne_of_isWide hb hc)

/-- No wide character passes a test. -/
def Narrow (p : Char → Bool) : Prop :=
  ∀ c, isWide c = true → p c = false

/-- A test takes all wide characters for the same. -/
def Uniform (p : Char → Bool) : Prop :=
  ∀ b c, isWide b = true → isWide c = true → p b = p c

theorem Narrow.of_lt (h : ∀ c, p c = true → c.toNat < 128) : Narrow p := by
  intro c hc
  have hhigh : 128 ≤ c.toNat := by simpa [isWide] using hc
  cases hp : p c with
  | false => rfl
  | true =>
      have hlow := h c hp
      omega

theorem Narrow.uniform (h : Narrow p) : Uniform p := by
  intro b c hb hc
  rw [h b hb, h c hc]

theorem Narrow.beq (hc : isWide c = false) : Narrow (· == c) :=
  fun _ hb => beq_of_isWide hb hc

theorem Narrow.or {q : Char → Bool} (hp : Narrow p) (hq : Narrow q) : Narrow fun c => p c || q c := by
  intro c hc
  dsimp only
  rw [hp c hc, hq c hc]
  rfl

theorem Narrow.isAlpha : Narrow Char.isAlpha := by
  apply Narrow.of_lt
  intro c hc
  have hcase : c.isUpper = true ∨ c.isLower = true := Bool.or_eq_true_iff.mp hc
  rcases hcase with hupper | hlower
  · have hlast : c.val ≤ 'Z'.val := (of_decide_eq_true hupper).2
    exact Nat.lt_of_le_of_lt (UInt32.le_iff_toNat_le.mp hlast) (by decide)
  · have hlast : c.val ≤ 'z'.val := of_decide_eq_true (Bool.and_eq_true_iff.mp hlower).2
    exact Nat.lt_of_le_of_lt (UInt32.le_iff_toNat_le.mp hlast) (by decide)

theorem Narrow.isDigit : Narrow Char.isDigit := by
  apply Narrow.of_lt
  intro c hc
  simp only [Char.isDigit, Bool.and_eq_true, decide_eq_true_eq, UInt32.le_iff_toNat_le] at hc
  exact Nat.lt_of_le_of_lt hc.2 (by decide)

theorem Narrow.isAsciiAlphanumeric : Narrow isAsciiAlphanumeric :=
  Narrow.isAlpha.or Narrow.isDigit

theorem Narrow.isIndent : Narrow isIndent :=
  (Narrow.beq rfl).or (Narrow.beq rfl)

theorem Narrow.isAsciiBlank : Narrow isAsciiBlank :=
  ((((Narrow.beq rfl).or (Narrow.beq rfl)).or (Narrow.beq rfl)).or (Narrow.beq rfl)).or (Narrow.beq rfl)

theorem Uniform.not (h : Uniform p) : Uniform fun c => !p c := by
  intro b c hb hc
  dsimp only
  rw [h b c hb hc]

/-- The bytes of a character pass a uniform test together. -/
theorem Uniform.octetsOf (h : Uniform p) (hb : b ∈ octetsOf c) : p b = p c := by
  cases hc : isWide c with
  | false =>
      rw [octetsOf_narrow hc, List.mem_singleton] at hb
      rw [hb]
  | true => exact h b c (isWide_of_mem_octetsOf hc hb) hc

theorem Uniform.takeWhile (h : Uniform p) (s : List Char) :
    (octets s).takeWhile p = octets (s.takeWhile p) := by
  induction s with
  | nil => rfl
  | cons c s ih =>
      cases hc : p c with
      | true =>
          have hall : ∀ b ∈ Text.octetsOf c, p b = true := fun b hb => (h.octetsOf hb).trans hc
          rw [octets_cons, List.takeWhile_append_of_pos hall, ih, List.takeWhile_cons_of_pos hc, octets_cons]
      | false =>
          obtain ⟨b, bs, hbs⟩ := List.exists_cons_of_ne_nil (octetsOf_ne_nil c)
          have hb : p b = false := by
            rw [h.octetsOf (by rw [hbs]; exact List.mem_cons_self), hc]
          rw [octets_cons, hbs, List.cons_append, List.takeWhile_cons_of_neg (by simp [hb]),
            List.takeWhile_cons_of_neg (by simp [hc])]
          rfl

theorem Uniform.dropWhile (h : Uniform p) (s : List Char) :
    (octets s).dropWhile p = octets (s.dropWhile p) := by
  have hsplit : octets (s.takeWhile p) ++ (octets s).dropWhile p =
      octets (s.takeWhile p) ++ octets (s.dropWhile p) := by
    rw [← h.takeWhile, List.takeWhile_append_dropWhile, h.takeWhile, ← octets_append,
      List.takeWhile_append_dropWhile]
  exact List.append_cancel_left hsplit

theorem Uniform.all (h : Uniform p) (s : List Char) : (octets s).all p = s.all p := by
  induction s with
  | nil => rfl
  | cons c s ih =>
      have hsame : (Text.octetsOf c).all p = p c := by
        cases hc : p c with
        | true => exact List.all_eq_true.mpr fun b hb => (h.octetsOf hb).trans hc
        | false =>
            obtain ⟨b, bs, hbs⟩ := List.exists_cons_of_ne_nil (octetsOf_ne_nil c)
            have hb : p b = false := by
              rw [h.octetsOf (by rw [hbs]; exact List.mem_cons_self), hc]
            rw [hbs, List.all_cons, hb, Bool.false_and]
      rw [octets_cons, List.all_append, hsame, ih, List.all_cons]

/-- Characters that pass a narrow test are their own bytes. -/
theorem Narrow.octets_of_all (h : Narrow p) (hs : s.all p = true) : octets s = s := by
  induction s with
  | nil => rfl
  | cons c s ih =>
      rw [List.all_cons, Bool.and_eq_true] at hs
      have hc : isWide c = false := by
        cases hwide : isWide c with
        | false => rfl
        | true =>
            rw [h c hwide] at hs
            exact absurd hs.1 Bool.false_ne_true
      rw [octets_cons, octetsOf_narrow hc, ih hs.2]
      rfl

theorem byteSize_of_narrow (hs : ∀ c ∈ s, isWide c = false) : byteSize s = s.length := by
  have hnarrow : Narrow fun c => !isWide c := by
    intro c hc
    dsimp only
    rw [hc]
    rfl
  have hall : s.all (fun c => !isWide c) = true := by
    rw [List.all_eq_true]
    intro c hc
    rw [hs c hc]
    rfl
  rw [← length_octets, hnarrow.octets_of_all hall]

/-- The first byte of a text is a narrow character exactly if the text starts with it. -/
theorem head?_octets (hc : isWide c = false) (s : List Char) :
    ((octets s).head? == some c) = (s.head? == some c) := by
  cases s with
  | nil => rfl
  | cons d s =>
      obtain ⟨b, bs, hbs⟩ := List.exists_cons_of_ne_nil (octetsOf_ne_nil d)
      have hsame := (Narrow.beq hc).uniform.octetsOf (by rw [hbs]; exact List.mem_cons_self : b ∈ octetsOf d)
      rw [octets_cons, hbs]
      exact hsame

theorem dropLead?_octets (hmark : ∀ c ∈ mark, isWide c = false) (s : List Char) :
    dropLead? mark (octets s) = (dropLead? mark s).map octets := by
  induction mark generalizing s with
  | nil => simp [dropLead?]
  | cons m mark ih =>
      obtain ⟨hm, hrest⟩ := List.forall_mem_cons.mp hmark
      cases s with
      | nil => rfl
      | cons c s =>
          cases hc : isWide c with
          | false =>
              rw [octets_cons, octetsOf_narrow hc, List.cons_append, List.nil_append, dropLead?, dropLead?,
                ih hrest]
              split
              · rfl
              · rfl
          | true =>
              obtain ⟨b, bs, hbs⟩ := List.exists_cons_of_ne_nil (octetsOf_ne_nil c)
              have hb : isWide b = true := isWide_of_mem_octetsOf hc (by rw [hbs]; exact List.mem_cons_self)
              rw [octets_cons, hbs, List.cons_append, dropLead?, dropLead?,
                if_neg (by simpa using (ne_of_isWide hb hm).symm),
                if_neg (by simpa using (ne_of_isWide hc hm).symm)]
              rfl

theorem startsWith_octets (hmark : ∀ c ∈ mark, isWide c = false) (s : List Char) :
    startsWith mark (octets s) = startsWith mark s := by
  rw [startsWith, startsWith, dropLead?_octets hmark, Option.isSome_map]

/-- No narrow mark starts among wide bytes. -/
theorem find?_wide {w : List Char} (hmark : ∀ c ∈ mark, isWide c = false) (hne : mark ≠ [])
    (hw : ∀ b ∈ w, isWide b = true) (s : List Char) :
    find? mark (w ++ s) = (find? mark s).map (· + w.length) := by
  obtain ⟨m, mark, rfl⟩ := List.exists_cons_of_ne_nil hne
  induction w with
  | nil => simp
  | cons b w ih =>
      obtain ⟨hb, hrest⟩ := List.forall_mem_cons.mp hw
      have hm : ¬ (m == b) = true := by
        simpa using (ne_of_isWide hb (hmark m List.mem_cons_self)).symm
      have hstart : startsWith (m :: mark) (b :: (w ++ s)) = false := by
        rw [startsWith, dropLead?, if_neg hm]
        rfl
      rw [List.cons_append, find?, hstart, ih hrest]
      cases find? (m :: mark) s with
      | none => rfl
      | some n => rfl

/-- A narrow mark stands among the bytes of a text where it stands in the text. -/
theorem find?_octets (hmark : ∀ c ∈ mark, isWide c = false) (hne : mark ≠ []) (s : List Char) :
    find? mark (octets s) = (find? mark s).map fun n => byteSize (s.take n) := by
  induction s with
  | nil =>
      obtain ⟨m, mark, rfl⟩ := List.exists_cons_of_ne_nil hne
      rfl
  | cons c s ih =>
      have hbehind : ∀ {found : Option Nat},
          ((found.map fun n => byteSize (s.take n)).map (· + c.utf8Size)) =
            (found.map (· + 1)).map fun n => byteSize ((c :: s).take n) := by
        intro found
        cases found with
        | none => rfl
        | some n =>
            rw [Option.map_some, Option.map_some, Option.map_some, Option.map_some, List.take_succ_cons,
              byteSize, Nat.add_comm]
      -- A narrow mark cannot start inside a wide character.
      cases hc : isWide c with
      | false =>
          have hstart := startsWith_octets hmark (c :: s)
          have hsize : c.utf8Size = 1 := by
            rw [← length_octetsOf, octetsOf_narrow hc]
            rfl
          rw [octets_cons, octetsOf_narrow hc, List.cons_append, List.nil_append] at hstart ⊢
          rw [hsize] at hbehind
          rw [find?, find?, hstart, ih]
          cases startsWith mark (c :: s) with
          | true => rfl
          | false => exact hbehind
      | true =>
          have hwide := fun b => @isWide_of_mem_octetsOf c b hc
          have hstart : startsWith mark (c :: s) = false := by
            obtain ⟨m, mark, rfl⟩ := List.exists_cons_of_ne_nil hne
            have hm := (ne_of_isWide hc (hmark m List.mem_cons_self)).symm
            rw [startsWith, dropLead?, if_neg (by simpa using hm)]
            rfl
          rw [octets_cons, find?_wide hmark hne hwide, ih, length_octetsOf, hbehind, find?, hstart]
          rfl

end Tests

end Text
end StoryDocs
