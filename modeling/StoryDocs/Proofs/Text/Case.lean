import StoryDocs.Naming

/-!
# Capitalized names

The upper case of a character starts with no lower-case letter of ASCII, so no capitalized name is a word
that is written in such letters.
-/

namespace StoryDocs
namespace Text

/-- A code point that is no lower-case letter of ASCII. -/
def NotLower (n : Nat) : Prop :=
  n < 97 ∨ 122 < n

/-- A code point that is none of a character stands for the null character. -/
theorem notLower_ofNat {n : Nat} (h : NotLower n) : NotLower (Char.ofNat n).toNat := by
  unfold Char.ofNat
  by_cases hvalid : n.isValidChar
  · rw [dif_pos hvalid]
    exact h
  · rw [dif_neg hvalid]
    exact .inl (by decide)

/-- A run moves no character to a lower-case letter of ASCII. -/
theorem notLower_image {run : CaseRun} (hrun : run ∈ upperRuns.toList) {n image : Nat}
    (h : run.image? n = some image) : NotLower image := by
  have hruns : ∀ run ∈ upperRuns.toList,
      (run.last : Int) + run.shift < 97 ∨ 122 < (run.first : Int) + run.shift := by decide +kernel
  have hside := hruns run hrun
  rw [CaseRun.image?] at h
  rw [NotLower]
  split at h
  · rename_i hrange
    simp only [Bool.and_eq_true, decide_eq_true_eq] at hrange
    obtain rfl := Option.some.inj h
    omega
  · cases h

/-- The upper case of a character is a text that starts with no lower-case letter of ASCII. -/
theorem exists_head?_upper (c : Char) : ∃ d, (upper c).head? = some d ∧ NotLower d.toNat := by
  rw [upper]
  split
  · rename_i hascii
    have hlower : ∀ n < 0x80, NotLower (Char.ofNat n).toUpper.toNat := by
      simp only [NotLower]
      decide
    have hc := hlower c.toNat hascii
    rw [Char.ofNat_toNat] at hc
    exact ⟨c.toUpper, rfl, hc⟩
  · rename_i hascii
    rw [mapCase]
    split
    · rename_i code image hfind
      have hstrings : ∀ entry ∈ upperStrings.toList,
          ∃ n ∈ entry.2.head?, n < 97 ∨ 122 < n := by decide
      obtain ⟨n, hn, hside⟩ := hstrings _ (Array.mem_def.mp (Array.mem_of_find?_eq_some hfind))
      refine ⟨Char.ofNat n, ?_, notLower_ofNat hside⟩
      rw [List.head?_map, Option.mem_def.mp hn]
      rfl
    · split
      · rename_i n hfind
        obtain ⟨run, hrun, himage⟩ := Array.exists_of_findSome?_eq_some hfind
        exact ⟨Char.ofNat n, rfl, notLower_ofNat (notLower_image (Array.mem_def.mp hrun) himage)⟩
      · exact ⟨c, rfl, .inr (by omega)⟩

end Text

namespace Naming

open Text

/-- A capitalized name starts with no lower-case letter of ASCII. -/
theorem capitalize_ne {name : List Char} {c : Char} {s : List Char} (hc : ¬ NotLower c.toNat) :
    capitalize name ≠ c :: s := by
  cases name with
  | nil => simp [capitalize]
  | cons first name =>
      obtain ⟨d, hd, hlower⟩ := exists_head?_upper first
      obtain ⟨more, hmore⟩ : ∃ more, upper first = d :: more := by
        cases hupper : upper first with
        | nil =>
            rw [hupper] at hd
            cases hd
        | cons e more =>
            rw [hupper] at hd
            cases hd
            exact ⟨more, rfl⟩
      rw [capitalize, hmore, List.cons_append]
      intro heq
      rw [(List.cons.inj heq).1] at hlower
      exact hc hlower

end Naming
end StoryDocs
