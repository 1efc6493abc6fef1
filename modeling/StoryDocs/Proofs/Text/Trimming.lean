import StoryDocs.Text.Blank
import StoryDocs.Text.Line

/-!
# Trimming

Dropping a tail of characters in a class leaves a text without its longest such end.  Cutting a text at its
line feeds and joining the pieces gives the text back.
-/

namespace StoryDocs
namespace Text

/-! ## Characters of a text -/

/-- What is said of the characters of a text is decided one by one, and not over all characters there are. -/
instance (priority := high) decidableForallMem (p : Char → Prop) [DecidablePred p] (s : List Char) :
    Decidable (∀ c ∈ s, p c) :=
  List.decidableBAll p s

/-! ## Tails -/

variable {p : Char → Bool}

/-- What is dropped at the end of a text is all in the class. -/
theorem exists_dropTail_append (p : Char → Bool) (s : List Char) :
    ∃ tail, s = dropTail p s ++ tail ∧ tail.all p = true := by
  induction s with
  | nil => exact ⟨[], rfl, rfl⟩
  | cons c s ih =>
      obtain ⟨tail, hsplit, htail⟩ := ih
      rw [dropTail]
      split
      · rename_i hnil
        rw [hnil, List.nil_append] at hsplit
        split
        · rename_i hc
          exact ⟨c :: tail, by rw [hsplit]; rfl, by simp [hc, htail]⟩
        · exact ⟨tail, by rw [hsplit]; rfl, htail⟩
      · exact ⟨tail, by rw [List.cons_append, ← hsplit], htail⟩

theorem dropTail_eq_nil_iff {s : List Char} : dropTail p s = [] ↔ s.all p = true := by
  induction s with
  | nil => simp [dropTail]
  | cons c s ih =>
      rw [dropTail, List.all_cons, Bool.and_eq_true, ← ih]
      split
      · rename_i hnil
        simp [hnil]
      · rename_i hne
        simpa using fun _ => hne

/-- A text that is trimmed already is left as it is. -/
theorem dropTail_dropTail (p : Char → Bool) (s : List Char) :
    dropTail p (dropTail p s) = dropTail p s := by
  induction s with
  | nil => rfl
  | cons c s ih =>
      rw [dropTail]
      split
      · split
        · rfl
        · rename_i hc
          simp [dropTail, hc]
      · rename_i hne
        rw [dropTail, ih]
        split
        · rename_i hnil
          exact absurd hnil hne
        · rfl

/-- A text whose last character is not in the class is left as it is. -/
theorem dropTail_of_getLast? {s : List Char} {c : Char} (hlast : s.getLast? = some c)
    (hc : p c = false) : dropTail p s = s := by
  obtain ⟨tail, hsplit, htail⟩ := exists_dropTail_append p s
  cases htail' : tail.getLast? with
  | none =>
      rw [List.getLast?_eq_none_iff.mp htail', List.append_nil] at hsplit
      exact hsplit.symm
  | some d =>
      rw [hsplit, List.getLast?_append, htail'] at hlast
      have hd : d = c := by simpa using hlast
      have hmem := List.mem_of_getLast? htail'
      rw [List.all_eq_true] at htail
      have hpd := htail d hmem
      rw [hd, hc] at hpd
      cases hpd

/-! ## Both ends -/

theorem allBlank_append (u v : List Char) : allBlank (u ++ v) = (allBlank u && allBlank v) :=
  List.all_append

theorem allBlank_trimEnd (s : List Char) : allBlank (trimEnd s) = allBlank s := by
  obtain ⟨tail, hsplit, htail⟩ := exists_dropTail_append isBlank s
  have hblank : allBlank tail = true := htail
  have hwhole := allBlank_append (trimEnd s) tail
  rw [trimEnd, ← hsplit, hblank, Bool.and_true] at hwhole
  exact hwhole.symm

theorem exists_append_trimStart (s : List Char) : ∃ blanks, s = blanks ++ trimStart s ∧ allBlank blanks = true :=
  ⟨s.takeWhile isBlank, (List.takeWhile_append_dropWhile).symm, List.all_takeWhile⟩

/-- What is trimmed off a text is blank. -/
theorem exists_trim (s : List Char) : ∃ front back, s = front ++ trim s ++ back ∧ allBlank front = true ∧
    allBlank back = true := by
  obtain ⟨front, hfront, hblank⟩ := exists_append_trimStart s
  obtain ⟨back, hback, hblank'⟩ := exists_dropTail_append isBlank (trimStart s)
  refine ⟨front, back, ?_, hblank, hblank'⟩
  rw [trim, trimEnd, List.append_assoc, ← hback]
  exact hfront

theorem length_trim_le (s : List Char) : (trim s).length ≤ s.length := by
  obtain ⟨front, back, hsplit, _⟩ := exists_trim s
  have hlength := congrArg List.length hsplit
  rw [List.length_append, List.length_append] at hlength
  omega

/-- A text that was trimmed starts with no blank. -/
theorem not_isBlank_of_head?_trim {s : List Char} {c : Char} (h : (trim s).head? = some c) : isBlank c = false := by
  obtain ⟨tail, hsplit, _⟩ := exists_dropTail_append isBlank (trimStart s)
  obtain ⟨w, hw⟩ := List.head?_eq_some_iff.mp h
  have hstart : trimStart s = c :: (w ++ tail) := by
    rw [hsplit]
    show trim s ++ tail = _
    rw [hw]
    rfl
  have hhead := List.head?_dropWhile_not isBlank s
  rw [← trimStart, hstart] at hhead
  simpa using hhead

theorem trim_trim (s : List Char) : trim (trim s) = trim s := by
  cases h : trim s with
  | nil => rfl
  | cons c t =>
      have hc := not_isBlank_of_head?_trim (c := c) (by rw [h]; rfl)
      have hstart : trimStart (c :: t) = c :: t := List.dropWhile_cons_of_neg (by rw [hc]; exact Bool.false_ne_true)
      rw [trim, hstart, ← h]
      exact dropTail_dropTail isBlank (trimStart s)

/-! ## Pieces between line feeds -/

theorem pieces_ne_nil (s : List Char) : pieces s ≠ [] := by
  cases s with
  | nil => simp [pieces]
  | cons c s =>
      rw [pieces]
      split
      · simp
      · split <;> simp

theorem pieces_append_feed (u s : List Char) : pieces (u ++ '\n' :: s) = pieces u ++ pieces s := by
  induction u with
  | nil => simp [pieces]
  | cons c u ih =>
      rw [List.cons_append, pieces, pieces, ih]
      split
      · rfl
      · obtain ⟨l, ls, hpieces⟩ := List.exists_cons_of_ne_nil (pieces_ne_nil u)
        rw [hpieces]
        rfl

theorem unlines_cons {l : List Char} {ls : List (List Char)} (h : ls ≠ []) :
    unlines (l :: ls) = l ++ '\n' :: unlines ls := by
  cases ls with
  | nil => exact absurd rfl h
  | cons m ls => rfl

/-- The pieces of a text join back to it. -/
theorem unlines_pieces (s : List Char) : unlines (pieces s) = s := by
  induction s with
  | nil => rfl
  | cons c s ih =>
      rw [pieces]
      split
      · rename_i hc
        rw [unlines_cons (pieces_ne_nil s), ih, beq_iff_eq.mp hc]
        rfl
      · split
        · rename_i hnil
          exact absurd hnil (pieces_ne_nil s)
        · rename_i q qs hpieces
          rw [hpieces] at ih
          cases qs with
          | nil => simpa [unlines] using ih
          | cons r qs =>
              rw [unlines_cons (by simp)] at ih ⊢
              rw [List.cons_append, ih]

end Text
end StoryDocs
