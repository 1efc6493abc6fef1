import StoryDocs.Text.Splice

/-!
# Replacing in parts of a text

Replacements that lie in order are spliced in one after the other: what stands between them is kept, and a
text that is cut in two has its replacements spliced in on either side.
-/

namespace StoryDocs
namespace Text

variable {s u v : List Char} {rs qs : List Replacement} {n : Nat}

/-! ## Replacing in a part of a text -/

/-- Texts between replacements are kept. -/
theorem spliceFrom_cons (n : Nat) (front old new rest : List Char) (rs : List Replacement) :
    spliceFrom n (⟨n + front.length, n + front.length + old.length, new⟩ :: rs) (front ++ old ++ rest) =
      front ++ new ++ spliceFrom (n + front.length + old.length) rs rest := by
  have hstart : n + front.length - n = front.length := by omega
  have hstop : n + front.length + old.length - n = (front ++ old).length := by
    rw [List.length_append]
    omega
  rw [spliceFrom, hstart, hstop, List.drop_left, List.append_assoc front old, List.take_left]

/-- The replacement of a range in a text of which a front of `n` characters is cut off. -/
def Replacement.behind (n : Nat) (r : Replacement) : Replacement :=
  ⟨r.start - n, r.stop - n, r.text⟩

theorem spliceFrom_behind (m : Nat) (h : ∀ r ∈ rs, n ≤ r.stop) :
    spliceFrom m (rs.map (Replacement.behind n)) s = spliceFrom (n + m) rs s := by
  induction rs generalizing m s with
  | nil => rfl
  | cons r rs ih =>
      have hstop : n + (r.stop - n) = r.stop := by
        have hle := h r List.mem_cons_self
        omega
      rw [List.map_cons, spliceFrom, spliceFrom, Replacement.behind]
      dsimp only
      rw [ih _ fun q hq => h q (List.mem_cons_of_mem _ hq), hstop, Nat.sub_sub, Nat.sub_sub]

/-- Replacements behind a part of a text leave it as it is. -/
theorem spliceFrom_later (h : ∀ r ∈ rs, n + u.length ≤ r.start ∧ r.start ≤ r.stop) :
    spliceFrom n rs (u ++ v) = u ++ spliceFrom (n + u.length) rs v := by
  cases rs with
  | nil => rfl
  | cons r rs =>
      obtain ⟨hstart, hstop⟩ := h r List.mem_cons_self
      have htake : r.start - n = u.length + (r.start - (n + u.length)) := by omega
      have hdrop : r.stop - n = u.length + (r.stop - (n + u.length)) := by omega
      rw [spliceFrom, spliceFrom, htake, hdrop, List.take_length_add_append, List.drop_length_add_append]
      simp only [List.append_assoc]

/-- Ranges that lie in a text of `n` characters or more behind an offset, in order. -/
def Fits (start stop : Nat) : List Replacement → Prop
  | [] => start ≤ stop
  | r :: rs => start ≤ r.start ∧ r.start ≤ r.stop ∧ Fits r.stop stop rs

theorem Fits.le {start stop : Nat} (h : Fits start stop rs) : start ≤ stop := by
  induction rs generalizing start with
  | nil => exact h
  | cons r rs ih =>
      obtain ⟨hstart, hstop, hrest⟩ := h
      have hle := ih hrest
      omega

/-- Replacements in the two parts of a text. -/
theorem spliceFrom_append (hrs : Fits n (n + u.length) rs)
    (hqs : ∀ r ∈ qs, n + u.length ≤ r.start ∧ r.start ≤ r.stop) :
    spliceFrom n (rs ++ qs) (u ++ v) = spliceFrom n rs u ++ spliceFrom (n + u.length) qs v := by
  induction rs generalizing n u with
  | nil => exact spliceFrom_later hqs
  | cons r rs ih =>
      obtain ⟨hstart, hstop, hrest⟩ := hrs
      have hle := hrest.le
      have hlength : r.stop + (u.drop (r.stop - n)).length = n + u.length := by
        rw [List.length_drop]
        omega
      have hrest' := @ih (u.drop (r.stop - n)) r.stop (by rw [hlength]; exact hrest)
        (by rw [hlength]; exact hqs)
      rw [hlength] at hrest'
      rw [List.cons_append, spliceFrom, spliceFrom, List.take_append_of_le_length (by omega),
        List.drop_append_of_le_length (by omega), hrest']
      simp only [List.append_assoc]

end Text

end StoryDocs
