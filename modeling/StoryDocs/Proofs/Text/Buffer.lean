import StoryDocs.Proofs.Markup.Bytes.Cursor

/-!
# Edits of a buffer

A buffer is read and written at byte indexes.  A difference of indexes below zero, an index behind the end and one
inside a character stop the program; between the boundaries of characters a slice is what stands there, and a
replacement keeps what stands in front of it and behind it.
-/

namespace StoryDocs
namespace Text
namespace Buffer

open Markup.Bytes

/-- The difference of two indexes. -/
def minus (i j : Nat) : Checked Nat :=
  if j ≤ i then .ok (i - j) else .error (.panic .underflow)

/-- Put a text in the place of a range. -/
def replaceRange (s : List Char) (i j : Nat) (new : List Char) : Checked (List Char) := do
  let front ← slice s 0 i
  let _ ← slice s i j
  let back ← slice s j (byteSize s)
  return front ++ new ++ back

/-- An index between two characters, or at an end of the buffer. -/
def CharStart (s : List Char) (i : Nat) : Prop :=
  ∃ front back, s = front ++ back ∧ byteSize front = i

/-- The index in bytes of a character, also behind the end of the text. -/
def byteIndex : List Char → Nat → Nat
  | _, 0 => 0
  | [], n + 1 => n + 1
  | c :: s, n + 1 => c.utf8Size + byteIndex s n

variable {s : List Char} {i j n m : Nat}

/-! ## Indexes -/

theorem byteIndex_append (u v : List Char) : byteIndex (u ++ v) u.length = byteSize u := by
  induction u with
  | nil => cases v <;> rfl
  | cons c u ih => rw [List.cons_append, List.length_cons, byteIndex, byteSize, ih]

theorem byteIndex_lt_iff (text : List Char) : byteIndex text n < byteIndex text m ↔ n < m := by
  induction text generalizing n m with
  | nil => cases n <;> cases m <;> simp [byteIndex]
  | cons c text ih =>
      have hpos := c.utf8Size_pos
      cases n with
      | zero =>
          cases m with
          | zero => simp [byteIndex]
          | succ m =>
              simp only [byteIndex]
              omega
      | succ n =>
          cases m with
          | zero => simp [byteIndex]
          | succ m =>
              have hrest := @ih n m
              simp only [byteIndex]
              omega

theorem byteIndex_le_iff (text : List Char) : byteIndex text n ≤ byteIndex text m ↔ n ≤ m := by
  rw [← Nat.not_lt, ← Nat.not_lt, byteIndex_lt_iff]

/-- The characters of a text and its end are starts in this sense. -/
theorem charStart_byteIndex (h : n ≤ s.length) : CharStart s (byteIndex s n) := by
  refine ⟨s.take n, s.drop n, (List.take_append_drop n s).symm, ?_⟩
  have hindex := byteIndex_append (s.take n) (s.drop n)
  rw [List.take_append_drop, List.length_take, Nat.min_eq_left h] at hindex
  exact hindex.symm

theorem minus_append (u v : List Char) : minus (byteSize (u ++ v)) (byteSize u) = .ok (byteSize v) := by
  rw [minus, byteSize_append, if_pos (Nat.le_add_right _ _), Nat.add_sub_cancel_left]

theorem minus_add (i j : Nat) : minus (i + j) i = .ok j := by
  rw [minus, if_pos (Nat.le_add_right _ _), Nat.add_sub_cancel_left]

/-! ## Slices -/

/-- A slice is what stands between a front and a back of a text. -/
theorem slice_append (u v w : List Char) :
    slice (u ++ v ++ w) (byteSize u) (byteSize u + byteSize v) = .ok v := by
  have hwhole := cut?_append (u ++ v) w
  rw [byteSize_append] at hwhole
  rw [slice, if_pos ⟨by omega, by simp only [byteSize_append]; omega⟩, hwhole]
  dsimp only
  rw [cut?_append]

theorem slice_front (v w : List Char) : slice (v ++ w) 0 (byteSize v) = .ok v := by
  have hslice := slice_append [] v w
  rw [List.nil_append, byteSize, Nat.zero_add] at hslice
  exact hslice

theorem slice_back (u w : List Char) : slice (u ++ w) (byteSize u) (byteSize (u ++ w)) = .ok w := by
  have hslice := slice_append u w []
  rw [List.append_nil, ← byteSize_append] at hslice
  exact hslice

theorem replaceRange_append (u v w new : List Char) :
    replaceRange (u ++ v ++ w) (byteSize u) (byteSize u + byteSize v) new = .ok (u ++ new ++ w) := by
  have hback := slice_back (u ++ v) w
  have hfront := slice_front u (v ++ w)
  rw [byteSize_append] at hback
  rw [← List.append_assoc] at hfront
  rw [replaceRange, hfront, ok_bind, slice_append, ok_bind, hback, ok_bind]
  rfl

/-- A text of which no byte is left is empty. -/
theorem eq_nil_of_byteSize (h : byteSize s = 0) : s = [] := by
  cases s with
  | nil => rfl
  | cons c s =>
      have hpos := c.utf8Size_pos
      rw [byteSize] at h
      omega

/-- Of two fronts of a text the longer one starts with the other. -/
theorem exists_append_of_byteSize_le {u v x y : List Char} (h : u ++ x = v ++ y) (hle : byteSize u ≤ byteSize v) :
    ∃ w, v = u ++ w ∧ x = w ++ y := by
  rcases List.append_eq_append_iff.mp h with ⟨w, hv, hx⟩ | ⟨w, hu, hy⟩
  · exact ⟨w, hv, hx⟩
  · rw [hu, byteSize_append] at hle
    obtain rfl := @eq_nil_of_byteSize w (by omega)
    rw [List.append_nil] at hu
    exact ⟨[], by rw [hu, List.append_nil], hy.symm⟩

/-- Behind a front, a buffer is cut at a boundary. -/
theorem CharStart.exists_cut {front : List Char} (h : CharStart (front ++ s) i) (hle : byteSize front ≤ i) :
    ∃ u v, s = u ++ v ∧ i = byteSize front + byteSize u := by
  obtain ⟨front', back, hsplit, rfl⟩ := h
  obtain ⟨u, rfl, rfl⟩ := exists_append_of_byteSize_le hsplit hle
  exact ⟨u, back, rfl, byteSize_append front u⟩

end Buffer
end Text
end StoryDocs
