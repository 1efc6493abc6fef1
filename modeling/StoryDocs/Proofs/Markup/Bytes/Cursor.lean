import StoryDocs.Markup.Error
import StoryDocs.Proofs.Text.Octets

/-!
# Checked access to the bytes of a document

A reader that keeps a byte index can go wrong in ways that a reader of characters cannot: the index can leave
the text, a slice can cut a character, a counter can fall below zero.  Here every access says so, as a `Panic`.
`Left src i v` says what such an index means: the bytes from `i` on are what is left of a character that
began before, if anything, and then the text `v`.
-/

namespace StoryDocs
namespace Markup
namespace Bytes

open Text

/-! ## Accesses -/

/-- What a reader of bytes must not do. -/
inductive Panic where
  /-- Read a byte or a slice that the text does not have. -/
  | range
  /-- Cut a character. -/
  | boundary
  /-- Count below zero. -/
  | underflow
  /-- Call a scanner at a place it is not made for. -/
  | assertion
  /-- Go on for more rounds than there are bytes. -/
  | endless
  deriving DecidableEq, Repr

/-- Why a reader stops without a result. -/
inductive Stop where
  | panic (p : Panic)
  | error (e : Error)
  deriving DecidableEq, Repr

/-- A result, unless the reader stops before it has one. -/
abbrev Checked := Except Stop

theorem ok_bind {α β : Type} (a : α) (f : α → Checked β) : (Except.ok a >>= f) = f a := rfl

/-- The entry of a list at an index. -/
def entry {α : Type} (xs : List α) (i : Nat) : Checked α :=
  match xs[i]? with
  | some x => .ok x
  | none => .error (.panic .range)

/-- The byte at an index. -/
def byte (bytes : List Char) (i : Nat) : Checked Char :=
  entry bytes i

/-- The bytes from one index up to another one. -/
def part (bytes : List Char) (i j : Nat) : Checked (List Char) :=
  if i ≤ j ∧ j ≤ bytes.length then .ok ((bytes.take j).drop i) else .error (.panic .range)

/-- One less. -/
def pred : Nat → Checked Nat
  | 0 => .error (.panic .underflow)
  | n + 1 => .ok n

/-- Go on only if something holds. -/
def require (holds : Bool) : Checked Unit :=
  if holds then .ok () else .error (.panic .assertion)

/-- Cut a text before one of its bytes, unless that is inside a character or behind the end. -/
def cut? : Nat → List Char → Option (List Char × List Char)
  | 0, s => some ([], s)
  | _ + 1, [] => none
  | i + 1, c :: s =>
    if i + 1 < c.utf8Size then none
    else (cut? (i + 1 - c.utf8Size) s).map fun (front, rest) => (c :: front, rest)

/-- The text from one byte index up to another one. -/
def slice (src : List Char) (i j : Nat) : Checked (List Char) :=
  if i ≤ j ∧ j ≤ byteSize src then
    match cut? j src with
    | none => .error (.panic .boundary)
    | some (front, _) =>
      match cut? i front with
      | none => .error (.panic .boundary)
      | some (_, text) => .ok text
  else .error (.panic .range)

/-! ## Suffixes and their offsets -/

section Offsets

variable {src u v w : List Char} {c : Char} {i n : Nat}

/-- Where the suffix `v` of a text starts, in bytes. -/
def offset (src v : List Char) : Nat :=
  byteSize src - byteSize v

/-- The text before a suffix. -/
def before (src v : List Char) : List Char :=
  src.take (src.length - v.length)

theorem before_append (h : v <:+ src) : before src v ++ v = src := by
  obtain ⟨u, rfl⟩ := h
  have hlength : (u ++ v).length - v.length = u.length := by
    rw [List.length_append]
    omega
  rw [before, hlength, List.take_left]

theorem byteSize_before (h : v <:+ src) : byteSize (before src v) = offset src v := by
  have hsize := congrArg byteSize (before_append h)
  rw [byteSize_append] at hsize
  rw [offset]
  omega

theorem byteSize_le (h : v <:+ src) : byteSize v ≤ byteSize src := by
  obtain ⟨u, rfl⟩ := h
  rw [byteSize_append]
  omega

theorem offset_nil (src : List Char) : offset src [] = byteSize src := rfl

theorem offset_self (src : List Char) : offset src src = 0 :=
  Nat.sub_self _

theorem offset_le (src v : List Char) : offset src v ≤ byteSize src :=
  Nat.sub_le _ _

theorem offset_append (h : (w ++ v) <:+ src) : offset src v = offset src (w ++ v) + byteSize w := by
  have hsize := byteSize_le h
  rw [byteSize_append] at hsize
  rw [offset, offset, byteSize_append]
  omega

theorem offset_cons (h : (c :: v) <:+ src) : offset src v = offset src (c :: v) + c.utf8Size := by
  have hnext := @offset_append src v [c] h
  rw [hnext]
  rfl

theorem suffix_of_cons (h : (c :: v) <:+ src) : v <:+ src :=
  (List.suffix_cons c v).trans h

theorem suffix_drop (n : Nat) (h : v <:+ src) : v.drop n <:+ src :=
  (List.drop_suffix n v).trans h

/-- Taking characters off moves on by their bytes. -/
theorem offset_drop (h : v <:+ src) (n : Nat) :
    offset src (v.drop n) = offset src v + byteSize (v.take n) := by
  have hsplit : (v.take n ++ v.drop n) <:+ src := by
    rw [List.take_append_drop]
    exact h
  rw [offset_append hsplit, List.take_append_drop]

/-- The text before a suffix grows by the characters that are taken off. -/
theorem before_drop (h : v <:+ src) (n : Nat) : before src (v.drop n) = before src v ++ v.take n := by
  have hsplit : before src (v.drop n) ++ v.drop n = (before src v ++ v.take n) ++ v.drop n := by
    rw [before_append (suffix_drop n h), List.append_assoc, List.take_append_drop, before_append h]
  exact List.append_cancel_right hsplit

theorem byteSize_pos (hv : v ≠ []) : 0 < byteSize v := by
  obtain ⟨c, s, rfl⟩ := List.exists_cons_of_ne_nil hv
  have hpos := c.utf8Size_pos
  rw [byteSize]
  omega

/-- There is a byte behind every place before the end. -/
theorem offset_lt (h : v <:+ src) (hv : v ≠ []) : offset src v < byteSize src := by
  have hpos := byteSize_pos hv
  have hsize := byteSize_le h
  rw [offset]
  omega

theorem offset_lt_drop (h : v <:+ src) (hv : v ≠ []) (hn : 0 < n) :
    offset src v < offset src (v.drop n) := by
  have htake : v.take n ≠ [] := by
    rw [Ne, List.take_eq_nil_iff]
    rintro (hzero | hnil)
    · omega
    · exact hv hnil
  have hpos := byteSize_pos htake
  rw [offset_drop h]
  omega

/-- From the start of a suffix on, the bytes are those of the suffix. -/
theorem drop_offset (h : v <:+ src) : (octets src).drop (offset src v) = octets v := by
  have hsrc : octets src = octets (before src v) ++ octets v := by
    rw [← octets_append, before_append h]
  rw [hsrc, ← byteSize_before h, ← length_octets, List.drop_left]

theorem part_rest (h : v <:+ src) :
    part (octets src) (offset src v) (octets src).length = .ok (octets v) := by
  have hle : offset src v ≤ (octets src).length := by
    rw [length_octets]
    exact offset_le src v
  rw [part, if_pos ⟨hle, Nat.le_refl _⟩, List.take_length, drop_offset h]

theorem getElem?_offset (h : v <:+ src) (i : Nat) :
    (octets src)[offset src v + i]? = (octets v)[i]? := by
  rw [← drop_offset h, List.getElem?_drop]

theorem getElem?_offset_zero (h : v <:+ src) : (octets src)[offset src v]? = (octets v).head? := by
  have hfirst := getElem?_offset h 0
  rw [Nat.add_zero] at hfirst
  rw [hfirst, List.head?_eq_getElem?]

theorem take_offset (h : v <:+ src) : (octets src).take (offset src v) = octets (before src v) := by
  have hsrc : octets src = octets (before src v) ++ octets v := by
    rw [← octets_append, before_append h]
  rw [hsrc, ← byteSize_before h, ← length_octets, List.take_left]

/-! ### Slices at suffixes -/

theorem cut?_append (u v : List Char) : cut? (byteSize u) (u ++ v) = some (u, v) := by
  induction u with
  | nil => rw [byteSize, List.nil_append, cut?]
  | cons c u ih =>
      have hpos := c.utf8Size_pos
      obtain ⟨i, hi⟩ := Nat.exists_eq_succ_of_ne_zero (by rw [byteSize]; omega : byteSize (c :: u) ≠ 0)
      have hsize : c.utf8Size + byteSize u = i + 1 := hi
      have hrest : i + 1 - c.utf8Size = byteSize u := by omega
      rw [hi, List.cons_append, cut?, if_neg (by omega), hrest, ih]
      rfl

/-- A slice between two suffixes is the text between them. -/
theorem slice_offset (h : v <:+ src) (n : Nat) :
    slice src (offset src v) (offset src (v.drop n)) = .ok (v.take n) := by
  have hdrop := suffix_drop n h
  have hle : offset src v ≤ offset src (v.drop n) := by
    rw [offset_drop h]
    omega
  have hfront := before_drop h n
  have hsrc := cut?_append (before src (v.drop n)) (v.drop n)
  rw [before_append hdrop, byteSize_before hdrop] at hsrc
  have hcut := cut?_append (before src v) (v.take n)
  rw [← hfront, byteSize_before h] at hcut
  rw [slice, if_pos ⟨hle, offset_le _ _⟩, hsrc]
  dsimp only
  rw [hcut]

example : slice ['h', 'é'] 1 3 = .ok ['é'] ∧ slice ['h', 'é'] 1 2 = .error (.panic .boundary) :=
  ⟨rfl, rfl⟩

/-- A slice from a suffix on is the suffix. -/
theorem slice_rest (h : v <:+ src) : slice src (offset src v) (byteSize src) = .ok v := by
  have hslice := slice_offset h v.length
  rw [List.drop_length, List.take_length] at hslice
  exact hslice

theorem part_offset (h : v <:+ src) (n : Nat) :
    part (octets src) (offset src v) (offset src (v.drop n)) = .ok (octets (v.take n)) := by
  have hle : offset src v ≤ offset src (v.drop n) := by
    rw [offset_drop h]
    omega
  have hbytes : (octets src).drop (offset src v) = octets (v.take n) ++ octets (v.drop n) := by
    rw [drop_offset h, ← octets_append, List.take_append_drop]
  have hlength : offset src (v.drop n) - offset src v = (octets (v.take n)).length := by
    rw [offset_drop h, length_octets]
    omega
  have hend : offset src (v.drop n) ≤ (octets src).length := by
    rw [length_octets]
    exact offset_le _ _
  rw [part, if_pos ⟨hle, hend⟩, List.drop_take, hbytes, hlength, List.take_left]

end Offsets

/-! ## Places inside a text -/

section Places

variable {src u v w : List Char} {b c : Char} {i n : Nat}

/-- The bytes from `i` on: what is left of a character that began before, and then the text `v`. -/
structure Left (src : List Char) (i : Nat) (v : List Char) : Prop where
  suffix : v <:+ src
  bytes : ∃ w, (∀ b ∈ w, isWide b = true) ∧ (octets src).drop i = w ++ octets v

/-- What stands at a byte. -/
inductive Next (src : List Char) (i : Nat) : List Char → Prop
  /-- Nothing: the text ends before. -/
  | done (hend : (octets src).length ≤ i) : Next src i []
  /-- A narrow character. -/
  | narrow {c : Char} {v : List Char} (hplace : i = offset src (c :: v)) (hc : isWide c = false)
      (hbyte : (octets src)[i]? = some c) (hnext : i + 1 = offset src v)
      (hleft : Left src (i + 1) v) : Next src i (c :: v)
  /-- The first byte of a wide character. -/
  | wide {b c : Char} {v : List Char} (hplace : i = offset src (c :: v)) (hc : isWide c = true)
      (hb : isWide b = true) (hbyte : (octets src)[i]? = some b) (hleft : Left src (i + 1) v) :
      Next src i (c :: v)
  /-- A later byte of a wide character. -/
  | inside {b : Char} {v : List Char} (hplace : i < offset src v) (hb : isWide b = true)
      (hbyte : (octets src)[i]? = some b) (hleft : Left src (i + 1) v) : Next src i v

theorem Left.of_suffix (h : v <:+ src) : Left src (offset src v) v where
  suffix := h
  bytes := ⟨[], by simp, drop_offset h⟩

theorem Left.of_end (h : (octets src).length ≤ i) : Left src i [] where
  suffix := List.nil_suffix
  bytes := ⟨[], by simp, List.drop_eq_nil_of_le h⟩

theorem utf8Size_narrow (hc : isWide c = false) : c.utf8Size = 1 := by
  rw [← length_octetsOf, octetsOf_narrow hc]
  rfl

/-- A narrow character takes one byte. -/
theorem offset_narrow (h : (c :: v) <:+ src) (hc : isWide c = false) :
    offset src v = offset src (c :: v) + 1 := by
  rw [offset_cons h, utf8Size_narrow hc]

/-- What is left behind the first byte of a suffix. -/
theorem Left.behind (h : v <:+ src) : Left src (offset src v + 1) v.tail := by
  cases v with
  | nil =>
      refine .of_end ?_
      rw [length_octets, offset_nil]
      omega
  | cons c v =>
      obtain ⟨b, bs, hbs⟩ := List.exists_cons_of_ne_nil (octetsOf_ne_nil c)
      refine ⟨suffix_of_cons h, bs, ?_, ?_⟩
      · intro d hd
        cases hc : isWide c with
        | false =>
            rw [octetsOf_narrow hc] at hbs
            obtain ⟨_, rfl⟩ := List.cons.inj hbs
            cases hd
        | true =>
            exact isWide_of_mem_octetsOf hc (by rw [hbs]; exact List.mem_cons_of_mem b hd)
      · rw [← List.drop_drop, drop_offset h, octets_cons, hbs]
        rfl

/-- What stands at a byte is one of the cases. -/
theorem Left.next (h : Left src i v) : Next src i v := by
  have hsuffix := h.suffix
  obtain ⟨w, hw, hdrop⟩ := h.bytes
  have hbyte : (octets src)[i]? = (w ++ octets v).head? := by
    rw [← hdrop, List.head?_drop]
  -- Either bytes of the last character are left, or a character starts here.
  cases w with
  | cons b w =>
      have hplace : i < offset src v := by
        have hlength := congrArg List.length hdrop
        rw [List.length_drop, length_octets, List.length_append, length_octets, List.length_cons] at hlength
        rw [offset]
        omega
      refine .inside hplace (hw b (by simp)) hbyte ⟨hsuffix, w, fun d hd => hw d (by simp [hd]), ?_⟩
      rw [← List.tail_drop, hdrop]
      rfl
  | nil =>
      cases v with
      | nil => exact .done (List.drop_eq_nil_iff.mp hdrop)
      | cons c v =>
          have hplace : i = offset src (c :: v) := by
            have hlength := congrArg List.length hdrop
            rw [List.length_drop, length_octets, List.nil_append, length_octets] at hlength
            have hpos := byteSize_pos (List.cons_ne_nil c v)
            have hle := byteSize_le hsuffix
            rw [offset]
            omega
          cases hc : isWide c with
          | false =>
              have hnext : i + 1 = offset src v := by
                rw [hplace, offset_narrow hsuffix hc]
              have hleft := Left.of_suffix (suffix_of_cons hsuffix)
              rw [← hnext] at hleft
              rw [List.nil_append, octets_cons, octetsOf_narrow hc] at hbyte
              exact .narrow hplace hc hbyte hnext hleft
          | true =>
              obtain ⟨b, bs, hbs⟩ := List.exists_cons_of_ne_nil (octetsOf_ne_nil c)
              have hb : isWide b = true :=
                isWide_of_mem_octetsOf hc (by rw [hbs]; exact List.mem_cons_self)
              have hleft := Left.behind hsuffix
              rw [← hplace] at hleft
              rw [List.nil_append, octets_cons, hbs] at hbyte
              exact .wide hplace hc hb hbyte hleft

/-- There is no byte at the end, and the bytes before it are there. -/
theorem Left.lt (h : Left src i v) (hv : v ≠ []) : i < byteSize src := by
  have hplace := h.next
  cases hplace with
  | done _ => exact absurd rfl hv
  | narrow hplace _ _ _ _ => rw [hplace]; exact offset_lt h.suffix hv
  | wide hplace _ _ _ _ => rw [hplace]; exact offset_lt h.suffix hv
  | inside _ _ hbyte _ =>
      have hlt := (List.getElem?_eq_some_iff.mp hbyte).choose
      rw [length_octets] at hlt
      exact hlt

/-- A byte belongs to a character, as far as a uniform test can tell. -/
def ByteOf (b c : Char) : Prop :=
  b = c ∨ (isWide b = true ∧ isWide c = true)

theorem ByteOf.test {p : Char → Bool} (h : ByteOf b c) (hp : Uniform p) : p b = p c := by
  rcases h with rfl | ⟨hb, hc⟩
  · rfl
  · exact hp b c hb hc

theorem ByteOf.of_mem (hb : b ∈ octetsOf c) : ByteOf b c := by
  cases hc : isWide c with
  | false =>
      rw [octetsOf_narrow hc, List.mem_singleton] at hb
      exact .inl hb
  | true => exact .inr ⟨isWide_of_mem_octetsOf hc hb, hc⟩

/-- The byte before a suffix belongs to the last character before it. -/
theorem byte_before (h : v <:+ src) (hbefore : before src v = u ++ [c]) :
    ∃ b, (octets src)[offset src v - 1]? = some b ∧ ByteOf b c := by
  have hne := octetsOf_ne_nil c
  have hlast := List.getLast?_eq_some_getLast hne
  refine ⟨(octetsOf c).getLast hne, ?_, .of_mem (List.getLast_mem hne)⟩
  have htake := take_offset h
  rw [hbefore, octets_append] at htake
  have hend : ((octets src).take (offset src v)).getLast? = some ((octetsOf c).getLast hne) := by
    rw [htake, octets_cons, octets_nil, List.append_nil, List.getLast?_append, hlast]
    rfl
  have hpos : 0 < offset src v := by
    rw [← byteSize_before h, hbefore]
    exact byteSize_pos (by simp)
  have hle := offset_le src v
  rw [← length_octets] at hle
  rw [List.getLast?_eq_getElem?, List.length_take, Nat.min_eq_left hle, List.getElem?_take,
    if_pos (by omega)] at hend
  exact hend

theorem pred_of_pos (hn : 0 < n) : pred n = .ok (n - 1) := by
  obtain ⟨m, rfl⟩ := Nat.exists_eq_succ_of_ne_zero (by omega : n ≠ 0)
  rfl

theorem entry_eq {α : Type} {xs : List α} {x : α} (h : xs[i]? = some x) : entry xs i = .ok x := by
  rw [entry, h]

theorem byte_eq {bytes : List Char} (h : bytes[i]? = some b) : byte bytes i = .ok b :=
  entry_eq h

end Places

end Bytes
end Markup
end StoryDocs
