import StoryDocs.Proofs.Text.Dedent
import StoryDocs.Story.Synthesis

/-!
# Expressions on other lines

An expression that goes into an object literal is laid out again line by line: the lines behind the first
lose the indentation that they share and get the indentation of a property.  A part of the expression that
starts and ends with code, such as a template, keeps its characters on its first line, and on every other
line only if the two indentations are the same.
-/

namespace StoryDocs
namespace Synthesis

open Text

variable {n : Nat} {l x w y lead text before t behind : List Char} {ls : List (List Char)}

/-! ## One line -/

/-- What becomes of a line behind the first one, `n` bytes of which are shared indentation. -/
def relaid (n : Nat) (l : List Char) : List Char :=
  if (trimEnd (dropBytes n l)).isEmpty then [] else indent ++ trimEnd (dropBytes n l)

theorem relaid_of_kept (h : trimEnd (dropBytes n l) ≠ []) :
    relaid n l = indent ++ trimEnd (dropBytes n l) := by
  rw [relaid, if_neg (by simpa using h)]

/-- A line that can be laid out again without losing code. -/
def Relayable (n : Nat) (l : List Char) : Prop :=
  allBlank l = false → n ≤ indentSize l ∧ CutsBetween n l

theorem Relayable.exists_split (h : Relayable n l) (hcode : allBlank l = false) :
    ∃ front, l = front ++ dropBytes n l ∧ byteSize front = n ∧ allBlank front = true := by
  obtain ⟨hn, hcuts⟩ := h hcode
  exact hcuts.exists_blank hn

/-- The code of a line is in what is left of it. -/
theorem Relayable.allBlank_rest (h : Relayable n l) (hcode : allBlank l = false) :
    allBlank (dropBytes n l) = false := by
  obtain ⟨front, hsplit, _, hblank⟩ := h.exists_split hcode
  rwa [hsplit, allBlank_append, hblank, Bool.true_and] at hcode

theorem Relayable.kept (h : Relayable n l) (hcode : allBlank l = false) :
    trimEnd (dropBytes n l) ≠ [] := by
  intro hnil
  have hrest : allBlank (dropBytes n l) = true := dropTail_eq_nil_iff.mp hnil
  rw [h.allBlank_rest hcode] at hrest
  cases hrest

/-- Blank characters in front of a text that starts with code end before it. -/
theorem exists_append_of_blank {front rest : List Char} {c : Char} (h : x ++ c :: w = front ++ rest)
    (hblank : allBlank front = true) (hc : isBlank c = false) :
    ∃ x', x = front ++ x' ∧ rest = x' ++ c :: w := by
  induction front generalizing x with
  | nil => exact ⟨x, rfl, h.symm⟩
  | cons d front ih =>
      have hd : isBlank d = true ∧ allBlank front = true := by simpa [allBlank] using hblank
      cases x with
      | nil =>
          have hsame : c = d := (List.cons.inj h).1
          rw [hsame, hd.1] at hc
          cases hc
      | cons e x =>
          obtain ⟨rfl, htail⟩ := List.cons.inj h
          obtain ⟨x', rfl, hrest⟩ := ih htail hd.2
          exact ⟨x', rfl, hrest⟩

/-- Code that a line ends with is kept where it stands, up to blanks at its end. -/
theorem relaid_front {c : Char} (h : Relayable n (x ++ c :: w)) (hc : isBlank c = false) :
    ∃ x', relaid n (x ++ c :: w) = indent ++ x' ++ trimEnd (c :: w) := by
  have hcode : allBlank (x ++ c :: w) = false := by simp [allBlank, hc]
  obtain ⟨front, hsplit, _, hblank⟩ := h.exists_split hcode
  obtain ⟨x', _, hrest⟩ := exists_append_of_blank hsplit hblank hc
  have hword : allBlank (c :: w) = false := by simp [allBlank, hc]
  refine ⟨x', ?_⟩
  rw [relaid_of_kept (h.kept hcode), hrest, trimEnd_append hword, List.append_assoc]

/-- Code that a line starts with is laid out as it would be alone. -/
theorem relaid_end {c : Char} (h : Relayable n (l ++ y)) (hlast : l.getLast? = some c)
    (hc : isBlank c = false) : relaid n (l ++ y) = relaid n l ++ trimEnd y ∧ Relayable n l := by
  obtain ⟨body, rfl⟩ := List.getLast?_eq_some_iff.mp hlast
  have hcode : allBlank (body ++ [c] ++ y) = false := by simp [allBlank, hc]
  have hword : allBlank (body ++ [c]) = false := by simp [allBlank, hc]
  obtain ⟨front, hsplit, hsize, hblank⟩ := h.exists_split hcode
  have hshape : body ++ c :: y = front ++ dropBytes n (body ++ [c] ++ y) := by
    rw [← hsplit, List.append_assoc]
    rfl
  obtain ⟨body', rfl, hrest⟩ := exists_append_of_blank hshape hblank hc
  have halone : dropBytes n (front ++ body' ++ [c]) = body' ++ [c] := by
    rw [← hsize, List.append_assoc, dropBytes_byteSize]
  have hrelayable : Relayable n (front ++ body' ++ [c]) := by
    intro _
    refine ⟨?_, front, ?_, hsize⟩
    · rw [← indentSize_append (v := y) hword]
      exact (h hcode).1
    · rw [halone, List.append_assoc]
  refine ⟨?_, hrelayable⟩
  have hend : (body' ++ [c]).getLast? = some c := by simp
  have htrim : trimEnd (body' ++ c :: y) = body' ++ [c] ++ trimEnd y := by
    rw [← trimEnd_append_of_getLast? hend hc y, List.append_assoc]
    rfl
  have hsame : trimEnd (body' ++ [c]) = body' ++ [c] := dropTail_of_getLast? hend hc
  rw [relaid_of_kept (h.kept hcode), relaid_of_kept (hrelayable.kept hword), hrest, halone, htrim,
    hsame, ← List.append_assoc]

/-- A line that keeps its characters: it is empty, or it has the indentation of a property and no other, and
ends with code. -/
def Level (n : Nat) (l : List Char) : Prop :=
  l = [] ∨ n = 2 ∧ indent <+: l ∧ ∃ c, l.getLast? = some c ∧ isBlank c = false

theorem relaid_eq_self_iff (h : Relayable n (dropReturn l)) :
    relaid n (dropReturn l) = l ↔ Level n l := by
  constructor
  · intro hsame
    by_cases hkept : trimEnd (dropBytes n (dropReturn l)) = []
    · rw [relaid, if_pos (by simp [hkept])] at hsame
      exact .inl hsame.symm
    · rw [relaid_of_kept hkept] at hsame
      obtain ⟨c, hc⟩ : ∃ c, (trimEnd (dropBytes n (dropReturn l))).getLast? = some c :=
        ⟨_, List.getLast?_eq_some_getLast hkept⟩
      have hblank : isBlank c = false := getLast?_trimEnd hc
      have hlast : l.getLast? = some c := by rw [← hsame, List.getLast?_append, hc]; rfl
      have hreturn : dropReturn l = l := by
        refine dropReturn_of_getLast? hlast ?_
        rintro rfl
        exact absurd hblank (by decide)
      rw [hreturn] at h hsame hkept
      have hcode : allBlank l = false := by
        obtain ⟨front, rfl⟩ := List.getLast?_eq_some_iff.mp hlast
        simp [allBlank, hblank]
      obtain ⟨front, hsplit, hsize, _⟩ := h.exists_split hcode
      -- The line has as many bytes before as behind.
      have hbytes : n + byteSize (dropBytes n l) = 2 + byteSize (trimEnd (dropBytes n l)) := by
        have hl := congrArg byteSize hsplit
        have hl' := congrArg byteSize hsame
        rw [byteSize_append, hsize] at hl
        rw [byteSize_append] at hl'
        have hindent : byteSize indent = 2 := by decide
        omega
      have htrim : trimEnd (dropBytes n l) = dropBytes n l := by
        refine dropTail_of_getLast? ?_ hblank
        rw [hsplit, List.getLast?_append] at hlast
        cases hrest : (dropBytes n l).getLast? with
        | none =>
            rw [List.getLast?_eq_none_iff.mp hrest] at hkept
            exact absurd rfl hkept
        | some d =>
            rw [hrest] at hlast
            exact hlast
      rw [htrim] at hbytes
      exact .inr ⟨by omega, ⟨_, hsame⟩, c, hlast, hblank⟩
  · rintro (rfl | ⟨rfl, ⟨k, rfl⟩, c, hlast, hblank⟩)
    · have hdrop : dropBytes n [] = [] := by cases n <;> rfl
      rw [dropReturn, relaid, hdrop]
      rfl
    · have hreturn : dropReturn (indent ++ k) = indent ++ k := by
        refine dropReturn_of_getLast? hlast ?_
        rintro rfl
        exact absurd hblank (by decide)
      have hdrop : dropBytes 2 (indent ++ k) = k := dropBytes_byteSize indent k
      have hk : k ≠ [] := by
        rintro rfl
        have hspace : c = ' ' := by simpa [indent] using hlast.symm
        rw [hspace] at hblank
        exact absurd hblank (by decide)
      have hend : k.getLast? = some c := by
        rw [List.getLast?_append] at hlast
        cases hk' : k.getLast? with
        | none => exact absurd (List.getLast?_eq_none_iff.mp hk') hk
        | some d =>
            rw [hk'] at hlast
            exact hlast
      have htrim : trimEnd k = k := dropTail_of_getLast? hend hblank
      rw [hreturn, relaid, hdrop, htrim, if_neg (by simpa using hk)]

/-! ## Whole texts -/

/-- No line is lost at the end if the last one is code that is kept. -/
theorem terminated_relayable (h : ∀ l, ls.getLast? = some l → Relayable n l ∧ allBlank l = false) :
    terminated (ls.map fun l => trimEnd (dropBytes n l)) = ls.map fun l => trimEnd (dropBytes n l) := by
  refine terminated_of_trimmed ?_ ?_
  · intro l hl
    obtain ⟨m, _, rfl⟩ := List.mem_map.mp hl
    exact dropReturn_trimEnd _
  · rw [List.getLast?_map]
    intro hempty
    obtain ⟨last, hlast, hnil⟩ := Option.map_eq_some_iff.mp hempty
    obtain ⟨hrelayable, hcode⟩ := h last hlast
    exact hrelayable.kept hcode hnil

/-- The lines of a property that is written behind a lead. -/
theorem indentProperty_dedent {first : List Char} {rest : List (List Char)}
    (hlines : lines text = first :: rest) (hlead : '\n' ∉ lead) (hne : lead ≠ [])
    (hfirst : first ≠ [])
    (hlast : ∀ l, rest.getLast? = some l →
      Relayable (sharedIndent rest) l ∧ allBlank l = false) :
    indentProperty (lead ++ dedent text) =
      unlines ((indent ++ (lead ++ if rest = [] then first else dropReturn first)) ::
        rest.map (relaid (sharedIndent rest))) := by
  have hcut := pieces_dedent hlines
  generalize hshared : sharedIndent rest = n at hlast hcut ⊢
  have hpieces : pieces (lead ++ dedent text) =
      (lead ++ first) :: rest.map fun l => trimEnd (dropBytes n l) := by
    have hwhole : pieces lead = [] ++ [lead] := pieces_of_not_mem hlead
    exact pieces_append hwhole hcut
  have hproperty : lines (lead ++ dedent text) =
      (lead ++ if rest = [] then first else dropReturn first) ::
        rest.map fun l => trimEnd (dropBytes n l) := by
    have hsame := terminated_relayable hlast
    rw [lines, hpieces]
    cases hrest : rest with
    | nil => simp [terminated, hfirst]
    | cons m ms =>
        have hcons := @terminated_append [lead ++ first] (rest.map fun l => trimEnd (dropBytes n l))
          (by simp [hrest])
        rw [hrest] at hcons hsame
        rw [← List.singleton_append, hcons, hsame, if_neg (by simp), List.map_singleton,
          dropReturn_append hfirst]
        rfl
  have hopening : (lead ++ if rest = [] then first else dropReturn first).isEmpty = false := by
    simp [hne]
  rw [indentProperty, hproperty, List.map_cons, hopening, List.map_map]
  rfl

/-! ## Parts that start and end with code -/

/-- What becomes of the first line of a part that goes on behind it.  On the first line of the expression
only carriage returns are lost. -/
def openingLine (isFirst : Bool) (l : List Char) : List Char :=
  if isFirst then dropReturn (dropReturn l) else trimEnd l

/-- What becomes of a part of an expression that starts and ends with code; `n` is the indentation that the
lines of the expression share, and `isFirst` tells whether the part starts on the first of them. -/
def relay (n : Nat) (isFirst : Bool) (t : List Char) : List Char :=
  match pieces t with
  | l :: m :: ls =>
    unlines (openingLine isFirst l :: (m :: ls).map fun l => relaid n (dropReturn l))
  | _ => t

/-- A part that starts and ends with code. -/
structure Solid (t : List Char) : Prop where
  head : ∃ c, t.head? = some c ∧ isBlank c = false
  last : ∃ c, t.getLast? = some c ∧ isBlank c = false

/-- The indentation that an expression loses on its lines behind the first. -/
def lostIndent (text : List Char) : Nat :=
  sharedIndent (lines text).tail

/-- The lost indentation ends between two characters of every line. -/
def CleanlyIndented (text : List Char) : Prop :=
  ∀ l ∈ (lines text).tail, allBlank l = false → CutsBetween (lostIndent text) l

theorem CleanlyIndented.relayable (h : CleanlyIndented text) :
    ∀ l ∈ (lines text).tail, Relayable (lostIndent text) l :=
  fun l hl hcode => ⟨sharedIndent_le hl hcode, h l hl hcode⟩

/-- A part that keeps its characters: it stands on one line, or all of its lines keep theirs. -/
def Unmoved (n : Nat) (isFirst : Bool) (t : List Char) : Prop :=
  ∀ first rest, pieces t = first :: rest → rest = [] ∨
    openingLine isFirst first = first ∧ ∀ l ∈ rest, Level n l

theorem feed_not_mem_relaid (h : '\n' ∉ l) : '\n' ∉ relaid n l := by
  rw [relaid]
  split
  · simp
  · rw [List.mem_append, not_or]
    exact ⟨by decide, fun hmem => h (dropBytes_subset n l (trimEnd_subset _ hmem))⟩

theorem openingLine_subset (isFirst : Bool) (l : List Char) : openingLine isFirst l ⊆ l := by
  rw [openingLine]
  split
  · exact fun c hc => dropReturn_subset l (dropReturn_subset _ hc)
  · exact trimEnd_subset l

theorem relay_eq_self_iff {isFirst : Bool}
    (h : ∀ l ∈ (pieces t).tail, Relayable n (dropReturn l)) :
    relay n isFirst t = t ↔ Unmoved n isFirst t := by
  obtain ⟨first, rest, hpieces⟩ := exists_pieces_cons t
  have hunmoved : Unmoved n isFirst t ↔
      rest = [] ∨ openingLine isFirst first = first ∧ ∀ l ∈ rest, Level n l := by
    constructor
    · exact fun hall => hall first rest hpieces
    · intro hthis first' rest' hpieces'
      rw [hpieces] at hpieces'
      obtain ⟨rfl, rfl⟩ := List.cons.inj hpieces'
      exact hthis
  rw [hunmoved]
  rw [hpieces, List.tail_cons] at h
  cases rest with
  | nil => simp [relay, hpieces]
  | cons m ls =>
      have hrelay : relay n isFirst t =
          unlines (openingLine isFirst first :: (m :: ls).map fun l => relaid n (dropReturn l)) := by
        rw [relay, hpieces]
      have hfeeds : ∀ l ∈ first :: m :: ls, '\n' ∉ l := by
        rw [← hpieces]
        exact fun l hl => not_mem_of_mem_pieces hl
      rw [List.forall_mem_cons] at hfeeds
      -- Relaying joins lines without line feeds, so it changes nothing exactly if it changes none of the lines.
      have hread : pieces (relay n isFirst t) =
          openingLine isFirst first :: (m :: ls).map fun l => relaid n (dropReturn l) := by
        rw [hrelay]
        refine pieces_unlines (by simp) ?_
        rw [List.forall_mem_cons]
        refine ⟨fun hmem => hfeeds.1 (openingLine_subset isFirst first hmem), ?_⟩
        intro l hl
        obtain ⟨k, hk, rfl⟩ := List.mem_map.mp hl
        exact feed_not_mem_relaid fun hmem => hfeeds.2 k hk (dropReturn_subset k hmem)
      have hsame : relay n isFirst t = t ↔
          openingLine isFirst first :: (m :: ls).map (fun l => relaid n (dropReturn l)) =
            first :: m :: ls := by
        rw [← hread, ← hpieces]
        refine ⟨fun heq => by rw [heq], fun heq => ?_⟩
        rw [← unlines_pieces (relay n isFirst t), heq, unlines_pieces]
      have hlines : (m :: ls).map (fun l => relaid n (dropReturn l)) = m :: ls ↔
          ∀ l ∈ m :: ls, Level n l := by
        have hpoint : (m :: ls).map (fun l => relaid n (dropReturn l)) = (m :: ls).map id ↔
            ∀ l ∈ m :: ls, relaid n (dropReturn l) = id l := List.map_inj_left
        rw [List.map_id] at hpoint
        rw [hpoint]
        exact ⟨fun hall l hl => (relaid_eq_self_iff (h l hl)).mp (hall l hl),
          fun hall l hl => (relaid_eq_self_iff (h l hl)).mpr (hall l hl)⟩
      rw [hsame, List.cons.injEq, hlines]
      simp

theorem ne_return_of_code {c : Char} (h : isBlank c = false) : c ≠ '\r' := by
  rintro rfl
  exact absurd h (by decide)

/-- The lines of an expression around a part without line feeds. -/
theorem lines_around_word (ht : Solid t) (hfeed : '\n' ∉ t) {ps qs : List (List Char)}
    (hbefore : pieces before = ps ++ [x]) (hbehind : pieces behind = y :: qs) :
    ∃ y' ls, lines (before ++ t ++ behind) = ps.map dropReturn ++ (x ++ t ++ y') :: ls := by
  obtain ⟨c, hlast, hc⟩ := ht.last
  have hword : pieces (before ++ t) = ps ++ [x ++ t] :=
    pieces_append hbefore (pieces_of_not_mem hfeed)
  have hend : (x ++ t).getLast? = some c := by rw [List.getLast?_append, hlast]; rfl
  obtain ⟨y', ls, hterminated⟩ := @exists_terminated_cons (x ++ t) y c hend (ne_return_of_code hc) qs
  refine ⟨y', ls, ?_⟩
  rw [lines, pieces_append hword hbehind, terminated_append (by simp), hterminated]

/-- The first line of a part starts with code, and its last line ends with code. -/
theorem Solid.ends {first last : List Char} {ms : List (List Char)} (ht : Solid t)
    (hpieces : pieces t = first :: (ms ++ [last])) :
    (∃ c w, first = c :: w ∧ isBlank c = false) ∧ ∃ c, last.getLast? = some c ∧ isBlank c = false := by
  have hwhole : unlines (first :: (ms ++ [last])) = t := by rw [← hpieces, unlines_pieces]
  have hfront : t = first ++ '\n' :: unlines (ms ++ [last]) := by
    rw [← hwhole, unlines_cons (by simp)]
  have hend : t = unlines (first :: ms) ++ '\n' :: last := by
    rw [← hwhole, ← List.cons_append, unlines_concat (by simp)]
  obtain ⟨c, hhead, hc⟩ := ht.head
  obtain ⟨d, hlast, hd⟩ := ht.last
  constructor
  · cases first with
    | nil =>
        rw [hfront, List.nil_append, List.head?_cons, Option.some.injEq] at hhead
        rw [← hhead] at hc
        exact absurd hc (by decide)
    | cons e w =>
        rw [hfront, List.cons_append, List.head?_cons, Option.some.injEq] at hhead
        exact ⟨e, w, rfl, by rw [hhead]; exact hc⟩
  · rw [hend, List.getLast?_append, List.getLast?_cons] at hlast
    cases hl : last.getLast? with
    | none =>
        rw [hl] at hlast
        have hsame : '\n' = d := by simpa using hlast
        rw [← hsame] at hd
        exact absurd hd (by decide)
    | some e =>
        rw [hl] at hlast
        have hsame : e = d := by simpa using hlast
        exact ⟨e, rfl, by rw [hsame]; exact hd⟩

/-- The lines of an expression around a part that goes over several lines. -/
theorem lines_around_block (ht : Solid t) {ps qs ms : List (List Char)} {first last : List Char}
    (hpieces : pieces t = first :: (ms ++ [last]))
    (hbefore : pieces before = ps ++ [x]) (hbehind : pieces behind = y :: qs) :
    ∃ y' ls, lines (before ++ t ++ behind) =
      ps.map dropReturn ++ (x ++ dropReturn first) :: (ms.map dropReturn ++ (last ++ y') :: ls) := by
  obtain ⟨⟨c, w, hfirst, _⟩, d, hlast, hd⟩ := ht.ends hpieces
  have hblock : pieces (before ++ t) = (ps ++ (x ++ first) :: ms) ++ [last] := by
    rw [pieces_append hbefore hpieces, List.append_assoc]
    rfl
  obtain ⟨y', ls, hterminated⟩ := @exists_terminated_cons last y d hlast (ne_return_of_code hd) qs
  refine ⟨y', ls, ?_⟩
  rw [lines, pieces_append hblock hbehind, terminated_append (by simp), hterminated, List.map_append,
    List.map_cons, dropReturn_append (by simp [hfirst]), List.append_assoc]
  rfl

/-- The first line of an expression starts with code, and its last line is not blank. -/
theorem Solid.exists_lines (h : Solid text) : ∃ first rest, lines text = first :: rest ∧
    (∃ c w, first = c :: w ∧ isBlank c = false) ∧
      ∀ l, rest.getLast? = some l → allBlank l = false := by
  by_cases hfeed : '\n' ∈ text
  · obtain ⟨first, ms, last, hpieces⟩ := exists_pieces_ends hfeed
    obtain ⟨⟨c, w, rfl, hc⟩, d, hlast, hd⟩ := h.ends hpieces
    have hne : last ≠ [] := by
      rintro rfl
      cases hlast
    have hlines : lines text = dropReturn (c :: w) :: (ms.map dropReturn ++ [last]) := by
      rw [lines, hpieces, ← List.cons_append, terminated_append (by simp)]
      simp [terminated, hne]
    refine ⟨_, _, hlines, ?_, ?_⟩
    · cases w with
      | nil => exact ⟨c, [], by simp [dropReturn, ne_return_of_code hc], hc⟩
      | cons e w => exact ⟨c, dropReturn (e :: w), rfl, hc⟩
    · intro l hl
      obtain rfl : last = l := by simpa using hl
      obtain ⟨front, rfl⟩ := List.getLast?_eq_some_iff.mp hlast
      simp [allBlank, hd]
  · obtain ⟨c, hhead, hc⟩ := h.head
    obtain ⟨w, hw⟩ := List.head?_eq_some_iff.mp hhead
    have hne : text ≠ [] := by simp [hw]
    refine ⟨text, [], ?_, ⟨c, w, hw, hc⟩, by simp⟩
    simp [lines, pieces_of_not_mem hfeed, terminated, hne]

/-- The first line of an expression is kept when it is dedented, and the others are cut. -/
theorem Solid.lines_dedent (h : Solid text) {first : List Char} {rest : List (List Char)}
    (hlines : lines text = first :: rest) :
    ∃ l, lines (dedent text) = l :: terminated (rest.map fun l => trimEnd (dropBytes (sharedIndent rest) l)) ∧
      trim l = trim first ∧ l ≠ [] := by
  obtain ⟨first', rest', hlines', ⟨c, w, hfirst, hc⟩, _⟩ := h.exists_lines
  obtain ⟨rfl, rfl⟩ := List.cons.inj (hlines.symm.trans hlines')
  have hcode : allBlank first = false := by simp [hfirst, allBlank, hc]
  obtain ⟨l, hdedent, htrim⟩ : ∃ l, lines (dedent text) =
      l :: terminated (rest.map fun l => trimEnd (dropBytes (sharedIndent rest) l)) ∧ trim l = trim first := by
    rw [lines, pieces_dedent hlines]
    cases rest with
    | nil => exact ⟨first, by simp [terminated, hfirst], rfl⟩
    | cons m rest => exact ⟨dropReturn first, rfl, trim_dropReturn first⟩
  refine ⟨l, hdedent, htrim, ?_⟩
  rintro rfl
  rw [trim_eq_nil_iff.mp htrim.symm] at hcode
  cases hcode

/-- The lines of a property, given the lines of its expression. -/
def laid (lead : List Char) (n : Nat) (first : List Char) (rest : List (List Char)) : List Char :=
  unlines ((indent ++ (lead ++ if rest = [] then first else dropReturn first)) :: rest.map (relaid n))

/-- What stands behind a line is not the first line. -/
theorem subset_of_cons_eq {first : List Char} {rest ps ls : List (List Char)}
    (h : first :: rest = ps ++ l :: ls) : ls ⊆ rest := by
  cases ps with
  | nil =>
      obtain ⟨_, rfl⟩ := List.cons.inj h
      exact List.Subset.refl _
  | cons p ps =>
      obtain ⟨_, rfl⟩ := List.cons.inj h
      exact fun k hk => List.mem_append_right _ (List.mem_cons_of_mem _ hk)

theorem exists_laid_word {first : List Char} {rest ps ls : List (List Char)} (ht : Solid t)
    (hlines : first :: rest = ps ++ (x ++ t ++ y) :: ls) (hrelayable : ∀ l ∈ rest, Relayable n l) :
    ∃ front behind, laid lead n first rest = front ++ t ++ behind := by
  obtain ⟨c, hhead, hc⟩ := ht.head
  obtain ⟨d, hlast, hd⟩ := ht.last
  obtain ⟨w, hw⟩ := List.head?_eq_some_iff.mp hhead
  -- On the first line the word stands behind the key, on another one behind the indent of that line.
  cases ps with
  | nil =>
      obtain ⟨rfl, rfl⟩ := List.cons.inj hlines
      obtain ⟨y', hy'⟩ : ∃ y', (if rest = [] then x ++ t ++ y else dropReturn (x ++ t ++ y)) =
          x ++ (t ++ y') := by
        split
        · exact ⟨y, List.append_assoc x t y⟩
        · cases y with
          | nil =>
              have hsame := dropReturn_of_getLast? hlast (ne_return_of_code hd)
              refine ⟨[], ?_⟩
              rw [List.append_nil, List.append_nil, dropReturn_append (by simp [hw]), hsame]
          | cons e y => exact ⟨dropReturn (e :: y), by rw [dropReturn_append (by simp), List.append_assoc]⟩
      refine ⟨indent ++ (lead ++ x), unlines (y' :: rest.map (relaid n)), ?_⟩
      rw [laid, hy']
      have hsplit := append_unlines (indent ++ (lead ++ x) ++ t) y' (rest.map (relaid n))
      rw [hsplit]
      simp only [List.append_assoc]
  | cons p ps =>
      rw [List.cons_append] at hlines
      obtain ⟨rfl, rfl⟩ := List.cons.inj hlines
      have hline : Relayable n (x ++ c :: (w ++ y)) := by
        have hmem := hrelayable (x ++ t ++ y) (by simp)
        rwa [hw, List.append_assoc] at hmem
      obtain ⟨x', hx'⟩ := relaid_front hline hc
      have htrim : trimEnd (c :: (w ++ y)) = t ++ trimEnd y := by
        rw [← List.cons_append, ← hw]
        exact trimEnd_append_of_getLast? hlast hd y
      have hrelaid : relaid n (x ++ t ++ y) = indent ++ x' ++ (t ++ trimEnd y) := by
        rw [← htrim, ← hx', hw, List.append_assoc]
        rfl
      rw [laid, List.map_append, List.map_cons, hrelaid, ← List.cons_append]
      obtain ⟨front, hfront⟩ := exists_unlines_front _ (indent ++ x') (t ++ trimEnd y) (ls.map (relaid n))
      refine ⟨front, unlines (trimEnd y :: ls.map (relaid n)), ?_⟩
      rw [hfront, List.append_assoc, append_unlines t]

theorem exists_laid_block {first opening closing : List Char} {rest ps ms ls : List (List Char)}
    {c d : Char} {w : List Char} (hopening : opening = c :: w) (hc : isBlank c = false)
    (hclosing : closing.getLast? = some d) (hd : isBlank d = false)
    (hlines : first :: rest = ps ++ (x ++ dropReturn opening) :: (ms ++ (closing ++ y) :: ls))
    (hrelayable : ∀ l ∈ rest, Relayable n l) :
    ∃ front behind, laid lead n first rest = front ++
      unlines (openingLine ps.isEmpty opening :: (ms.map (relaid n) ++ [relaid n closing])) ++ behind := by
  have hend : Relayable n (closing ++ y) :=
    hrelayable _ (subset_of_cons_eq hlines (by simp))
  have hsplit : relaid n (closing ++ y) = relaid n closing ++ trimEnd y :=
    (relaid_end hend hclosing hd).1
  have hword : dropReturn opening = c :: dropReturn w ∨ dropReturn opening = [c] := by
    cases w with
    | nil => exact .inr (by simp [hopening, dropReturn, ne_return_of_code hc])
    | cons e w => exact .inl (by rw [hopening]; rfl)
  have hne : dropReturn opening ≠ [] := by
    rcases hword with h | h <;> simp [h]
  -- On the first line the block stands behind the key, on another one behind the indent of that line.
  cases ps with
  | nil =>
      obtain ⟨rfl, rfl⟩ := List.cons.inj hlines
      have hif : (if ms ++ (closing ++ y) :: ls = [] then x ++ dropReturn opening
          else dropReturn (x ++ dropReturn opening)) = x ++ openingLine true opening := by
        rw [if_neg (by simp), dropReturn_append hne]
        rfl
      refine ⟨indent ++ (lead ++ x), unlines (trimEnd y :: ls.map (relaid n)), ?_⟩
      rw [laid, hif, List.map_append, List.map_cons, hsplit, ← List.append_assoc lead,
        ← List.append_assoc indent, ← append_unlines, ← List.cons_append, unlines_end,
        ← List.append_assoc]
      rfl
  | cons p ps =>
      rw [List.cons_append] at hlines
      obtain ⟨rfl, rfl⟩ := List.cons.inj hlines
      obtain ⟨w', hw'⟩ : ∃ w', dropReturn opening = c :: w' := by
        rcases hword with h | h
        · exact ⟨_, h⟩
        · exact ⟨[], h⟩
      have hline : Relayable n (x ++ c :: w') := by
        rw [← hw']
        exact hrelayable _ (by simp)
      obtain ⟨x', hx'⟩ := relaid_front hline hc
      have hfront : relaid n (x ++ dropReturn opening) = indent ++ x' ++ trimEnd opening := by
        rw [hw', hx', ← hw', trimEnd_dropReturn]
      rw [laid, List.map_append, List.map_cons, List.map_append, List.map_cons, hfront, hsplit,
        ← List.cons_append]
      obtain ⟨front, hlaid⟩ := exists_unlines_front _ (indent ++ x') (trimEnd opening)
        (ms.map (relaid n) ++ (relaid n closing ++ trimEnd y) :: ls.map (relaid n))
      refine ⟨front, unlines (trimEnd y :: ls.map (relaid n)), ?_⟩
      rw [hlaid, ← List.cons_append, unlines_end, List.append_assoc]
      rfl

/-- A part that starts and ends with code stands in the property as `relay` says. -/
theorem exists_relay (htext : text = before ++ t ++ behind) (ht : Solid t) (hsolid : Solid text)
    (hclean : CleanlyIndented text) (hlead : '\n' ∉ lead) (hne : lead ≠ []) :
    (∃ front rest, indentProperty (lead ++ dedent text) =
      front ++ relay (lostIndent text) (decide ('\n' ∉ before)) t ++ rest) ∧
      (relay (lostIndent text) (decide ('\n' ∉ before)) t = t ↔
        Unmoved (lostIndent text) (decide ('\n' ∉ before)) t) := by
  obtain ⟨ps, x, hbefore⟩ := exists_pieces_concat before
  obtain ⟨y, qs, hbehind⟩ := exists_pieces_cons behind
  obtain ⟨first, rest, hlines, ⟨c₁, w₁, hfirst, _⟩, hlast⟩ := hsolid.exists_lines
  have hisFirst : decide ('\n' ∉ before) = ps.isEmpty := by
    rw [decide_eq_decide.mpr (not_mem_feed_iff hbefore)]
    cases ps <;> rfl
  have hrest : (lines text).tail = rest := by rw [hlines]; rfl
  have hrelayable := hclean.relayable
  rw [hrest] at hrelayable
  have hlaid : indentProperty (lead ++ dedent text) = laid lead (lostIndent text) first rest := by
    rw [lostIndent, hrest] at hrelayable ⊢
    refine indentProperty_dedent hlines hlead hne (by simp [hfirst]) ?_
    exact fun l hl => ⟨hrelayable l (List.mem_of_getLast? hl), hlast l hl⟩
  rw [hlaid, hisFirst]
  -- A part over several lines is a block of lines of the text; one on a single line is a word of one of them.
  by_cases hfeed : '\n' ∈ t
  · obtain ⟨opening, ms, closing, hpieces⟩ := exists_pieces_ends hfeed
    obtain ⟨y', ls, haround⟩ := lines_around_block ht hpieces hbefore hbehind
    obtain ⟨⟨c, w, hopening, hc⟩, d, hclosing, hd⟩ := ht.ends hpieces
    rw [← htext, hlines] at haround
    obtain ⟨front, rest', hblock⟩ :=
      @exists_laid_block (lostIndent text) x y' lead first opening closing rest _ _ ls c d w hopening hc
        hclosing hd haround hrelayable
    have hbelow := subset_of_cons_eq haround
    have hmiddle : ∀ l ∈ (pieces t).tail, Relayable (lostIndent text) (dropReturn l) := by
      intro l hl
      rw [hpieces, List.tail_cons, List.mem_append, List.mem_singleton] at hl
      rcases hl with hl | rfl
      · exact hrelayable _ (hbelow (List.mem_append_left _ (List.mem_map_of_mem hl)))
      · have hend := hrelayable _ (hbelow (List.mem_append_right _ List.mem_cons_self))
        rw [dropReturn_of_getLast? hclosing (ne_return_of_code hd)]
        exact (relaid_end hend hclosing hd).2
    refine ⟨⟨front, rest', ?_⟩, relay_eq_self_iff hmiddle⟩
    have hreturn : dropReturn closing = closing :=
      dropReturn_of_getLast? hclosing (ne_return_of_code hd)
    have hrelay : relay (lostIndent text) ps.isEmpty t = unlines (openingLine ps.isEmpty opening ::
        ((ms.map dropReturn).map (relaid (lostIndent text)) ++ [relaid (lostIndent text) closing])) := by
      rw [relay, hpieces]
      cases ms with
      | nil => simp [hreturn]
      | cons m ms => simp [hreturn, Function.comp_def]
    rw [hblock, hrelay, List.isEmpty_map]
  · obtain ⟨y', ls, haround⟩ := lines_around_word ht hfeed hbefore hbehind
    rw [← htext, hlines] at haround
    have hrelay : relay (lostIndent text) ps.isEmpty t = t := by
      rw [relay, pieces_of_not_mem hfeed]
    have hone : ∀ l ∈ (pieces t).tail, Relayable (lostIndent text) (dropReturn l) := by
      simp [pieces_of_not_mem hfeed]
    refine ⟨?_, relay_eq_self_iff hone⟩
    rw [hrelay]
    exact exists_laid_word ht haround hrelayable

end Synthesis
end StoryDocs
