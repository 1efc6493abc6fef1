import StoryDocs.Proofs.Markup.Lowering
import StoryDocs.Proofs.Text.Dedent

/-!
# Code samples and comments

A fenced block and a comment are taken off the text as one piece of prose, whatever they hold.  So a document below
one of them is read as it is alone, further down.
-/

namespace StoryDocs
namespace Markup

open Text

variable {mark c : Char} {n count : Nat} {line s above : List Char} {ls : List (List Char)}

/-! ## Fences -/

/-- The marks that fences are made of. -/
def IsMark (mark : Char) : Prop :=
  mark = '\x60' ∨ mark = '~'

/-- A line that opens a block: `count` marks and no more of them, and text behind them that holds no backtick if they
are backticks. -/
def OpensBlock (mark : Char) (count : Nat) (line : List Char) : Prop :=
  ∃ indent info, line = indent ++ (List.replicate count mark ++ info) ∧ indent.all isIndent = true ∧ 3 ≤ count ∧
    info.head? ≠ some mark ∧ (mark = '\x60' → '\x60' ∉ info)

/-- A line that closes a block opened by `count` marks: at least as many of them, and only blanks behind them. -/
def ClosesBlock (mark : Char) (count : Nat) (line : List Char) : Prop :=
  ∃ indent n tail, line = indent ++ (List.replicate n mark ++ tail) ∧ indent.all isIndent = true ∧ count ≤ n ∧
    tail.all isAsciiBlank = true

theorem ClosesBlock.concat_return (h : ClosesBlock mark count line) : ClosesBlock mark count (line ++ ['\r']) := by
  obtain ⟨indent, n, tail, rfl, hindent, hn, htail⟩ := h
  refine ⟨indent, n, tail ++ ['\r'], by simp, hindent, hn, ?_⟩
  rw [List.all_append, htail]
  rfl

/-- A fence of some marks. -/
theorem fence?_marks (hmark : IsMark mark) {indent tail : List Char} (hindent : indent.all isIndent = true)
    (hcount : 0 < count) (htail : tail.head? ≠ some mark) :
    (indent ++ (List.replicate count mark ++ tail)).dropWhile isIndent = List.replicate count mark ++ tail ∧
      fence? (indent ++ (List.replicate count mark ++ tail)) =
        if 3 ≤ count ∧ (mark = '~' ∨ '\x60' ∉ tail) then some (mark, count) else none := by
  obtain ⟨k, rfl⟩ := Nat.exists_eq_add_one_of_ne_zero (by omega : count ≠ 0)
  have hnarrow : isIndent mark = false ∧ (mark != '\x60' && mark != '~') = false := by
    rcases hmark with rfl | rfl
    · exact ⟨rfl, rfl⟩
    · exact ⟨rfl, rfl⟩
  have hbody : (indent ++ (List.replicate (k + 1) mark ++ tail)).dropWhile isIndent =
      List.replicate (k + 1) mark ++ tail := by
    rw [List.dropWhile_append_of_pos (List.all_eq_true.mp hindent), List.replicate_succ, List.cons_append,
      List.dropWhile_cons_of_neg (by rw [hnarrow.1]; exact Bool.false_ne_true)]
  refine ⟨hbody, ?_⟩
  have hrun := congrArg List.length (takeWhile_replicate_append (k + 1) htail)
  have hdrop : (List.replicate (k + 1) mark ++ tail).drop (k + 1) = tail := by
    rw [List.drop_append_of_le_length (by simp)]
    simp
  rw [List.length_replicate] at hrun
  rw [fence?, hbody]
  rw [List.replicate_succ, List.cons_append] at hrun hdrop ⊢
  dsimp only
  rw [hnarrow.2, if_neg Bool.false_ne_true, hrun, hdrop]
  simp only [Bool.and_eq_true, Bool.or_eq_true, decide_eq_true_eq, beq_iff_eq, Bool.not_eq_true',
    List.contains_eq_mem, decide_eq_false_iff_not]

/-- A line closes a block if it is a fence of as many marks with blanks behind it. -/
theorem closesFence_iff (hmark : IsMark mark) (hcount : 3 ≤ count) :
    closesFence mark count line = true ↔ ClosesBlock mark count line := by
  constructor
  · intro h
    rw [closesFence] at h
    cases hfence : fence? line with
    | none =>
        rw [hfence] at h
        cases h
    | some found =>
        obtain ⟨m, n⟩ := found
        rw [hfence] at h
        simp only [Bool.and_eq_true, beq_iff_eq, decide_eq_true_eq] at h
        obtain ⟨⟨rfl, hn⟩, hblank⟩ := h
        obtain ⟨_, hrun⟩ := fence?_eq_some hfence
        refine ⟨line.takeWhile isIndent, n, (line.dropWhile isIndent).drop n, ?_, List.all_takeWhile .., hn, hblank⟩
        have hmarks : (line.dropWhile isIndent).take n = List.replicate n m := by
          rw [hrun, ← List.prefix_iff_eq_take.mp (List.takeWhile_prefix (· == m))]
          exact List.eq_replicate_of_mem fun c hc => beq_iff_eq.mp (List.all_eq_true.mp (List.all_takeWhile ..) c hc)
        rw [← hmarks, List.take_append_drop, List.takeWhile_append_dropWhile]
  · rintro ⟨indent, n, tail, rfl, hindent, hn, htail⟩
    -- Marks are no blanks.
    have hblank : ∀ m, IsMark m → m ∉ tail := by
      intro m hm hmem
      have hm' := List.all_eq_true.mp htail m hmem
      rcases hm with rfl | rfl
      · cases hm'
      · cases hm'
    have hhead : tail.head? ≠ some mark := fun h => hblank mark hmark (List.mem_of_head? h)
    obtain ⟨hbody, hfence⟩ := fence?_marks hmark hindent (by omega : 0 < n) hhead
    rw [closesFence, hfence, if_pos ⟨by omega, .inr (hblank _ (.inl rfl))⟩]
    dsimp only
    rw [hbody, List.drop_append_of_le_length (by simp)]
    simp [hn, htail]

/-! ## Samples -/

/-- What stands in a document to be shown: a fenced block with the line that closes it, none of whose other lines does,
and a comment up to the first end of one. -/
inductive Sample : List Char → Prop
  | fenced {mark : Char} {count : Nat} {opening closing : List Char} {body : List (List Char)} (hmark : IsMark mark)
      (hlines : ∀ l ∈ opening :: (body ++ [closing]), '\n' ∉ l) (hopens : OpensBlock mark count opening)
      (hbody : ∀ l ∈ body, ¬ ClosesBlock mark count l) (hcloses : ClosesBlock mark count closing) :
      Sample (opening ++ linesBelow (body ++ [closing]))
  | comment {s : List Char} (hstart : "<!--".toList <+: s ++ "-->".toList)
      (hfirst : ¬ "-->".toList <:+: s ++ "--".toList) : Sample (s ++ "-->".toList)

/-- What ends a line: a line feed, with a carriage return in front of it or not. -/
def LineBreak (s : List Char) : Prop :=
  s = ['\n'] ∨ s = ['\r', '\n']

theorem pieces_linesBelow {l : List Char} (h : ∀ m ∈ l :: ls, '\n' ∉ m) : pieces (l ++ linesBelow ls) = l :: ls := by
  induction ls generalizing l with
  | nil =>
      show pieces (l ++ []) = [l]
      rw [List.append_nil]
      exact pieces_of_not_mem (h l List.mem_cons_self)
  | cons m ls ih =>
      show pieces (l ++ '\n' :: (m ++ linesBelow ls)) = l :: m :: ls
      rw [pieces_append_feed, pieces_of_not_mem (h l List.mem_cons_self),
        ih fun k hk => h k (List.mem_cons_of_mem l hk)]
      rfl

/-- A fenced block runs to the first line that closes it. -/
theorem fenceBodyLength_closing {closing : List Char} {body : List (List Char)} (rest : List (List Char))
    (hbody : ∀ l ∈ body, closesFence mark count l = false) (hcloses : closesFence mark count closing = true) :
    fenceBodyLength mark count (body ++ closing :: rest) = (linesBelow (body ++ [closing])).length := by
  induction body with
  | nil =>
      rw [List.nil_append, fenceBodyLength, if_pos hcloses]
      simp [linesBelow]
  | cons l body ih =>
      obtain ⟨hl, hbody⟩ := List.forall_mem_cons.mp hbody
      rw [List.cons_append, fenceBodyLength, hl, if_neg Bool.false_ne_true, ih hbody]
      simp only [linesBelow, List.cons_append, List.flatMap_cons, List.length_append, List.length_cons]
      omega

namespace Sample

theorem ne_nil (h : Sample s) : s ≠ [] := by
  cases h with
  | @fenced mark count opening closing body _ _ hopens _ _ =>
      obtain ⟨indent, info, rfl, _, hcount, _⟩ := hopens
      intro hnil
      have hlength := congrArg List.length hnil
      simp only [List.length_append, List.length_replicate, List.length_nil] at hlength
      omega
  | comment _ _ => simp

/-- The first line of a fenced block starts no script. -/
theorem startsScript_opening (hmark : IsMark mark) (hopens : OpensBlock mark count line) (rest : List Char) :
    startsScript (line ++ rest) = false := by
  obtain ⟨indent, info, rfl, hindent, hcount, _⟩ := hopens
  rw [← Bool.not_eq_true]
  intro hstarts
  obtain ⟨c, tail, hcons, hletter⟩ := startsScript_head hstarts
  obtain ⟨k, rfl⟩ := Nat.exists_eq_add_one_of_ne_zero (by omega : count ≠ 0)
  have hc : isIndent c = true ∨ c = mark := by
    cases indent with
    | nil =>
        rw [List.nil_append, List.replicate_succ, List.cons_append, List.cons_append] at hcons
        exact .inr (List.cons.inj hcons).1.symm
    | cons d indent =>
        rw [List.cons_append, List.cons_append] at hcons
        rw [← (List.cons.inj hcons).1]
        exact .inl (List.all_eq_true.mp hindent d List.mem_cons_self)
  rcases hletter with rfl | rfl
  · rcases hc with hc | rfl
    · cases hc
    · rcases hmark with hmark | hmark <;> cases hmark
  · rcases hc with hc | rfl
    · cases hc
    · rcases hmark with hmark | hmark <;> cases hmark

/-- A fenced block in front of a line feed is one piece of prose. -/
theorem ofText_fenced {opening closing : List Char} {body : List (List Char)} (hmark : IsMark mark)
    (hlines : ∀ l ∈ opening :: (body ++ [closing]), '\n' ∉ l) (hopens : OpensBlock mark count opening)
    (hbody : ∀ l ∈ body, ¬ ClosesBlock mark count l) (hcloses : ClosesBlock mark count closing) (rest : List Char) :
    Piece.ofText true true (opening ++ linesBelow (body ++ [closing]) ++ '\n' :: rest) =
      .ok (.prose (opening ++ linesBelow (body ++ [closing])).length) := by
  have hscript := startsScript_opening hmark hopens (linesBelow (body ++ [closing]) ++ '\n' :: rest)
  rw [← List.append_assoc] at hscript
  obtain ⟨indent, info, hopening, hindent, hcount, hhead, htick⟩ := hopens
  have hpieces : pieces (opening ++ linesBelow (body ++ [closing]) ++ '\n' :: rest) =
      opening :: (body ++ closing :: pieces rest) := by
    rw [pieces_append_feed, pieces_linesBelow hlines, List.cons_append, List.append_assoc]
    rfl
  have hfirst : restOfLine (opening ++ linesBelow (body ++ [closing]) ++ '\n' :: rest) = opening := by
    obtain ⟨ls, hls, _⟩ := pieces_eq_cons (opening ++ linesBelow (body ++ [closing]) ++ '\n' :: rest)
    exact (List.cons.inj (hls.symm.trans hpieces)).1
  have hfence : fence? opening = some (mark, count) := by
    obtain ⟨_, hfence⟩ := fence?_marks hmark hindent (by omega : 0 < count) hhead
    rw [hopening, hfence, if_pos ⟨hcount, hmark.symm.imp_right htick⟩]
  have hlength : fencedLength? (opening ++ linesBelow (body ++ [closing]) ++ '\n' :: rest) =
      some (opening ++ linesBelow (body ++ [closing])).length := by
    have hgoes : ∀ l ∈ body, closesFence mark count l = false := fun l hl =>
      Bool.eq_false_iff.mpr fun h => hbody l hl ((closesFence_iff hmark hcount).mp h)
    have hends := (closesFence_iff hmark hcount).mpr hcloses
    rw [fencedLength?, hfirst, hfence, hpieces]
    show some (opening.length + fenceBodyLength mark count (body ++ closing :: pieces rest)) = _
    rw [fenceBodyLength_closing (pieces rest) hgoes hends, List.length_append]
  rw [Piece.ofText, hscript, if_neg (by simp)]
  simp only [if_true, hlength]

/-- A comment is one piece of prose. -/
theorem ofText_comment (hstart : "<!--".toList <+: s ++ "-->".toList) (hfirst : ¬ "-->".toList <:+: s ++ "--".toList)
    (rest : List Char) :
    Piece.ofText true true (s ++ "-->".toList ++ rest) = .ok (.prose (s ++ "-->".toList).length) := by
  obtain ⟨t, ht⟩ := hstart
  have hcomment : commentLength (s ++ "-->".toList ++ rest) = (s ++ "-->".toList).length := by
    have hfind := @find?_first "-->".toList rest s (by decide) hfirst
    rw [commentLength, lengthThrough, hfind]
    exact (List.length_append ..).symm
  rw [← ht] at hcomment ⊢
  have hstarts : startsWith "<!--".toList ("<!--".toList ++ t ++ rest) = true :=
    startsWith_iff.mpr ⟨t ++ rest, by rw [List.append_assoc]⟩
  have hpiece := @Piece.ofText_bracket true true ("!--".toList ++ t ++ rest)
  have hbracket : Piece.ofBracket ("<!--".toList ++ t ++ rest) = .ok (.prose ("<!--".toList ++ t).length) := by
    unfold Piece.ofBracket
    rw [if_pos hstarts, hcomment]
  exact hpiece.trans hbracket

/-- A sample is prose up to the end of its last line. -/
theorem prose {ending : List Char} (h : Sample s) (hending : LineBreak ending) (rest : List Char) :
    Prose true true (s ++ ending) rest := by
  have hfeed : ∀ line, Prose true line ['\n'] rest := fun line =>
    @Prose.cons true line ['\n'] [] _ rest (List.cons_ne_nil _ _) (Piece.ofText_feed rest) (.nil _ _) rfl
  have hpiece : ∀ {u}, Sample u → Piece.ofText true true (u ++ (['\n'] ++ rest)) = .ok (.prose u.length) →
      Prose true true (u ++ ['\n']) rest := fun hu hread => .cons hu.ne_nil hread (hfeed _) rfl
  cases h with
  | @fenced mark count opening closing body hmark hlines hopens hbody hcloses =>
      rcases hending with rfl | rfl
      · exact hpiece (.fenced hmark hlines hopens hbody hcloses) (ofText_fenced hmark hlines hopens hbody hcloses rest)
      · -- The carriage return is a blank behind the marks of the closing line.
        have hlast : opening ++ linesBelow (body ++ [closing]) ++ ['\r', '\n'] =
            opening ++ linesBelow (body ++ [closing ++ ['\r']]) ++ ['\n'] := by simp [linesBelow]
        have hlines' : ∀ l ∈ opening :: (body ++ [closing ++ ['\r']]), '\n' ∉ l := by
          simp only [List.mem_cons, List.mem_append, List.not_mem_nil, or_false] at hlines ⊢
          rintro l (rfl | hl | rfl)
          · exact hlines _ (.inl rfl)
          · exact hlines l (.inr (.inl hl))
          · simpa using hlines closing (.inr (.inr rfl))
        rw [hlast]
        exact hpiece (.fenced hmark hlines' hopens hbody hcloses.concat_return)
          (ofText_fenced hmark hlines' hopens hbody hcloses.concat_return rest)
  | @comment s hstart hfirst =>
      have hread := ofText_comment hstart hfirst
      rcases hending with rfl | rfl
      · exact hpiece (.comment hstart hfirst) (hread _)
      · refine .cons (ne_nil (.comment hstart hfirst)) (hread _) ?_ rfl
        have hline : lineAfter true (s ++ "-->".toList) = false := lineAfter_of_bracket (by simp) true
        rw [hline]
        refine @Prose.cons true false ['\r'] ['\n'] _ rest (List.cons_ne_nil _ _) ?_ (hfeed _) rfl
        exact Piece.ofText_char (absurd · Bool.false_ne_true) (absurd · Bool.false_ne_true) (by decide)

/-- A document below a sample is the same one, further down and with the sample in front, and its error is the same
one, further down. -/
theorem parse_append {ending : List Char} (h : Sample s) (hending : LineBreak ending) (rest : List Char) :
    parse (s ++ ending ++ rest) =
      ((parse rest).map (Document.lowered (s ++ ending))).mapError (Error.lowered (s ++ ending)) := by
  obtain ⟨above, hlines⟩ : ∃ above, s ++ ending = above ++ ['\n'] := by
    rcases hending with rfl | rfl
    · exact ⟨s, rfl⟩
    · exact ⟨s ++ ['\r'], by simp⟩
  have hprose := h.prose hending rest
  rw [hlines] at hprose ⊢
  have hsteps := State.run_of_steps (State.steps_takeProse hprose (.start _))
  have hbehind : (State.takeProse { rest := above ++ ['\n'] ++ rest } (above ++ ['\n']).length) =
      State.lowered (above ++ ['\n']) { rest := rest } := by
    unfold State.takeProse State.skip State.lowered
    simp only [List.take_left, List.drop_left, Place.after_lines, List.append_nil]
    rfl
  rw [hbehind] at hsteps
  rw [parse, parse, ← State.run_lowered (by simp)]
  exact hsteps

/-- A block that holds a tag, an open brace and a shorter fence, above an element. -/
theorem parse_append_block : Sample "~~~~\n<a \x7b\n~~~\n~~~~".toList ∧
    parse ("~~~~\n<a \x7b\n~~~\n~~~~".toList ++ ['\n'] ++ "<b/>".toList) =
      .ok ⟨[.text "~~~~\n<a \x7b\n~~~\n~~~~\n".toList,
        .element ⟨['b'], [], true, ⟨5, 1, 19⟩, some ⟨"<b/>".toList, none⟩⟩ []]⟩ := by
  have hopens : OpensBlock '~' 4 "~~~~".toList := ⟨[], [], rfl, rfl, by decide, by decide, fun _ => by decide⟩
  have hcloses : ClosesBlock '~' 4 "~~~~".toList := ⟨[], 4, [], rfl, rfl, by decide, rfl⟩
  have hbody : ∀ l ∈ ["<a \x7b".toList, "~~~".toList], ¬ ClosesBlock '~' 4 l := by
    intro l hl h
    rw [← closesFence_iff (.inr rfl) (by decide)] at h
    revert l
    decide
  have hsample : Sample "~~~~\n<a \x7b\n~~~\n~~~~".toList := .fenced (.inr rfl) (by decide) hopens hbody hcloses
  refine ⟨hsample, ?_⟩
  rw [hsample.parse_append (.inl rfl)]
  rfl

end Sample

end Markup
end StoryDocs
